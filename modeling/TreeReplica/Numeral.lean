/-!
Numbers written in digits, most significant digit first. -/

namespace TreeReplica

namespace Numeral

/-- The value of a digit in a base of at most sixteen. -/
def digit? (base : Nat) (c : Char) : Option Nat :=
  let value :=
    if c.isDigit then some (c.toNat - '0'.toNat)
    else if 'a' ≤ c ∧ c ≤ 'f' then some (c.toNat - 'a'.toNat + 10)
    else if 'A' ≤ c ∧ c ≤ 'F' then some (c.toNat - 'A'.toNat + 10)
    else none
  value.filter (· < base)

/-- The number that digits behind a number make with it. -/
def extend? (base : Nat) (cs : List Char) (n : Nat) : Option Nat :=
  cs.foldlM (fun n c => (digit? base c).map (n * base + ·)) n

/-- The number whose digits these are; no digits make zero. -/
def digits? (base : Nat) (cs : List Char) : Option Nat := extend? base cs 0

end Numeral

end TreeReplica
