import TreeReplica.Numeral
import TreeReplica.Pieces

/-!
Hosts: by their number, in one of its two lengths, or by a name. A text that is no number is a name. A
long number may say which local network it belongs to. -/

namespace TreeReplica

inductive Host
  /-- A number of 32 bits. -/
  | short (number : Nat)
  /-- Eight groups of 16 bits, and the number of the local network that it belongs to, if it is not 0. -/
  | long (groups : List Nat) (scope : Nat)
  | named (name : String)
  deriving DecidableEq, Repr

namespace Host

/-! ### Short numbers -/

/-- A number in base sixteen after `0x`, in base eight after another zero, or else in base ten. -/
def part? (cs : List Char) : Option Nat :=
  match cs with
  | [] => none
  | '0' :: 'x' :: rest | '0' :: 'X' :: rest => if rest = [] then none else Numeral.digits? 16 rest
  | '0' :: rest => Numeral.digits? 8 rest
  | _ => Numeral.digits? 10 cs

/-- Puts one to four parts together. Each stands for one byte, but the last for all that are left. -/
def assemble? : Nat → List Nat → Option Nat
  | _, [] => none
  | bytes, [last] => if last < Nat.pow 256 bytes then some last else none
  | 0, _ => none
  | bytes + 1, part :: parts =>
    if part < 256 ∧ 0 < bytes then (assemble? bytes parts).map (part * Nat.pow 256 bytes + ·) else none

def short? (cs : List Char) : Option Nat := do assemble? 4 (← (pieces '.' cs).mapM part?)

/-! ### Long numbers -/

/-- One byte in base ten, without needless zeros. -/
def byte? (cs : List Char) : Option Nat :=
  if cs = [] ∨ (cs.head? = some '0' ∧ cs.length > 1) then none
  else (Numeral.digits? 10 cs).filter (· < 256)

/-- Two groups that are written as four bytes. -/
def dotted? (cs : List Char) : Option (List Nat) := do
  match ← (pieces '.' cs).mapM byte? with
  | [a, b, c, d] => some [a * 256 + b, c * 256 + d]
  | _ => none

def group? (cs : List Char) : Option Nat :=
  if cs = [] ∨ cs.length > 4 then none else Numeral.digits? 16 cs

/-- Groups; with `final` the last two may be written as four bytes. -/
def groups? (final : Bool) : List (List Char) → Option (List Nat)
  | [] => some []
  | [cs] => ((group? cs).map ([·])) <|> (if final then dotted? cs else none)
  | cs :: rest => do return (← group? cs) :: (← groups? final rest)

/-- Groups between colons; no text has none. -/
def run? (final : Bool) (cs : List Char) : Option (List Nat) :=
  if cs = [] then some [] else groups? final (pieces ':' cs)

/-- The text before the first two colons in a row, and the text behind them. -/
def gap? : List Char → Option (List Char × List Char)
  | ':' :: ':' :: rest => some ([], rest)
  | c :: rest => (gap? rest).map fun (front, back) => (c :: front, back)
  | [] => none

/-- A long number. Two colons in a row stand for all the groups that are missing, one at least. -/
def long? (cs : List Char) : Option (List Nat) := do
  match gap? cs with
  | none => (groups? true (pieces ':' cs)).filter (·.length = 8)
  | some (front, back) =>
    let front ← run? false front
    let back ← run? true back
    let missing := 8 - (front.length + back.length)
    if missing = 0 then none else some (front ++ List.replicate missing 0 ++ back)

/-! ### Scopes -/

/-- A number that all neighbours on a local network may have, each on its own. -/
def nearby (groups : List Nat) : Bool := groups.head?.any (· / 64 = 0xfe80 / 64)

/-- A number of a group of machines. -/
def multicast (groups : List Nat) : Bool := groups.head?.any (· / 256 = 0xff)

/-- A number that means something on one machine or one local network only. -/
def confined (groups : List Nat) : Bool :=
  nearby groups || (multicast groups && groups.head?.any fun n => n % 16 = 1 || n % 16 = 2)

/-- The number of the local network that a machine is on by itself. -/
def ownScope : Nat := 1

/-- The names of that local network: with a colon behind it, more may follow, up to 15 bytes. -/
def namesOwnScope (cs : List Char) : Bool :=
  cs.takeWhile (· ≠ ':') = "lo".toList && (String.ofList cs).utf8ByteSize ≤ 15

/-- The number of a local network, in digits. -/
def scope? (cs : List Char) : Option Nat :=
  if cs = [] then none else (Numeral.digits? 10 cs).filter (· < UInt32.size)

/-- A long number, with the local network that it belongs to behind a percent sign: by its number, or
    by its name, if `names` allows that and the number is confined to one network. -/
def scoped? (names : Bool) (cs : List Char) : Option Host :=
  match pieces '%' cs with
  | [number] => (long? number).map (.long · 0)
  | [number, scope] => do
    let groups ← long? number
    if names && confined groups && namesOwnScope scope then return .long groups ownScope
    else return .long groups (← scope? scope)
  | _ => none

/-! ### Hosts -/

def ofText (text : String) : Host :=
  match short? text.toList, scoped? true text.toList with
  | some number, _ => .short number
  | none, some host => host
  | none, none => .named text

/-- The number that a machine has for itself. -/
def loopback : Host := .short 0x7f000001

/-- The short number for a long one that only wraps it. -/
def unwrapped : Host → Host
  | .long [a, b, c, d, e, f, high, low] scope =>
    if [a, b, c, d, e, f] = [0, 0, 0, 0, 0, 0xffff] then .short (high * UInt16.size + low)
    else .long [a, b, c, d, e, f, high, low] scope
  | host => host

/-- Whether who listens on one host hears what is sent to another. Nothing but zeros stands for all the
    numbers that a machine has, in short form for the short ones. -/
def hears : Host → Host → Bool
  | .short 0, .short _ => true
  | .long groups scope, host => groups.all (· = 0) || Host.long groups scope = host
  | host, other => host = other

end Host

end TreeReplica
