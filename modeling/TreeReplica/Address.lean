import TreeReplica.Address.Host
import TreeReplica.Address.Name
import TreeReplica.Fault

/-!
Network addresses: a host and the number of a service on it, with a colon between them. -/

namespace TreeReplica

structure Address where
  host : Host
  number : Nat
  deriving DecidableEq, Repr

namespace Address

/-- The number of a service in digits. -/
def number? (cs : List Char) : Option Nat :=
  if cs = [] then none else (Numeral.digits? 10 cs).filter (· ≤ 65535)

/-- The number of a service: digits, which a plus sign may open. -/
def signedNumber? : List Char → Option Nat
  | '+' :: cs => number? cs
  | cs => number? cs

/-- Reads an address whose host is a long number in brackets. -/
def bracketed? : List Char → Option Address
  | '[' :: cs =>
    match cs.dropWhile (· ≠ ']') with
    | ']' :: ':' :: number => do
      return ⟨← Host.scoped? false (cs.takeWhile (· ≠ ']')), ← number? number⟩
    | _ => none
  | _ => none

/-- Reads an address. Without brackets the last colon counts, since a host may hold some of its own. -/
def parse (text : String) : Except IoCause Address :=
  match bracketed? text.toList with
  | some address => .ok address
  | none =>
    let reversed := text.toList.reverse
    match reversed.dropWhile (· ≠ ':') with
    | [] => .error .invalidAddress
    | _ :: host =>
      match signedNumber? (reversed.takeWhile (· ≠ ':')).reverse with
      | none => .error .invalidServiceNumber
      | some number => .ok ⟨.ofText (.ofList host.reverse), number⟩

/-- The number of a host. Of names only the machine's own is known; a name that nobody can be asked
    for is no name. -/
def lookUp : Host → Except IoCause Host
  | .named name =>
    if '\x00' ∈ name.toList then .error .nulInPath
    else if name.toLower = HostName.own then .ok .loopback
    else if HostName.askable name then .error .unresolvedHost
    else .error .unknownHost
  | host => .ok host

def resolve (text : String) : Except IoCause Address := do
  let address ← parse text
  return { address with host := ← lookUp address.host }

end Address

end TreeReplica
