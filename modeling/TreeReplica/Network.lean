import TreeReplica.Address

/-!
A machine on no network but its own, and that one is down: what comes of dialling an address, and of
listening on one. Main statement: `listen_eq_ok_iff` says which addresses can be listened on. -/

namespace TreeReplica

structure Network where
  /-- The addresses that are listened on. -/
  taken : List Address
  deriving Repr

namespace Network

/-- Why a host cannot be dialled: no way leads to short numbers and to groups of machines, and to the
    other long ones no answer could come back. -/
def unreached (host : Host) : IoCause :=
  match host.unwrapped with
  | .long groups scope =>
    if Host.multicast groups then .networkUnreachable
    else if Host.nearby groups && scope = 0 then .invalidArgument
    else .addressUnavailable
  | _ => .networkUnreachable

/-- Whether listening on both addresses is one too many. -/
def clash (a b : Address) : Bool :=
  let (x, y) := (a.host.unwrapped, b.host.unwrapped)
  a.number = b.number && (x.hears y || y.hears x)

/-- Why a machine cannot take a host for itself. A short one it can always take, of long ones only the one
    that stands for all. -/
def untakeable? (host : Host) : Option IoCause :=
  match host.unwrapped with
  | .long groups scope =>
    if groups.all (· = 0) then none
    else if Host.multicast groups then some .invalidArgument
    else if Host.nearby groups && scope = 0 then some .invalidArgument
    else if Host.nearby groups && scope ≠ Host.ownScope then some .noDevice
    else some .addressUnavailable
  | _ => none

/-- Listens on an address. -/
def listen (network : Network) (address : Address) : Except IoCause Unit :=
  match untakeable? address.host with
  | some cause => .error cause
  | none => if network.taken.any (clash address) then .error .addressInUse else .ok ()

theorem listen_eq_ok_iff (network : Network) (address : Address) :
    network.listen address = .ok () ↔
      untakeable? address.host = none ∧ ∀ other ∈ network.taken, clash address other = false := by
  unfold listen
  cases untakeable? address.host with
  | some cause => simp
  | none => simp

end Network

end TreeReplica
