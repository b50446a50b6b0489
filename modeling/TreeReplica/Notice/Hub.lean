import TreeReplica.Table
import TreeReplica.Wire.Message

/-!
The hub: every notice that is published goes to all receivers, which read at their own pace. The hub
keeps the last `capacity` notices; a receiver that falls behind further is told how many it lost. -/

namespace TreeReplica

structure Hub where
  /-- How many notices were ever published. -/
  published : Nat
  /-- The last of them, oldest first. -/
  kept : List NewVersion
  /-- How many notices each receiver has read or lost, by its name. -/
  receivers : Table String Nat
  deriving Repr

/-- What a receiver finds. -/
inductive Received
  | nothing
  | lagged (lost : Nat)
  | notice (notice : NewVersion)
  deriving DecidableEq, Repr

namespace Hub

/-- How many notices are kept for receivers that are behind. -/
def capacity : Nat := 1024

def empty : Hub := ⟨0, [], .empty⟩

instance : Inhabited Hub := ⟨empty⟩

def receiverCount (h : Hub) : Nat := h.receivers.size

/-- A receiver hears of what is published from now on. -/
def subscribe (h : Hub) (name : String) : Hub :=
  { h with receivers := h.receivers.insert name h.published }

def unsubscribe (h : Hub) (name : String) : Hub := { h with receivers := h.receivers.erase name }

/-- Publishes a notice: the number of receivers that get it. It is lost if nobody listens. -/
def publish (notice : NewVersion) (h : Hub) : Nat × Hub :=
  if h.receivers.isEmpty then (0, h)
  else
    let kept := h.kept ++ [notice]
    (h.receiverCount,
      { h with published := h.published + 1, kept := kept.drop (kept.length - capacity) })

/-- Takes the next notice of a receiver. -/
def receive (h : Hub) (name : String) : Received × Hub :=
  match h.receivers.get? name with
  | none => (.nothing, h)
  | some next =>
    let oldest := h.published - h.kept.length
    if next < oldest then (.lagged (oldest - next), { h with receivers := h.receivers.insert name oldest })
    else
      match h.kept[next - oldest]? with
      | none => (.nothing, h)
      | some notice => (.notice notice, { h with receivers := h.receivers.insert name (next + 1) })

end Hub

end TreeReplica
