import TreeReplica.Bytes
import TreeReplica.Table

/-!
Handlers of connections. There are as many as connections may be served at once, and all of them are
made at the start. A borrower takes one by name and gives it back; it comes back with an empty buffer.
Each handler has a flag that says whether it is taken, which is checked whenever it changes hands. -/

namespace TreeReplica

/-- What outlives the connections that a handler serves. -/
structure Handler where
  id : Nat
  /-- How many connections it has served, the current one included. -/
  served : UInt64
  /-- Bytes received that are not a whole frame yet. -/
  buffer : Bytes
  deriving DecidableEq, Repr

/-- A flag that was not as it should be when a handler changed hands. -/
inductive Misuse
  | takenTwice (id : Nat)
  /-- It came back without being taken. -/
  | notTaken (id : Nat)
  deriving DecidableEq, Repr

/-- All handlers of a server, free and lent. -/
structure Handlers where
  capacity : Nat
  /-- The handlers that are free; the next one to be taken comes first. -/
  free : List Handler
  /-- Whether a handler is taken, by its number. -/
  inUse : List Bool
  /-- The handlers that are taken, by borrower. -/
  lent : Table String Handler
  /-- The last check of a flag that failed; what was to be done was given up, and the handler is lost. -/
  misuse : Option Misuse
  deriving Repr

namespace Handlers

def new (capacity : Nat) : Handlers :=
  ⟨capacity, (List.range capacity).map fun id => ⟨id, 0, []⟩, List.replicate capacity false, .empty, none⟩

def available (hs : Handlers) : Nat := hs.free.length

/-- How many connections are being served. -/
def busy (hs : Handlers) : Nat := hs.capacity - hs.available

/-- Takes the next free handler, if there is one. -/
def checkOut (hs : Handlers) : Option Handler × Handlers :=
  match hs.free with
  | [] => (none, hs)
  | h :: free =>
    if hs.inUse[h.id]? = some false then
      (some { h with served := h.served + 1 }, { hs with free := free, inUse := hs.inUse.set h.id true })
    else (none, { hs with free := free, misuse := some (.takenTwice h.id) })

/-- Puts a handler back, without what it had received. -/
def giveBack (hs : Handlers) (h : Handler) : Handlers :=
  if hs.inUse[h.id]? = some true then
    { hs with free := { h with buffer := [] } :: hs.free, inUse := hs.inUse.set h.id false }
  else { hs with misuse := some (.notTaken h.id) }

/-- Takes the handler of a borrower back. -/
def takeBack (hs : Handlers) (name : String) : Handlers :=
  match hs.lent.get? name with
  | none => hs
  | some h => { hs with lent := hs.lent.erase name }.giveBack h

/-- Lends a free handler, if there is one. A handler that the borrower still has goes back after
    that. -/
def lend (hs : Handlers) (name : String) : Option Handler × Handlers :=
  match hs.checkOut with
  | (none, hs) => (none, hs)
  | (some h, hs) =>
    let hs := hs.takeBack name
    (some h, { hs with lent := hs.lent.insert name h })

/-- Adds received bytes to the buffer of a borrower's handler. -/
def fill (hs : Handlers) (name : String) (bytes : Bytes) : Handlers :=
  { hs with lent := hs.lent.update name fun h => { h with buffer := h.buffer ++ bytes } }

/-- Sets what the buffer of a borrower's handler holds. -/
def hold (hs : Handlers) (name : String) (buffer : Bytes) : Handlers :=
  { hs with lent := hs.lent.update name fun h => { h with buffer := buffer } }

end Handlers

end TreeReplica
