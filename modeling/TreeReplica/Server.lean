import TreeReplica.Notice.Hub
import TreeReplica.LocalEdit
import TreeReplica.Connection
import TreeReplica.Server.Handlers

/-!
A serving node: connections are admitted as long as there are free handlers, each with a session of its
own, and all of them hear of local edits. A connection that comes when no handler is free is told so
and ends. -/

namespace TreeReplica

/-- What the peer of a connection can still read. -/
structure Link where
  /-- None for a connection that was refused, or that is over. -/
  connection : Option Connection
  inbox : List Message
  deriving Repr

structure Server where
  handlers : Handlers
  links : Table String Link
  deriving Repr

namespace Server

def new (c : Config) : Server := ⟨.new c.maxConnections.toNat, .empty⟩

/-- The refusal of a connection for which no handler is free. -/
def atCapacity : Message := .nack (.fitted .busy "" "server at capacity")

/-- A peer connects; the first part says whether it is served. -/
def connect (s : Server) (name : String) : Bool × Server :=
  match s.handlers.lend name with
  | (none, _) => (false, { s with links := s.links.insert name ⟨none, [atCapacity]⟩ })
  | (some h, handlers) =>
    (true, ⟨handlers, s.links.insert name ⟨some { Connection.new with buffer := h.buffer }, []⟩⟩)

/-- Lets a connection do all it can. What it leaves of the bytes it received stays in its handler,
    which is free again when the connection is over. -/
def run (u : Setup) (name : String) (f : Connection → Connection) (s : Server) (v : Volume) :
    Server × Volume :=
  match s.links.get? name with
  | none => (s, v)
  | some ⟨none, _⟩ => (s, v)
  | some ⟨some c, inbox⟩ =>
    let (c, v) := (f c).settle u v
    let link := ⟨if c.ended then none else some { c with sent := [] }, inbox ++ c.sent⟩
    let handlers := s.handlers.hold name c.buffer
    (⟨if c.ended then handlers.takeBack name else handlers, s.links.insert name link⟩, v)

/-- Bytes of a peer arrive. -/
def deliver (u : Setup) (name : String) (bytes : Bytes) (s : Server) (v : Volume) : Server × Volume :=
  s.run u name (·.arrive bytes) v

/-- The peer ends its side. The frames that have arrived are still answered. -/
def hangUp (u : Setup) (name : String) (s : Server) (v : Volume) : Server × Volume :=
  s.run u name (fun c => (c.readAll u).hangUp u) v

/-- All connections hear of a local edit. -/
def publish (u : Setup) (notice : NewVersion) (s : Server) (v : Volume) : Server × Volume :=
  s.links.keys.foldl
    (fun (s, v) name => s.run u name (·.hear u notice) v) (s, v)

/-- The server stops; open connections end. -/
def shutdown (u : Setup) (s : Server) (v : Volume) : Server × Volume :=
  s.links.keys.foldl (fun (s, v) name => s.hangUp u name v) (s, v)

/-- The next message that a peer can read; the end of the stream counts as closed. The answer is none
    while nothing has come. -/
def receive (s : Server) (name : String) : Option (Except Fault Message) × Server :=
  match s.links.get? name with
  | none => (some (.error .connectionClosed), s)
  | some ⟨_, m :: inbox⟩ =>
    (some (.ok m), { s with links := s.links.update name fun link => { link with inbox := inbox } })
  | some ⟨none, []⟩ => (some (.error .connectionClosed), s)
  | some ⟨some _, []⟩ => (none, s)

def receiveAll (s : Server) (name : String) : List Message × Server :=
  ((s.links.get? name).elim [] (·.inbox),
    { s with links := s.links.update name fun link => { link with inbox := [] } })

end Server

end TreeReplica
