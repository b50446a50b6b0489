import TreeReplica.LocalEdit
import TreeReplica.Session

/-!
One node: what it serves, and a session for each peer. All that happens to a node's records and files
is an `Event`: a local edit, a message of a peer, or the end of a session. `Node.run` lets events
happen one after the other. -/

namespace TreeReplica

structure Node where
  setup : Setup
  /-- The sessions by the names of their connections. -/
  sessions : Table String Session

namespace Node

/-- A session begins with its first use. -/
def session (n : Node) (name : String) : Session := (n.sessions.get? name).getD .new

def setSession (n : Node) (name : String) (s : Session) : Node :=
  { n with sessions := n.sessions.insert name s }

def answer (name : String) (m : Message) (n : Node) (v : Volume) :
    Except Fault Answer × Node × Volume :=
  let (answer, s, v) := (n.session name).answer n.setup m v
  (answer, n.setSession name s, v)

/-- What the sessions send of a notice, as far as they send anything. -/
def forward (n : Node) (notice : NewVersion) : List (String × List Message) :=
  (n.sessions.entries.map fun (name, s) => (name, (s.forward n.setup notice).replies)).filter (·.2 ≠ [])

def close (name : String) (n : Node) (v : Volume) : Node × Volume :=
  ({ n with sessions := n.sessions.erase name }, (n.session name).close v)

def closeAll (n : Node) (v : Volume) : Node × Volume :=
  n.sessions.keys.foldl (fun (n, v) name => n.close name v) (n, v)

/-! ### Runs -/

inductive Event
  | edit (edit : LocalEdit) (path : String)
  | message (session : String) (m : Message)
  | close (session : String)
  deriving DecidableEq, Repr

def step (e : Event) (n : Node) (v : Volume) : Node × Volume :=
  match e with
  | .edit e path => (n, (e.report n.setup.store path v).2)
  | .message name m => (n.answer name m v).2
  | .close name => n.close name v

def run : List Event → Node → Volume → Node × Volume
  | [], n, v => (n, v)
  | e :: es, n, v =>
    let (n, v) := n.step e v
    run es n v

end Node

end TreeReplica
