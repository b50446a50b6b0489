import TreeReplica.Queue
import TreeReplica.Session
import TreeReplica.Wire.Frame

/-!
One connection of a node. Three activities share the work: the reader takes frames from what has
arrived and hands messages on, the worker answers them in order, and the writer sends the answers.
`Connection.step` is one move of one of them, in any order; `Connection.settle` moves them until none
has anything left to do. -/

namespace TreeReplica

/-- What the reader hands to the worker. -/
inductive Job
  | inbound (m : Message)
  /-- A notice of a local edit. -/
  | notice (n : NewVersion)
  deriving DecidableEq, Repr

structure Connection where
  /-- Bytes that have arrived and are not part of a frame that was taken. -/
  buffer : Bytes
  /-- Whether the reader still takes frames. -/
  reading : Bool
  queue : Queue Job
  /-- The worker's session; none once the worker has stopped. -/
  session : Option Session
  /-- Answers that are not sent yet. -/
  replies : List Message
  /-- Answers that were sent. -/
  sent : List Message
  deriving Repr

namespace Connection

def new : Connection := ⟨[], true, .new, some .new, [], []⟩

/-- Nothing more will be sent. -/
def ended (c : Connection) : Bool := !c.reading && c.session.isNone && c.replies.isEmpty

/-- The reader stops; the worker still answers what it was handed. -/
def stopReading (c : Connection) : Connection :=
  { c with reading := false, queue := c.queue.dropProducer }

/-- The worker stops: its session ends, and what it was handed is lost. -/
def stopWorking (c : Connection) (s : Session) (v : Volume) : Connection × Volume :=
  ({ c with session := none, queue := c.queue.dropConsumer }, s.close v)

/-- Hands a job to the worker; without a worker the reader stops. -/
def hand (c : Connection) (job : Job) : Connection :=
  match c.queue.enqueue job with
  | (true, queue) => { c with queue := queue }
  | (false, _) => c.stopReading

def arrive (c : Connection) (bytes : Bytes) : Connection :=
  if c.reading then { c with buffer := c.buffer ++ bytes } else c

/-- The reader takes one frame, if there is one. What is not a frame ends the reading. -/
def readFrame (u : Setup) (c : Connection) : Connection :=
  if c.reading then
    match Frame.take u.config.maxMessageSize c.buffer with
    | .incomplete => c
    | .refused _ => c.stopReading
    | .frame (.error _) rest => { c with buffer := rest }.stopReading
    | .frame (.ok m) rest => { c with buffer := rest }.hand (.inbound m)
  else c

/-- Whether the reader waits for more: it reads, and no frame is left to take. Only then does it look
    for anything else than frames. -/
def waiting (u : Setup) (c : Connection) : Bool :=
  c.reading &&
    match Frame.take u.config.maxMessageSize c.buffer with
    | .incomplete => true
    | _ => false

/-- The reader sees the end of the stream, or that the worker has stopped, or that the node stops. -/
def hangUp (u : Setup) (c : Connection) : Connection := if c.waiting u then c.stopReading else c

/-- The reader hears of a local edit. -/
def hear (u : Setup) (n : NewVersion) (c : Connection) : Connection :=
  if c.waiting u then c.hand (.notice n) else c

def answer (u : Setup) (job : Job) (s : Session) (v : Volume) :
    Except Fault Answer × Session × Volume :=
  match job with
  | .inbound m => s.answer u m v
  | .notice n => (.ok (s.forward u n), s, v)

/-- The worker answers one job. It stops at a failure, when the session says so, and when there is
    nothing left to answer. -/
def work (u : Setup) (c : Connection) (v : Volume) : Connection × Volume :=
  match c.session with
  | none => (c, v)
  | some s =>
    match c.queue.dequeue with
    | (none, _) => if c.queue.producer then (c, v) else c.stopWorking s v
    | (some job, queue) =>
      match answer u job s v with
      | (.error _, s, v) => { c with queue := queue }.stopWorking s v
      | (.ok d, s, v) =>
        let c := { c with queue := queue, session := some s, replies := c.replies ++ d.replies }
        if d.ends then c.stopWorking s v else (c, v)

def write (c : Connection) : Connection :=
  match c.replies with
  | [] => c
  | m :: rest => { c with replies := rest, sent := c.sent ++ [m] }

inductive Move
  | arrive (bytes : Bytes)
  | hangUp
  | notice (n : NewVersion)
  | readFrame
  | work
  | write
  deriving DecidableEq, Repr

def step (u : Setup) (m : Move) (c : Connection) (v : Volume) : Connection × Volume :=
  match m with
  | .arrive bytes => (c.arrive bytes, v)
  | .hangUp => (c.hangUp u, v)
  | .notice n => (c.hear u n, v)
  | .readFrame => (c.readFrame u, v)
  | .work => c.work u v
  | .write => (c.write, v)

def steps (u : Setup) : List Move → Connection → Volume → Connection × Volume
  | [], c, v => (c, v)
  | m :: ms, c, v =>
    let (c, v) := c.step u m v
    steps u ms c v

/-! ### Until nothing is left to do -/

/-- The reader takes all whole frames. -/
def readAll (u : Setup) (c : Connection) : Connection :=
  if c.reading then
    let (ms, e, rest) := Frame.takeAll u.config.maxMessageSize c.buffer
    let c := ms.foldl (fun c m => c.hand (.inbound m)) { c with buffer := rest }
    if e.isSome then c.stopReading else c
  else c

/-- The worker answers everything that it was handed. -/
def workAll (u : Setup) (c : Connection) (v : Volume) : Connection × Volume :=
  (List.range (c.queue.items.length + 1)).foldl (fun (c, v) _ => c.work u v) (c, v)

/-- The writer sends all answers. -/
def writeAll (c : Connection) : Connection := { c with replies := [], sent := c.sent ++ c.replies }

/-- Everything that can be done is done. A reader whose worker has stopped stops too. -/
def settle (u : Setup) (c : Connection) (v : Volume) : Connection × Volume :=
  let (c, v) := (c.readAll u).workAll u v
  let c := if c.session.isNone then c.stopReading else c
  (c.writeAll, v)

/-! ### Messages one after the other -/

/-- The answers of a session to some messages, up to the first that ends the connection. -/
def converse (u : Setup) : List Message → Session → Volume → List Message × Volume
  | [], s, v => ([], s.close v)
  | m :: ms, s, v =>
    match s.answer u m v with
    | (.error _, s, v) => ([], s.close v)
    | (.ok d, s, v) =>
      if d.ends then (d.replies, s.close v)
      else
        let (rest, v) := converse u ms s v
        (d.replies ++ rest, v)

end Connection

end TreeReplica
