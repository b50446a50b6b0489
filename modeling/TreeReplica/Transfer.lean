import TreeReplica.Store
import TreeReplica.Transfer.Ranges
import TreeReplica.Wire.Message

/-!
Incoming transfers: content that is pulled from a peer, chunk by chunk, into a staging file beside its
target. The staging file takes the target's place only once every byte has arrived. -/

namespace TreeReplica

/-- Why content is pulled. -/
inductive Pull
  /-- The peer edited the base that both sides agree on; accepting its edits makes a new base. -/
  | peerEdit (base : UInt64)
  /-- The peer's base is ahead; its content is taken over as it is. -/
  | catchUp (remote : UInt64)
  deriving DecidableEq, Repr

structure Transfer where
  path : String
  pull : Pull
  /-- The edit count that was announced; only chunks of this count are accepted. -/
  client : UInt64
  /-- The announced length of the file. -/
  size : UInt64
  /-- The offsets that have arrived. -/
  received : Ranges
  /-- The ends of the ranges that were asked for, by their starts. -/
  outstanding : Table Nat Nat
  staging : Handle
  deriving DecidableEq, Repr

namespace Transfer

/-- Starts a transfer of announced content. A staging file that cannot take the announced length is
    removed again. -/
def begin (s : Store) (notice : NewVersion) (pull : Pull) (v : Volume) :
    Except Fault Transfer × Volume :=
  match s.resolve notice.path with
  | .error e => (.error e, v)
  | .ok file =>
    match v.createDirectories (Path.parent file) with
    | (.error e, v) => (.error (.io e), v)
    | (.ok (), v) =>
      match v.createStaging (Path.parent file) ((Path.fileName? file).getD "") with
      | (.error e, v) => (.error (.io e), v)
      | (.ok staging, v) =>
        match v.resize staging notice.size.toNat with
        | (.error e, v) => (.error (.io e), v.discard staging)
        | (.ok (), v) =>
          (.ok ⟨notice.path, pull, notice.client, notice.size, [], .empty, staging⟩, v)

/-- Gives a transfer up: its staging file goes. -/
def abandon (t : Transfer) (v : Volume) : Volume := v.discard t.staging

/-- The request for the range from `start` up to `stop`. -/
def requestFor (t : Transfer) (start stop : Nat) : ChunkRequest :=
  ⟨t.path, t.client, .ofNat start, .ofNat (stop - start)⟩

/-- Notes that the range from `start` up to `stop` was asked for. -/
def ask (t : Transfer) (start stop : Nat) : Transfer :=
  { t with outstanding := t.outstanding.insert start stop }

/-- The ranges of `step` bytes, and a shorter one at the end, that make up the offsets below `size`. -/
def spans (step size : Nat) : List (Nat × Nat) :=
  (List.range ((size + step - 1) / step)).map fun i => (i * step, min (i * step + step) size)

/-- Asks for the whole file in chunks of at most `chunkSize` bytes. -/
def requests (t : Transfer) (chunkSize : UInt32) : List ChunkRequest × Transfer :=
  let parts := spans (max chunkSize.toNat 1) t.size.toNat
  (parts.map fun (start, stop) => t.requestFor start stop,
   parts.foldl (fun t (start, stop) => t.ask start stop) t)

def complete (t : Transfer) : Bool := t.received.full t.size.toNat

/-- The end of a chunk, as far as 64 bits can say it. -/
def stopOf (chunk : FileChunk) : Nat := min (chunk.offset.toNat + chunk.data.length) (UInt64.size - 1)

/-- Why a chunk does not belong to a transfer, if it does not. -/
def fault? (t : Transfer) (chunk : FileChunk) : Option Fault :=
  if chunk.client ≠ t.client then some (.stale (.otherVersion t.path chunk.client t.client))
  else if stopOf chunk > t.size.toNat then
    some (.malformed (.chunkPastEnd chunk.offset.toNat (stopOf chunk) t.size.toNat t.path))
  else none

/-- Notes that a chunk has arrived. When it is shorter than the request that it answers, the rest of
    that range is asked for. -/
def note (t : Transfer) (chunk : FileChunk) : Option ChunkRequest × Transfer :=
  let start := chunk.offset.toNat
  let stop := stopOf chunk
  let t := { t with received := t.received.cover start stop }
  match t.outstanding.get? start with
  | none => (none, t)
  | some requested =>
    let t := { t with outstanding := t.outstanding.erase start }
    if chunk.data = [] ∨ stop ≥ requested then (none, t)
    else (some (t.requestFor stop requested), t.ask stop requested)

/-- Takes one chunk: its bytes go to their place in the staging file, also when they were there
    before. -/
def write (t : Transfer) (chunk : FileChunk) (v : Volume) :
    Except Fault (Option ChunkRequest × Transfer) × Volume :=
  match t.fault? chunk with
  | some e => (.error e, v)
  | none => (.ok (t.note chunk), v.modify t.staging (·.write chunk.offset.toNat chunk.data))

/-- Puts the staging file in the place of the tracked file. If that fails the staging file goes. -/
def install (t : Transfer) (file : String) (v : Volume) : Except Fault Unit × Volume :=
  match v.move t.staging file with
  | (.ok (), v) => (.ok (), v)
  | (.error e, v) => (.error (.io e), t.abandon v)

/-- Puts the staging file in the place of a tracked path, under the lease of its record. If the lease or
    the place cannot be had the staging file goes. -/
def installAt (s : Store) (path : String) (t : Transfer) (v : Volume) : Except Fault Unit × Volume :=
  let body : Store.Body Unit := fun lease v =>
    let (done, v) := t.install lease.file v
    (done, lease.record, v)
  match s.withLease path body v with
  | (.ok (), v) => (.ok (), v)
  | (.error e, v) => (.error e, t.abandon v)

end Transfer

/-- The transfers of one connection, by path. -/
abbrev Transfers := Table String Transfer

namespace Transfers

/-- Ends the transfer of a path, if there is one. -/
def drop (ts : Transfers) (path : String) (v : Volume) : Transfers × Volume :=
  match ts.get? path with
  | some t => (ts.erase path, t.abandon v)
  | none => (ts, v)

/-- Adds a transfer; an earlier one of the same path ends. -/
def add (ts : Transfers) (t : Transfer) (v : Volume) : Transfers × Volume :=
  let (ts, v) := drop ts t.path v
  (ts.insert t.path t, v)

def abandonAll (ts : Transfers) (v : Volume) : Volume := ts.values.foldl (fun v t => t.abandon v) v

end Transfers

end TreeReplica
