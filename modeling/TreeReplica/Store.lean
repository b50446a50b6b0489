import TreeReplica.Volume

/-!
The store of version records. Each tracked path has its record in a file beside it, and all access to
a record goes through a lease, which holds the lock of that file. A lease writes its record back when
it ends, however it ends.

Nothing else happens while an operation waits for a lock, so waiting longer never helps: a lock that
is held when a lease is asked for is reported at once. -/

namespace TreeReplica

/-- A store of version records for the tree below `root`. -/
structure Store where
  root : String
  deriving DecidableEq, Repr

/-- Exclusive access to one version record. -/
structure Lease where
  /-- The tracked path below the root. -/
  path : String
  /-- The full text of the tracked file. -/
  file : String
  /-- The open file of the record. -/
  handle : Handle
  record : Record
  /-- The record as it was last written. -/
  written : Option Record
  /-- Whether the record came to be with this lease. -/
  fresh : Bool
  deriving DecidableEq, Repr

namespace Lease

/-- Writes the record if it differs from what was last written. -/
def persist (l : Lease) (v : Volume) : Lease × Volume :=
  if l.written = some l.record then (l, v)
  else ({ l with written := some l.record }, v.modify l.handle fun _ => .ofBytes l.record.encode)

/-- Ends a lease: the record is written and the lock is given back. -/
def release (l : Lease) (v : Volume) : Volume := (l.persist v).2.unlock l.handle

end Lease

/-- The record in the content of a record file; an empty file has none yet. -/
def Record.stored (content : Content) : Except RecordFault (Option Record) :=
  match content.toList with
  | [] => .ok none
  | bytes => (Record.decode bytes).map some

namespace Store

def resolve (s : Store) (path : String) : Except Fault String := Path.resolve s.root path

/-- Takes the lease of a record whose file is open and not locked. A record that cannot be read ends
    the lease at once, and the lease then writes the initial record. -/
def grant (path file : String) (h : Handle) (v : Volume) : Except Fault Lease × Volume :=
  let v := v.lock h
  let lease : Lease := ⟨path, file, h, .initial, none, false⟩
  match Record.stored ((v.read? h).getD .empty) with
  | .error fault => (.error (.recordIo (Path.sidecar file) (.record fault)), lease.release v)
  | .ok (some record) => (.ok { lease with record := record, written := some record }, v)
  | .ok none =>
    let (lease, v) := Lease.persist { lease with fresh := true } v
    (.ok lease, v)

/-- Takes the lease of a path's record, which is created if it is missing. -/
def acquire (s : Store) (path : String) (v : Volume) : Except Fault Lease × Volume :=
  match s.resolve path with
  | .error e => (.error e, v)
  | .ok file =>
    let sidecar := Path.sidecar file
    match v.createDirectories (Path.parent sidecar) with
    | (.error e, v) => (.error (.recordIo (Path.parent sidecar) e), v)
    | (.ok (), v) =>
      match v.openOrCreate sidecar with
      | (.error e, v) => (.error (.recordIo sidecar e), v)
      | (.ok h, v) => if v.isLocked h then (.error (.recordLocked sidecar), v) else grant path file h v

/-- Whether a path has a file or a record. -/
def tracked (s : Store) (path : String) (v : Volume) : Except Fault Bool :=
  (s.resolve path).map fun file => v.present file || v.present (Path.sidecar file)

/-- Takes the lease of a path that has a file or a record; otherwise nothing is created. -/
def acquireTracked (s : Store) (path : String) (v : Volume) : Except Fault (Option Lease) × Volume :=
  match s.tracked path v with
  | .error e => (.error e, v)
  | .ok false => (.ok none, v)
  | .ok true =>
    match s.acquire path v with
    | (.error e, v) => (.error e, v)
    | (.ok lease, v) => (.ok (some lease), v)

/-- What is done under a lease: an answer or a failure, and in either case the record and the volume
    as they are then. -/
abbrev Body (α : Type) := Lease → Volume → Except Fault α × Record × Volume

/-- Does something under a lease that is held, and ends the lease. -/
def during (lease : Lease) (body : Body α) (v : Volume) : Except Fault α × Volume :=
  match body lease v with
  | (answer, record, v) => (answer, Lease.release { lease with record := record } v)

def withLease (s : Store) (path : String) (body : Body α) (v : Volume) : Except Fault α × Volume :=
  match s.acquire path v with
  | (.error e, v) => (.error e, v)
  | (.ok lease, v) => during lease body v

/-- Does something under the lease of a path that has a file or a record. -/
def withTracked (s : Store) (path : String) (body : Body α) (v : Volume) :
    Except Fault (Option α) × Volume :=
  match s.acquireTracked path v with
  | (.error e, v) => (.error e, v)
  | (.ok none, v) => (.ok none, v)
  | (.ok (some lease), v) =>
    match during lease body v with
    | (.error e, v) => (.error e, v)
    | (.ok a, v) => (.ok (some a), v)

/-- Reads a record without creating it. -/
def inspect (s : Store) (path : String) (v : Volume) : Except Fault (Option Record) :=
  match s.resolve path with
  | .error e => .error e
  | .ok file =>
    let sidecar := Path.sidecar file
    match v.find sidecar with
    | .error .notFound => .ok none
    | .error e => .error (.recordIo sidecar e)
    | .ok (_, .directory) => .error (.recordIo sidecar .isDirectory)
    | .ok (location, .file id content) =>
      if v.isLocked ⟨location, id⟩ then .error (.recordLocked sidecar)
      else
        match Record.stored content with
        | .error fault => .error (.recordIo sidecar (.record fault))
        | .ok record => .ok record

/-- What the record file beside a path holds, whoever holds its lease; none without such a file. -/
def recorded? (s : Store) (path : String) (v : Volume) : Option (Except RecordFault Record) :=
  match s.resolve path with
  | .error _ => none
  | .ok file =>
    match v.find (Path.sidecar file) with
    | .ok (_, .file _ content) => some (Record.decode content.toList)
    | _ => none

/-! ### Chunks -/

/-- The bytes of a file from `offset` on, at most `size` of them. Bytes are read through whole pages, and
    no page may end past the greatest length of a file. -/
def readBytes (v : Volume) (file : String) (offset : UInt64) (size : UInt32) : Except Fault Bytes :=
  match v.find file with
  | .error e => .error (.chunkRead file e)
  | .ok (_, .directory) =>
    if size = 0 ∨ offset.toNat ≥ Volume.directorySize then .ok [] else .error (.chunkRead file .noDevice)
  | .ok (_, .file _ content) =>
    let stop := min (offset.toNat + size.toNat) content.size
    if offset.toNat < stop ∧ stop > Volume.lastPage then .error (.chunkRead file .valueTooLarge)
    else .ok (content.slice offset.toNat (offset.toNat + size.toNat))

/-- The failure to read from a path that has neither a file nor a record. -/
def untracked (s : Store) (path : String) : Fault := .chunkRead (Path.join s.root path) .notTracked

/-- The bytes of a tracked file from `offset` on, with the edit count that they belong to. -/
def readChunk (s : Store) (path : String) (offset : UInt64) (size : UInt32) (v : Volume) :
    Except Fault (UInt64 × Bytes) × Volume :=
  let body : Body (UInt64 × Bytes) := fun lease v =>
    ((readBytes v lease.file offset size).map (lease.record.client, ·), lease.record, v)
  match s.withTracked path body v with
  | (.error e, v) => (.error e, v)
  | (.ok none, v) => (.error (s.untracked path), v)
  | (.ok (some chunk), v) => (.ok chunk, v)

end Store

end TreeReplica
