import TreeReplica.Transfer

/-!
Reconciliation: what announcements, chunk requests, chunks and commits of peers do to records and
files. Each message is handled under one lease of its path. The decisions are functions of the record
alone (`plan`, `Transfer.settle`); the handlers carry them out. -/

namespace TreeReplica

/-- What a node does about an announcement. -/
inductive Plan
  | refuse (why : Staleness)
  | ignore
  /-- Both sides edited the same base. -/
  | clash
  | pull (pull : Pull)
  deriving DecidableEq, Repr

/-- What the owner of record `r` does about an announcement. -/
def Record.plan (r : Record) (notice : NewVersion) : Plan :=
  match r.observation notice.base with
  | .outdated => .refuse (.announced notice.path notice.base r.base)
  | .ignored | .conflict => .ignore
  | .stale => .pull (.catchUp notice.base)
  | .sameBase =>
    if notice.client = 0 then .ignore else if r.pending then .clash else .pull (.peerEdit notice.base)

/-- The record after an announcement, before any content has arrived. -/
def Record.announced (r : Record) (notice : NewVersion) : Record :=
  match r.plan notice with
  | .clash => r.clash
  | _ => r.observe notice.base

namespace Transfer

/-- The record and the replies once the content of a transfer is in place, or why it is not wanted any
    more. -/
def settle (t : Transfer) (r : Record) : Except Staleness (Record × List Message) :=
  match t.pull with
  | .peerEdit base =>
    if r.base ≠ base ∨ r.pending ∨ r.state.terminal then .error (.changed t.path r)
    else .ok (r.adoptEdits, [.commit t.path ⟨base, r.adoptEdits.base, t.client⟩])
  | .catchUp remote =>
    if r.state ≠ .stale ∨ remote ≤ r.base then .error (.unneeded t.path remote r)
    else .ok (r.catchUp remote, [])

/-- Ends a complete transfer under the lease of its path: the content is put in place, or dropped. -/
def finish (t : Transfer) (file : String) (r : Record) (v : Volume) :
    Except Fault (List Message) × Record × Volume :=
  match t.settle r with
  | .error why => (.error (.stale why), r, t.abandon v)
  | .ok (record, replies) =>
    match t.install file v with
    | (.error e, v) => (.error e, r, v)
    | (.ok (), v) => (.ok replies, record, v)

end Transfer

namespace Store

/-- Starts to pull announced content under a lease whose record is `r`. Content of no bytes is put in
    place at once; otherwise the whole file is asked for. -/
def pull (s : Store) (chunkSize : UInt32) (notice : NewVersion) (p : Pull) (file : String) (r : Record)
    (v : Volume) : Except Fault (List Message × Option Transfer) × Record × Volume :=
  match Transfer.begin s notice p v with
  | (.error e, v) => (.error e, r, v)
  | (.ok t, v) =>
    if t.complete then
      match t.finish file r v with
      | (.error e, r, v) => (.error e, r, v)
      | (.ok replies, r, v) => (.ok (replies, none), r, v)
    else
      let (requests, t) := t.requests chunkSize
      (.ok (requests.map .requestChunk, some t), r, v)

/-- Handles a peer's announcement: the requests or the commit that answer it, and the transfers as
    they are then. -/
def announced (s : Store) (chunkSize : UInt32) (notice : NewVersion) (ts : Transfers) (v : Volume) :
    Except Fault (List Message) × Transfers × Volume :=
  let body : Body (List Message × Option Transfer) := fun lease v =>
    let r := lease.record.announced notice
    match lease.record.plan notice with
    | .refuse why => (.error (.stale why), r, v)
    | .ignore | .clash => (.ok ([], none), r, v)
    | .pull p => s.pull chunkSize notice p lease.file r v
  match s.withLease notice.path body v with
  | (.error e, v) => (.error e, ts, v)
  | (.ok (replies, none), v) => (.ok replies, ts, v)
  | (.ok (replies, some t), v) =>
    let (ts, v) := ts.add t v
    (.ok replies, ts, v)

/-- Serves a chunk of at most `chunkSize` bytes. A request at another edit count than the record's is
    answered without bytes. -/
def serveChunk (s : Store) (chunkSize : UInt32) (request : ChunkRequest) (v : Volume) :
    Except Fault Message × Volume :=
  let body : Body Message := fun lease v =>
    let client := lease.record.client
    let data :=
      if request.client = client then readBytes v lease.file request.offset (min request.size chunkSize)
      else .ok []
    (data.map fun bytes => .fileChunk ⟨request.path, client, request.offset, bytes⟩, lease.record, v)
  match s.withTracked request.path body v with
  | (.error e, v) => (.error e, v)
  | (.ok none, v) => (.error (s.untracked request.path), v)
  | (.ok (some reply), v) => (.ok reply, v)

/-- Ends a complete transfer under a lease of its own. -/
def install (s : Store) (t : Transfer) (v : Volume) : Except Fault (List Message) × Volume :=
  match s.acquire t.path v with
  | (.error e, v) => (.error e, t.abandon v)
  | (.ok lease, v) => during lease (fun lease v => t.finish lease.file lease.record v) v

/-- Handles a chunk that a peer served. A chunk without bytes, or one that its transfer refuses, ends
    the transfer; a chunk that completes it puts the content in place. -/
def receiveChunk (s : Store) (chunk : FileChunk) (ts : Transfers) (v : Volume) :
    Except Fault (List Message) × Transfers × Volume :=
  match ts.get? chunk.path with
  | none => (.error (.stale (.unsolicited chunk.path)), ts, v)
  | some t =>
    if chunk.refusal then
      let (ts, v) := ts.drop chunk.path v
      (.ok [], ts, v)
    else
      match t.write chunk v with
      | (.error e, v) =>
        let (ts, v) := ts.drop chunk.path v
        (.error e, ts, v)
      | (.ok (rest, t), v) =>
        if t.complete then
          let (answer, v) := s.install t v
          (answer, ts.erase chunk.path, v)
        else (.ok (rest.toList.map .requestChunk), ts.insert chunk.path t, v)

/-- Handles a commit of a peer: the record afterwards. -/
def committed (s : Store) (path : String) (commit : Commit) (v : Volume) :
    Except Fault Record × Volume :=
  s.withLease path (fun lease v =>
    match lease.record.commit commit with
    | .error why => (.error (.stale (.rejected path why)), lease.record, v)
    | .ok r => (.ok r, r, v)) v

end Store

end TreeReplica
