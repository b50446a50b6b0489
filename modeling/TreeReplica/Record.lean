import TreeReplica.Bytes

/-!
Version records: what a node knows about one tracked path, and how edits, commits and announcements
change it. `base` is the version agreed with the peers, `client` counts the edits made on top of it. -/

namespace TreeReplica

/-- Where a tracked path stands against its peers. -/
inductive RecordState
  /-- Nothing is pending on either side. -/
  | synced
  /-- Local edits wait for a commit. -/
  | dirty
  /-- A peer has a newer base, and nothing local would be lost by taking it. -/
  | stale
  /-- Both sides changed; only outside help ends this. -/
  | conflict
  /-- The path was deleted here. -/
  | deleted
  deriving DecidableEq, Repr, Inhabited

namespace RecordState

/-- The byte that stands for a state in a stored record. -/
def tag : RecordState → UInt8
  | synced => 0
  | dirty => 1
  | stale => 2
  | conflict => 3
  | deleted => 4

def ofTag? : UInt8 → Option RecordState
  | 0 => some synced
  | 1 => some dirty
  | 2 => some stale
  | 3 => some conflict
  | 4 => some deleted
  | _ => none

def name : RecordState → String
  | synced => "synced"
  | dirty => "dirty"
  | stale => "stale"
  | conflict => "conflict"
  | deleted => "deleted"

/-- No announcement and no commit moves a record out of a terminal state. -/
def terminal : RecordState → Bool
  | conflict | deleted => true
  | _ => false

theorem ofTag?_tag (s : RecordState) : ofTag? s.tag = some s := by cases s <;> rfl

theorem tag_of_ofTag? {b : UInt8} {s : RecordState} (h : ofTag? b = some s) : s.tag = b := by
  unfold ofTag? at h
  split at h <;> cases h <;> rfl

end RecordState

/-- Declares that `client` edits made on top of `base` are from now on version `next`. -/
structure Commit where
  base : UInt64
  next : UInt64
  client : UInt64
  deriving DecidableEq, Repr, Inhabited

structure Record where
  base : UInt64
  client : UInt64
  state : RecordState
  deriving DecidableEq, Repr

/-- Why a commit does not apply. -/
inductive Rejection
  | baseMismatch (expected got : UInt64)
  | notAnAdvance (base next : UInt64)
  | tooManyEdits (pending committed : UInt64)
  | unapplicable (state : RecordState)
  deriving DecidableEq, Repr

/-- What an announced base means for a record. -/
inductive Observation
  /-- The announcement is older than the record. -/
  | outdated
  /-- The peer made its edits on the agreed base. -/
  | sameBase
  /-- The peer is ahead and nothing local is pending. -/
  | stale
  /-- The peer is ahead while local edits are pending. -/
  | conflict
  /-- The record is in a terminal state. -/
  | ignored
  deriving DecidableEq, Repr

namespace Rejection

def message : Rejection → String
  | baseMismatch expected got => s!"commit base {got} does not match record base {expected}"
  | notAnAdvance base next => s!"commit to version {next} does not advance base {base}"
  | tooManyEdits pending committed => s!"commit covers {committed} edits but only {pending} are pending"
  | unapplicable state => s!"commit cannot apply to a {state.name} record"

end Rejection

namespace Record

/-- The record of a path that has just become tracked. -/
def initial : Record := ⟨0, 0, .synced⟩

instance : Inhabited Record := ⟨initial⟩

def text (r : Record) : String := s!"base={r.base} client={r.client} state={r.state.name}"

/-- Local work that no commit covers yet. -/
def pending (r : Record) : Bool := r.client > 0 || r.state = .dirty

/-- A deleted record counts no more edits. -/
def countsEdits (r : Record) : Bool := r.state ≠ .deleted

/-- A local write or truncation. A conflict keeps counting edits but stays a conflict. -/
def edit (r : Record) : Record :=
  match r.state with
  | .deleted => r
  | .conflict => { r with client := r.client + 1 }
  | _ => { r with client := r.client + 1, state := .dirty }

/-- A local creation. It is an edit unless the record itself is as new as the file. -/
def create (r : Record) (fresh : Bool) : Record := if fresh then r else r.edit

def delete (r : Record) : Record := { r with state := .deleted }

/-- The record after a commit, or why there is none. -/
def commit (r : Record) (c : Commit) : Except Rejection Record :=
  if r.state ≠ .synced ∧ r.state ≠ .dirty then .error (.unapplicable r.state)
  else if c.base ≠ r.base then .error (.baseMismatch r.base c.base)
  else if c.next ≤ r.base then .error (.notAnAdvance r.base c.next)
  else if c.client > r.client then .error (.tooManyEdits r.client c.client)
  else .ok ⟨c.next, r.client - c.client, if r.client - c.client = 0 then .synced else .dirty⟩

/-- What an announcement of base `remote` means for the record. -/
def observation (r : Record) (remote : UInt64) : Observation :=
  if r.state.terminal then .ignored
  else if remote < r.base then .outdated
  else if remote = r.base then .sameBase
  else if r.pending then .conflict
  else .stale

/-- The record after an announcement of base `remote`; the counters stay. -/
def observe (r : Record) (remote : UInt64) : Record :=
  match r.observation remote with
  | .conflict => { r with state := .conflict }
  | .stale => { r with state := .stale }
  | _ => r

/-- Both sides edited the same base. -/
def clash (r : Record) : Record := { r with state := .conflict }

/-- The record after the content of base `remote` was taken over. -/
def catchUp (r : Record) (remote : UInt64) : Record := ⟨max r.base remote, 0, .synced⟩

/-- The record after a peer's edits on the agreed base were taken over. -/
def adoptEdits (r : Record) : Record := { r with base := r.base + 1, state := .synced }

end Record

end TreeReplica
