import TreeReplica.Store
import TreeReplica.Wire.Message

/-!
Local edits: each report of a change of a tracked file is one change of its record under one lease,
followed by a notice for the peers. Deletions are not announced. -/

namespace TreeReplica

inductive LocalEdit
  | created
  | written
  | truncated
  | deleted
  deriving DecidableEq, Repr

namespace LocalEdit

/-- What an edit does to the record; `fresh` says that the record came to be just now. -/
def apply (e : LocalEdit) (fresh : Bool) (r : Record) : Record :=
  match e with
  | created => r.create fresh
  | written | truncated => r.edit
  | deleted => r.delete

/-- The notice of a record and a file of this size. Nothing is announced of a deleted file. -/
def notice? (path : String) (r : Record) (size : Nat) : Option NewVersion :=
  if r.state = .deleted then none else some ⟨path, r.base, r.client, .ofNat size⟩

/-- Reports an edit: the record afterwards and the notice to publish. A missing file counts as empty. -/
def report (e : LocalEdit) (s : Store) (path : String) (v : Volume) :
    Except Fault (Record × Option NewVersion) × Volume :=
  s.withLease path (fun lease v =>
    let r := e.apply lease.fresh lease.record
    let size := match v.sizeOf lease.file with
      | .ok size => size
      | .error _ => 0
    (.ok (r, notice? path r size), r, v)) v

end LocalEdit

end TreeReplica
