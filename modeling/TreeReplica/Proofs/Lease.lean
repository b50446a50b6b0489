import TreeReplica.Proofs.Lease.Taking

/-! Working under a lease. `withLease_cases` says what an operation under a lease does: apart from what its
    body does, it touches the record alone, and it leaves the record that the body decided on. -/

namespace TreeReplica
open Volume

namespace Store
variable {s : Store} {v w : Volume} {path file : String} {lease : Lease} {h : Handle}

/-! ### Working under a lease -/

theorem release_eq (l : Lease) (v : Volume) :
    l.release v =
      (if l.written = some l.record then v else v.modify l.handle fun _ => .ofBytes l.record.encode).unlock
        l.handle := by
  unfold Lease.release Lease.persist
  split <;> rfl

theorem release_next (l : Lease) (v : Volume) : v.nextId ≤ (l.release v).nextId := by
  rw [release_eq]
  split
  · exact Nat.le_refl _
  · exact (modify_kept (v := v) (h := l.handle) fun _ => .ofBytes l.record.encode).next

/-- Work under a lease that was granted: the body, and then the end of the lease. -/
theorem during_cases {α : Type} (lease : Lease) (body : Body α) (w : Volume) :
    ∃ answer r w₂, body lease w = (answer, r, w₂) ∧
      during lease body w = (answer, Lease.release { lease with record := r } w₂) := by
  obtain ⟨answer, r, w₂, hb⟩ : ∃ answer r w₂, body lease w = (answer, r, w₂) := ⟨_, _, _, rfl⟩
  refine ⟨answer, r, w₂, hb, ?_⟩
  unfold during
  rw [hb]

/-- An operation under a lease fails with the lease, or it is its body and then the end of the lease. -/
theorem withLease_cases {α : Type} (s : Store) (path : String) (body : Body α) (v : Volume) :
    (∃ e w, s.acquire path v = (.error e, w) ∧ s.withLease path body v = (.error e, w)) ∨
      ∃ lease w σ answer r w₂, s.acquire path v = (.ok lease, w) ∧ Granted s path v lease w σ ∧
        body lease w = (answer, r, w₂) ∧
        s.withLease path body v = (answer, Lease.release { lease with record := r } w₂) := by
  unfold withLease
  split
  · rename_i e w he
    exact Or.inl ⟨e, w, he, rfl⟩
  · rename_i lease w he
    obtain ⟨σ, g⟩ := acquire_ok he
    obtain ⟨answer, r, w₂, hb, hd⟩ := during_cases lease body w
    exact Or.inr ⟨lease, w, σ, answer, r, w₂, he, g, hb, hd⟩

theorem acquireTracked_cases (s : Store) (path : String) (v : Volume) :
    (∃ e, s.resolve path = .error e ∧ s.acquireTracked path v = (.error e, v)) ∨
    s.acquireTracked path v = (.ok none, v) ∨
      ∃ answer w, s.acquire path v = (answer, w) ∧ s.acquireTracked path v = (answer.map some, w) := by
  unfold acquireTracked
  split
  · rename_i e ht
    unfold tracked at ht
    cases hr : s.resolve path with
    | error e' =>
      rw [hr] at ht
      cases ht
      exact Or.inl ⟨_, rfl, rfl⟩
    | ok file =>
      rw [hr] at ht
      cases ht
  · exact Or.inr (Or.inl rfl)
  · refine Or.inr (Or.inr ?_)
    split
    · rename_i ha
      exact ⟨_, _, ha, rfl⟩
    · rename_i ha
      exact ⟨_, _, ha, rfl⟩

/-- Who works on a tracked path only is refused, finds the path untracked, or works under a lease. -/
theorem withTracked_cases {α : Type} (s : Store) (path : String) (body : Body α) (v : Volume) :
    (∃ e, s.resolve path = .error e ∧ s.withTracked path body v = (.error e, v)) ∨
    s.withTracked path body v = (.ok none, v) ∨
      (∃ e w, s.acquire path v = (.error e, w) ∧ s.withTracked path body v = (.error e, w)) ∨
        ∃ lease w σ answer r w₂, s.acquire path v = (.ok lease, w) ∧ Granted s path v lease w σ ∧
          body lease w = (answer, r, w₂) ∧
          s.withTracked path body v = (answer.map some, Lease.release { lease with record := r } w₂) := by
  unfold withTracked
  rcases acquireTracked_cases s path v with ⟨e, hr, ha⟩ | ha | ⟨answer, w, hacq, ha⟩ <;> rw [ha]
  · exact Or.inl ⟨e, hr, rfl⟩
  · exact Or.inr (Or.inl rfl)
  · cases answer with
    | error e => exact Or.inr (Or.inr (Or.inl ⟨e, w, hacq, rfl⟩))
    | ok lease =>
      obtain ⟨σ, g⟩ := acquire_ok hacq
      obtain ⟨answer, r, w₂, hb, hd⟩ := during_cases lease body w
      refine Or.inr (Or.inr (Or.inr ⟨lease, w, σ, answer, r, w₂, hacq, g, hb, ?_⟩))
      dsimp only [Except.map]
      rw [hd]
      cases answer <;> rfl

end Store

/-- Ending a lease leaves the record that it held last, and nothing else of it. -/
theorem Granted.release {s : Store} {path : String} {v w w₂ : Volume} {lease : Lease} {σ : Site}
    {P : Location → Prop} (g : Granted s path v lease w σ)
    (hk : Kept P w w₂) (hP : ¬P σ.record) (r : Record) :
    Kept (fun l => P l ∨ l = σ.record) v (Lease.release { lease with record := r } w₂) ∧
      (Lease.release { lease with record := r } w₂).record? σ = some r ∧
      ∀ l, l ≠ σ.record → (Lease.release { lease with record := r } w₂).lookup l = w₂.lookup l := by
  obtain ⟨content, hf, hdec⟩ := g.stored
  have hf₂ := hk.file hP hf
  have hread : w₂.read? lease.handle = some content := read?_eq_some.mpr (g.location ▸ hf₂)
  have hv : Kept (fun l => P l ∨ l = σ.record) (v.lock lease.handle) w₂ :=
    (g.kept.mono fun l hl => Or.inr hl).trans (hk.mono fun l hl => Or.inl hl)
  have hm : Kept (fun l => P l ∨ l = σ.record) w₂ (w₂.modify lease.handle fun _ => .ofBytes r.encode) :=
    (modify_kept _).mono fun l hl => Or.inr (hl.trans g.location)
  rw [Store.release_eq]
  dsimp only
  refine ⟨?_, ?_, fun l hl => ?_⟩
  · split
    · exact hv.unlock g.unlocked
    · exact (hv.trans hm).unlock g.unlocked
  · rw [record?_eq_some]
    split
    · rename_i hw
      rw [g.written] at hw
      cases hw
      exact ⟨lease.handle.id, content, by rw [lookup_unlock, hf₂], hdec⟩
    · refine ⟨lease.handle.id, .ofBytes r.encode, ?_, by rw [Content.toList_ofBytes, Record.decode_encode]⟩
      rw [lookup_unlock, lookup_modify, hread, g.location]
      exact if_pos rfl
  · rw [lookup_unlock]
    split
    · rfl
    · rw [lookup_modify, hread]
      exact if_neg (g.location ▸ Ne.symm hl)

/-- Ending a lease leaves every entry of its kind: at most the content of the record is another one. -/
theorem Granted.release_kind {s : Store} {path : String} {v w w₂ : Volume} {lease : Lease} {σ : Site}
    {P : Location → Prop} (g : Granted s path v lease w σ) (hk : Kept P w w₂) (hP : ¬P σ.record)
    (r : Record) (l : Location) :
    (Lease.release { lease with record := r } w₂).lookup l = w₂.lookup l ∨
      ((∃ id content, w₂.lookup l = some (.file id content)) ∧
        ∃ id content, (Lease.release { lease with record := r } w₂).lookup l = some (.file id content)) := by
  obtain ⟨-, hrec, hlook⟩ := g.release hk hP r
  obtain ⟨content, hf, -⟩ := g.stored
  by_cases hl : l = σ.record
  · obtain ⟨id, content', hf', -⟩ := record?_eq_some.mp hrec
    exact Or.inr ⟨⟨_, _, hl ▸ hk.file hP hf⟩, ⟨_, _, hl ▸ hf'⟩⟩
  · exact Or.inl (hlook l hl)

theorem Granted.release_here {s : Store} {path : String} {v w w₂ : Volume} {lease : Lease} {σ : Site}
    {P : Location → Prop} (g : Granted s path v lease w σ) (hk : Kept P w w₂) (hP : ¬P σ.record) (r : Record) :
    (Lease.release { lease with record := r } w₂).here = w₂.here := by
  rw [(g.release hk hP r).1.here, hk.here, g.kept.here]
  rfl

/-! ### Records as they are found -/

section Recorded
variable {s : Store} {v w : Volume} {path file : String} {r : Record}

theorem recorded?_cases (s : Store) (path : String) (v : Volume) :
    s.recorded? path v = none ∨ ∃ file σ id content, s.resolve path = .ok file ∧ s.Leads v path σ ∧
      v.find (Path.sidecar file) = .ok (σ.record, .file id content) ∧
      s.recorded? path v = some (Record.decode content.toList) := by
  unfold Store.recorded?
  split
  · exact Or.inl rfl
  rename_i file hr
  split
  · rename_i l id content hf
    obtain ⟨dir, name, hl, rfl, -⟩ := find_file hf
    obtain ⟨σ, hlead, hσ⟩ := Store.leads_of_locate_sidecar hr hl
    exact Or.inr ⟨file, σ, id, content, hr, hlead, hσ ▸ hf, rfl⟩
  · exact Or.inl rfl

theorem Store.Leads.record? {σ : Site} (hl : s.Leads v path σ) (hr : s.recorded? path v = some (.ok r)) :
    v.record? σ = some r := by
  rcases recorded?_cases s path v with h | ⟨file, τ, id, content, -, hlead, hf, h⟩
  · rw [hr] at h
    cases h
  · rw [hr] at h
    obtain rfl := hl.unique hlead
    obtain ⟨-, -, -, -, hlook⟩ := Volume.find_file hf
    exact record?_eq_some.mpr ⟨id, content, hlook, (Option.some.inj h).symm⟩

/-- Where the record of a path was found it is found again, whatever it holds by then. -/
theorem Volume.Kept.recorded? {P : Location → Prop} (hk : Kept P v w) {σ : Site} {id id' : Nat}
    {content content' : Content} (hr : s.resolve path = .ok file)
    (hf : v.find (Path.sidecar file) = .ok (σ.record, .file id content))
    (hw : w.lookup σ.record = some (.file id' content')) :
    s.recorded? path w = some (Record.decode content'.toList) := by
  obtain ⟨dir, name, hl, hσ, -⟩ := Volume.find_file hf
  rw [hσ] at hw
  unfold Store.recorded?
  rw [hr]
  dsimp only
  rw [find_of_locate (hk.locate hl) (size_le_of_find hl hf) hw]

/-- As long as no lease is held, the lease of a path whose record can be read is granted, and finds that record. -/
theorem Store.acquires_recorded (hr : s.recorded? path v = some (.ok r)) (hu : v.locked = []) :
    ∃ lease, s.acquire path v = (.ok lease, v.lock lease.handle) ∧ lease.record = r ∧
    s.resolve path = .ok lease.file := by
  rcases recorded?_cases s path v with h | ⟨file, σ, id, content, hres, -, hf, h⟩
  · rw [hr] at h
    cases h
  rw [hr] at h
  obtain ⟨-, -, -, -, hlook⟩ := Volume.find_file hf
  have hread : (v.lock ⟨σ.record, id⟩).read? ⟨σ.record, id⟩ = some content := read?_eq_some.mpr hlook
  rw [Store.acquire_of_find hres hf, if_neg (by simp [isLocked, hu])]
  unfold Store.grant
  dsimp only
  rw [hread, Option.getD_some, Record.stored_eq_some.mpr (Option.some.inj h).symm]
  exact ⟨_, rfl, rfl, hres⟩

theorem Volume.Kept.recorded?_eq {P : Location → Prop} (hk : Kept P v w) (hP : ∀ σ : Site, ¬P σ.record)
    (hr : s.recorded? path v = some (.ok r)) : s.recorded? path w = some (.ok r) := by
  rcases recorded?_cases s path v with h | ⟨file, σ, id, content, hres, -, hf, h⟩
  · rw [hr] at h
    cases h
  · obtain ⟨-, -, -, -, hlook⟩ := Volume.find_file hf
    rw [hk.recorded? hres hf (hk.file (hP σ) hlook), ← h, hr]

end Recorded

/-! ### Files as they are found -/

/-- The bytes of the file that a text leads to. -/
def Volume.bytesAt? (v : Volume) (file : String) : Option Bytes :=
  match v.find file with
  | .ok (_, .file _ content) => some content.toList
  | _ => none

section Bytes
variable {s : Store} {v w : Volume} {path file : String} {σ : Site}

theorem bytesAt?_eq_some {bytes : Bytes} :
    v.bytesAt? file = some bytes ↔ ∃ l id content, v.find file = .ok (l, .file id content) ∧
    content.toList = bytes := by
  unfold bytesAt?
  constructor
  · intro h
    split at h
    · rename_i l id content hf
      exact ⟨l, id, content, hf, Option.some.inj h⟩
    · cases h
  · rintro ⟨l, id, content, hf, hb⟩
    rw [hf]
    exact congrArg some hb

theorem Volume.Kept.bytesAt? {P : Location → Prop} (hk : Kept P v w) (hl : s.Leads v path σ)
    (hr : s.resolve path = .ok file) (hP : ¬P σ.file) : w.bytesAt? file = v.bytesAt? file := by
  refine Option.ext fun bytes => ?_
  rw [bytesAt?_eq_some, bytesAt?_eq_some]
  constructor
  · rintro ⟨l, id, content, hf, hb⟩
    obtain ⟨dir, name, hloc, rfl, hlook⟩ := Volume.find_file hf
    obtain rfl : σ = ⟨dir, name⟩ := (hl.kept hk).unique (Store.leads_of_locate hr hloc)
    obtain ⟨file', hr', -, hw⟩ := hl
    cases hr.symm.trans hr'
    exact ⟨_, id, content,
      find_of_locate (locate_of_walk hloc hw) (size_le_of_find hloc hf) (hk.file_back hP hlook), hb⟩
  · rintro ⟨l, id, content, hf, hb⟩
    obtain ⟨dir, name, hloc, rfl, -⟩ := Volume.find_file hf
    obtain rfl : σ = ⟨dir, name⟩ := hl.unique (Store.leads_of_locate hr hloc)
    exact ⟨_, id, content, hk.find_file hf hP, hb⟩

theorem readBytes_piece {offset : UInt64} {size : UInt32} {bytes : Bytes}
    (h : Store.readBytes v file offset size = .ok bytes) (hne : bytes ≠ []) :
    ∃ all, v.bytesAt? file = some all ∧ bytes <+: all.drop offset.toNat := by
  unfold Store.readBytes at h
  split at h
  · cases h
  · split at h
    · cases h
      exact absurd rfl hne
    · cases h
  · rename_i l id content hf
    dsimp only at h
    split at h
    · cases h
    · cases h
      refine ⟨content.toList, bytesAt?_eq_some.mpr ⟨l, id, content, hf, rfl⟩, ?_⟩
      rw [Content.slice_eq, List.drop_take]
      exact List.take_prefix _ _

theorem readBytes_error {offset : UInt64} {size : UInt32} {e : Fault}
    (h : Store.readBytes v file offset size = .error e) :
    ∃ cause, e = .chunkRead file cause := by
  unfold Store.readBytes at h
  split at h
  · cases h
    exact ⟨_, rfl⟩
  · split at h <;> cases h
    exact ⟨_, rfl⟩
  · dsimp only at h
    split at h <;> cases h
    exact ⟨_, rfl⟩

end Bytes

end TreeReplica
