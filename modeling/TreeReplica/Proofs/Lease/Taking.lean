import TreeReplica.Proofs.Lease.Sites

/-! Taking a lease. `acquire_ok` says all that a lease that was had can tell (`Granted`), and `acquire_error`
    what one that was not had leaves behind. -/

namespace TreeReplica
open Volume

/-! ### Taking a lease -/

namespace Record

theorem stored_eq_some {content : Content} {r : Record} :
    stored content = .ok (some r) ↔ decode content.toList = .ok r := by
  unfold stored
  split
  · rename_i he
    simp [he, decode, storedSize]
  · cases decode content.toList <;> simp [Except.map]

theorem stored_eq_none {content : Content} : stored content = .ok none ↔ content.toList = [] := by
  unfold stored
  split
  · rename_i he
    simp [he]
  · rename_i hne
    have hne : content.toList ≠ [] := hne
    cases decode content.toList <;> simp [Except.map, hne]

theorem stored_eq_error {content : Content} {fault : RecordFault} :
    stored content = .error fault ↔ content.toList ≠ [] ∧ decode content.toList = .error fault := by
  unfold stored
  split
  · rename_i he
    simp [he]
  · rename_i hne
    have hne : content.toList ≠ [] := hne
    cases decode content.toList <;> simp [Except.map, hne]

end Record

/-- A lease of a path that was had on `v`, with `w` as the volume then. -/
structure Granted (s : Store) (path : String) (v : Volume) (lease : Lease) (w : Volume) (σ : Site) : Prop where
  leads : s.Leads w path σ
  resolves : s.resolve path = .ok lease.file
  location : lease.handle.location = σ.record
  unlocked : v.isLocked lease.handle = false
  kept : Kept (· = σ.record) (v.lock lease.handle) w
  stored : ∃ content, w.lookup σ.record = some (.file lease.handle.id content) ∧
    Record.decode content.toList = .ok lease.record
  written : lease.written = some lease.record
  before : (lease.fresh = false ∧ w.lookup σ.record = v.lookup σ.record) ∨
    (lease.fresh = true ∧ lease.record = .initial ∧
      ∀ content, v.content? σ.record = some content → content.toList = [])

namespace Store
variable {s : Store} {v w : Volume} {path file : String} {lease : Lease} {h : Handle}

theorem grant_ok (hg : grant path file h v = (.ok lease, w)) :
    lease.file = file ∧ lease.handle = h ∧ lease.written = some lease.record ∧
      ((lease.fresh = false ∧ w = v.lock h ∧
          Record.decode ((v.read? h).getD .empty).toList = .ok lease.record) ∨
        (lease.fresh = true ∧ lease.record = .initial ∧ ((v.read? h).getD .empty).toList = [] ∧
          w = (v.lock h).modify h fun _ => .ofBytes Record.initial.encode)) := by
  unfold grant at hg
  dsimp only at hg
  have hread : (v.lock h).read? h = v.read? h := rfl
  rw [hread] at hg
  split at hg
  · simp at hg
  · rename_i r hs
    simp only [Prod.mk.injEq, Except.ok.injEq] at hg
    obtain ⟨rfl, rfl⟩ := hg
    exact ⟨rfl, rfl, rfl, Or.inl ⟨rfl, rfl, Record.stored_eq_some.mp hs⟩⟩
  · rename_i hs
    have hp : Lease.persist ⟨path, file, h, .initial, none, true⟩ (v.lock h) =
        (⟨path, file, h, .initial, some .initial, true⟩,
          (v.lock h).modify h fun _ => .ofBytes Record.initial.encode) := rfl
    simp only [hp, Prod.mk.injEq, Except.ok.injEq] at hg
    obtain ⟨rfl, rfl⟩ := hg
    exact ⟨rfl, rfl, rfl, Or.inr ⟨rfl, rfl, Record.stored_eq_none.mp hs, rfl⟩⟩

theorem grant_error {e : Fault} (hg : grant path file h v = (.error e, w)) :
    ∃ fault, e = .recordIo (Path.sidecar file) (.record fault) ∧
      ((v.read? h).getD .empty).toList ≠ [] ∧
      Record.decode ((v.read? h).getD .empty).toList = .error fault ∧
      w = ((v.lock h).modify h fun _ => .ofBytes Record.initial.encode).unlock h := by
  unfold grant at hg
  dsimp only at hg
  have hread : (v.lock h).read? h = v.read? h := rfl
  rw [hread] at hg
  split at hg
  · rename_i fault hs
    obtain ⟨hne, hd⟩ := Record.stored_eq_error.mp hs
    exact ⟨fault, (Except.error.inj (Prod.mk.inj hg).1).symm, hne, hd, (Prod.mk.inj hg).2.symm⟩
  · simp at hg
  · simp at hg

theorem resolve_error {e : Fault} (hr : s.resolve path = .error e) : ∃ why, e = .invalidPath why := by
  unfold resolve Path.resolve at hr
  split at hr <;> cases hr
  exact ⟨_, rfl⟩

/-- The volume in which a path has the directories of its record, as far as they can be made. -/
def entered (s : Store) (path : String) (v : Volume) : Volume :=
  match s.resolve path with
  | .error _ => v
  | .ok file => (v.createDirectories (Path.parent (Path.sidecar file))).2

theorem entered_kept (s : Store) (path : String) (v : Volume) (P : Location → Prop) :
    Kept P v (s.entered path v) := by
  unfold entered
  split
  · exact .refl P v
  · exact createDirectories_kept P v _

/-- Who asks for a lease gets as far as the directories, or finds the record locked, or is granted what
    the record file tells. -/
theorem acquire_entered (s : Store) (path : String) (v : Volume) :
    (∃ e, s.acquire path v = (.error e, s.entered path v)) ∨
      ∃ file h v₂, s.resolve path = .ok file ∧ (s.entered path v).openOrCreate (Path.sidecar file) = (.ok h, v₂) ∧
        ((v₂.isLocked h = true ∧ s.acquire path v = (.error (.recordLocked (Path.sidecar file)), v₂)) ∨
          (v₂.isLocked h = false ∧ s.acquire path v = grant path file h v₂)) := by
  unfold acquire entered
  rcases hr : s.resolve path with e | file
  · exact Or.inl ⟨e, rfl⟩
  dsimp only
  rcases v.createDirectories (Path.parent (Path.sidecar file)) with ⟨e | ⟨⟩, v₁⟩
  · exact Or.inl ⟨_, rfl⟩
  dsimp only
  split
  · rename_i e v₂ ho
    rw [openOrCreate_error ho]
    exact Or.inl ⟨_, rfl⟩
  · rename_i h v₂ ho
    refine Or.inr ⟨file, h, v₂, rfl, ho, ?_⟩
    cases hl : v₂.isLocked h
    · exact Or.inr ⟨rfl, by simp⟩
    · exact Or.inl ⟨rfl, by simp⟩

theorem acquire_cases (s : Store) (path : String) (v : Volume) :
    ∃ v₁, (∀ P, Kept P v v₁) ∧
      ((∃ e, s.acquire path v = (.error e, v₁)) ∨
        ∃ file h v₂, s.resolve path = .ok file ∧ v₁.openOrCreate (Path.sidecar file) = (.ok h, v₂) ∧
          ((v₂.isLocked h = true ∧ s.acquire path v = (.error (.recordLocked (Path.sidecar file)), v₂)) ∨
            (v₂.isLocked h = false ∧ s.acquire path v = grant path file h v₂))) :=
  ⟨s.entered path v, s.entered_kept path v, acquire_entered s path v⟩

/-- Handle `h` was opened for the record of a path, as a file of this content: the file was there, or it is new and
    empty. -/
structure Opened (s : Store) (path : String) (v w : Volume) (h : Handle) (σ : Site) (content : Content) : Prop where
  leads : s.Leads w path σ
  location : h.location = σ.record
  kept : Kept (· = σ.record) v w
  file : w.lookup σ.record = some (.file h.id content)
  found : w.lookup σ.record = v.lookup σ.record ∨
    (v.content? σ.record = none ∧ v.nextId ≤ h.id ∧ content = .empty)

theorem opened_of_ok {v₁ v₂ : Volume} (hk : ∀ P, Kept P v v₁) (hr : s.resolve path = .ok file)
    (ho : v₁.openOrCreate (Path.sidecar file) = (.ok h, v₂)) : ∃ σ content, Opened s path v v₂ h σ content := by
  obtain ⟨dir, name, hl, -, hloc, hcase⟩ := openOrCreate_ok ho
  obtain ⟨σ, hlead, hσ⟩ := leads_of_locate_sidecar hr hl
  rw [hσ] at hloc
  rw [hloc] at hcase
  have none := hk fun _ => False
  rcases hcase with ⟨content, hf, rfl⟩ | ⟨hn, hid, rfl⟩
  · exact ⟨σ, content, hlead, hloc, hk _, hf, Or.inl (by rw [hf, none.file_back (fun h => h) hf])⟩
  · have hne : σ.record ≠ [] := Site.record_ne_nil
    have hkc : Kept (· = σ.record) v₁ (v₁.create σ.record).2 := .create hne (by rw [hn]; simp)
    refine ⟨σ, .empty, hlead.kept hkc, hloc, (hk _).trans hkc, ?_, Or.inr ⟨?_, ?_, rfl⟩⟩
    · show (v₁.setEntry σ.record (.file v₁.nextId .empty)).lookup σ.record = _
      rw [lookup_setEntry v₁ hne, if_pos rfl, hid]
    · refine Option.eq_none_iff_forall_ne_some.mpr fun content hc => ?_
      obtain ⟨id, hlook⟩ := content?_eq_some.mp hc
      rw [none.file (fun h => h) hlook] at hn
      cases hn
    · rw [hid]
      exact none.next

namespace Opened
variable {σ : Site} {content : Content}

theorem read? (o : Opened s path v w h σ content) : w.read? h = some content :=
  read?_eq_some.mpr (by rw [o.location]; exact o.file)

theorem unlocked (o : Opened s path v w h σ content) (hu : w.isLocked h = false) : v.isLocked h = false := by
  unfold isLocked at hu ⊢
  rw [← o.kept.locked]
  exact hu

/-- What is in the file was there before. -/
theorem found_of_ne (o : Opened s path v w h σ content) (hne : content.toList ≠ []) :
    w.lookup σ.record = v.lookup σ.record := by
  rcases o.found with hsame | ⟨-, -, rfl⟩
  · exact hsame
  · exact absurd rfl hne

theorem written (o : Opened s path v w h σ content) (bytes : Bytes) :
    Kept (· = σ.record) (w.lock h) ((w.lock h).modify h fun _ => .ofBytes bytes) ∧
      ((w.lock h).modify h fun _ => .ofBytes bytes).lookup σ.record = some (.file h.id (.ofBytes bytes)) := by
  refine ⟨(modify_kept _).mono fun l hl => hl.trans o.location, ?_⟩
  rw [lookup_modify, show (w.lock h).read? h = some content from o.read?, o.location]
  exact if_pos rfl

end Opened

theorem acquire_ok (ha : s.acquire path v = (.ok lease, w)) : ∃ σ, Granted s path v lease w σ := by
  obtain ⟨v₁, hk, ⟨e, he⟩ | ⟨file, h, v₂, hr, ho, ⟨-, he⟩ | ⟨hu, hg⟩⟩⟩ := acquire_cases s path v
  · simp [he] at ha
  · simp [he] at ha
  rw [ha] at hg
  obtain ⟨σ, content, o⟩ := opened_of_ok hk hr ho
  obtain ⟨rfl, rfl, hwritten, hcase⟩ := grant_ok hg.symm
  rw [o.read?] at hcase
  refine ⟨σ, ?_⟩
  rcases hcase with ⟨hfresh, rfl, hdec⟩ | ⟨hfresh, hinit, hempty, rfl⟩
  · -- An empty file holds no record, so the file was there before.
    have hne : content.toList ≠ [] := Record.ne_nil_of_decode hdec
    exact ⟨o.leads.lock _, hr, o.location, o.unlocked hu, o.kept.lock, ⟨content, o.file, hdec⟩, hwritten,
      Or.inl ⟨hfresh, o.found_of_ne hne⟩⟩
  · obtain ⟨hkm, hlook⟩ := o.written Record.initial.encode
    refine ⟨(o.leads.lock _).kept hkm, hr, o.location, o.unlocked hu, o.kept.lock.trans hkm,
      ⟨_, hlook, ?_⟩, hwritten, Or.inr ⟨hfresh, hinit, fun content' hc => ?_⟩⟩
    · rw [Content.toList_ofBytes, Record.decode_encode, hinit]
    · rcases o.found with hsame | ⟨hnone, -⟩
      · obtain ⟨id, hl⟩ := content?_eq_some.mp hc
        rw [← hsame, o.file] at hl
        cases hl
        exact hempty
      · rw [hnone] at hc
        cases hc

/-- Who is not granted a lease leaves things as they were, unless the record was locked though it was
    new, or could not be read. -/
theorem acquire_error {e : Fault} (ha : s.acquire path v = (.error e, w)) :
    (∀ P, Kept P v w) ∨
      ∃ σ, s.Leads w path σ ∧ Kept (· = σ.record) v w ∧
        ((v.content? σ.record = none ∧ ∃ id ∈ v.locked, v.nextId ≤ id) ∨
          ∃ content fault, v.content? σ.record = some content ∧ content.toList ≠ [] ∧
            Record.decode content.toList = .error fault ∧
            w.content? σ.record = some (.ofBytes Record.initial.encode)) := by
  obtain ⟨v₁, hk, ⟨e', he⟩ | ⟨file, h, v₂, hr, ho, ⟨hlock, he⟩ | ⟨hu, hg⟩⟩⟩ :=
    acquire_cases s path v
  · rw [he] at ha
    obtain rfl := (Prod.mk.inj ha).2
    exact Or.inl hk
  · rw [he] at ha
    obtain rfl := (Prod.mk.inj ha).2
    obtain ⟨σ, content, o⟩ := opened_of_ok hk hr ho
    rcases o.found with hsame | ⟨hnone, hid, -⟩
    · refine Or.inl fun P => { o.kept with same := fun l _ => ?_ }
      by_cases hl : l = σ.record
      · exact Or.inl (hl ▸ hsame)
      · exact o.kept.same l hl
    · refine Or.inr ⟨σ, o.leads, o.kept, Or.inl ⟨hnone, h.id, ?_, hid⟩⟩
      rw [← o.kept.locked]
      simpa [isLocked] using hlock
  · rw [ha] at hg
    obtain ⟨σ, content, o⟩ := opened_of_ok hk hr ho
    obtain ⟨fault, -, hne, hdec, rfl⟩ := grant_error hg.symm
    rw [o.read?] at hne hdec
    obtain ⟨hkm, hlook⟩ := o.written Record.initial.encode
    refine Or.inr ⟨σ, ((o.leads.lock h).kept hkm).unlock h,
      (o.kept.lock.trans hkm).unlock (o.unlocked hu), Or.inr ?_⟩
    refine ⟨content, fault, content?_eq_some.mpr ⟨h.id, ?_⟩, hne, hdec, content?_eq_some.mpr ⟨h.id, ?_⟩⟩
    · rw [← o.found_of_ne hne]
      exact o.file
    · rw [lookup_unlock]
      exact hlook

/-- A lease that is not granted fails for its path, or for its record. -/
theorem category_of_acquire_error {e : Fault} (ha : s.acquire path v = (.error e, w)) :
    e.category = .metadata ∨ e.category = .localUse := by
  unfold acquire at ha
  split at ha
  · rename_i e' hr
    cases ha
    obtain ⟨why, rfl⟩ := resolve_error hr
    exact Or.inr rfl
  · dsimp only at ha
    split at ha
    · cases ha
      exact Or.inl rfl
    · split at ha
      · cases ha
        exact Or.inl rfl
      · split at ha
        · cases ha
          exact Or.inl rfl
        · obtain ⟨fault, rfl, -⟩ := grant_error ha
          exact Or.inl rfl

/-- Who is not granted a lease touches at most a record that is not there or cannot be read. -/
theorem acquire_error_kept {e : Fault} (ha : s.acquire path v = (.error e, w)) :
    Kept (fun l => ∃ σ : Site, l = σ.record ∧ v.record? σ = none) v w := by
  rcases acquire_error ha with hk | ⟨σ, -, hk, ⟨hnone, -⟩ | ⟨content, fault, hc, -, hd, -⟩⟩
  · exact hk _
  · refine hk.mono fun l hl => ⟨σ, hl, ?_⟩
    unfold record?
    rw [hnone]
  · refine hk.mono fun l hl => ⟨σ, hl, ?_⟩
    unfold record?
    rw [hc]
    simp [hd, Except.toOption]

theorem acquire_of_find {location : Location} {id : Nat} {content : Content} (hr : s.resolve path = .ok file)
    (hf : v.find (Path.sidecar file) = .ok (location, .file id content)) :
    s.acquire path v =
      if v.isLocked ⟨location, id⟩ then (.error (.recordLocked (Path.sidecar file)), v)
      else grant path file ⟨location, id⟩ v := by
  obtain ⟨dir, name, hl, rfl, hlook⟩ := find_file hf
  have ho := openOrCreate_file hl (size_le_of_find hl hf) hlook
  unfold acquire
  rw [hr]
  dsimp only
  rw [createDirectories_parent hl]
  dsimp only
  rw [ho]

end Store

end TreeReplica
