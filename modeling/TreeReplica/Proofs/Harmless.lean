import TreeReplica.Proofs.Places

/-! What asking for the lease of a path leaves behind. Whether the lease is granted or not, nothing that could
    be read is another one afterwards (`acquire_error_harmless`, `acquire_ok_harmless`): directories on the
    way may be new, and the initial record may stand where there was none to read. -/

namespace TreeReplica
open Volume

/-- Nothing that stood in `v` is another one in `w`. New are at most directories on the way to a path, and its
    initial record where none could be read; files in `Q` may be gone. -/
structure Harmless (s : Store) (path : String) (Q : Location → Prop) (v w : Volume) : Prop where
  here : w.here = v.here
  next : v.nextId ≤ w.nextId
  locked : w.locked = v.locked
  entry : ∀ l, w.lookup l = v.lookup l ∨
    (OnWay (v.start s.root) (s.way path) l ∧ v.lookup l = none ∧ w.lookup l = some .directory) ∨
    (l = (s.site v path).record ∧ v.record? (s.site v path) = none ∧ v.lookup l ≠ some .directory ∧
      ∃ id, w.lookup l = some (.file id (.ofBytes Record.initial.encode))) ∨
    (Q l ∧ v.lookup l ≠ some .directory ∧ w.lookup l = none)

namespace Harmless
variable {s : Store} {v v₁ w : Volume} {path file : String} {Q : Location → Prop} {r : Record} {h : Handle}

theorem refl (s : Store) (path : String) (Q : Location → Prop) (v : Volume) : Harmless s path Q v v :=
  ⟨rfl, Nat.le_refl _, rfl, fun _ => Or.inl rfl⟩

theorem entered (s : Store) (path : String) (Q : Location → Prop) (v : Volume) :
    Harmless s path Q v (s.entered path v) := by
  have hk := s.entered_kept path v fun _ => False
  have hw := s.entered_within path v fun _ => False
  exact ⟨hk.here, hk.next, hk.locked, fun l => (hw.same l id).imp_right Or.inl⟩

theorem kept (h : Harmless s path Q v w) :
    Kept (fun l => Q l ∨ (l = (s.site v path).record ∧ v.record? (s.site v path) = none)) v w where
  here := h.here
  next := h.next
  locked := h.locked
  directory l hl := by
    rcases h.entry l with he | ⟨-, hn, -⟩ | ⟨-, -, hd, -⟩ | ⟨-, hd, -⟩
    · rw [he, hl]
    · rw [hl] at hn
      cases hn
    · exact absurd hl hd
    · exact absurd hl hd
  same l hl := by
    rcases h.entry l with he | ⟨-, hn, hd⟩ | ⟨hrec, hnone, -⟩ | ⟨hq, -⟩
    · exact Or.inl he
    · exact Or.inr ⟨hn, hd⟩
    · exact absurd (Or.inr ⟨hrec, hnone⟩) hl
    · exact absurd (Or.inl hq) hl

/-- Every tracked file keeps its bytes. -/
theorem bytesAt? (h : Harmless s path Q v w) (hQ : ∀ l, Q l → StagingPlace l) {q : String} {bytes : Bytes}
    (hr : s.resolve q = .ok file) (hb : v.bytesAt? file = some bytes) : w.bytesAt? file = some bytes := by
  obtain ⟨l, id, content, hf, rfl⟩ := bytesAt?_eq_some.mp hb
  obtain ⟨dir, name, hl, rfl, -⟩ := find_file hf
  have leads := Store.leads_of_locate hr hl
  refine bytesAt?_eq_some.mpr ⟨_, id, content, h.kept.find_file hf ?_, rfl⟩
  rintro (hq | ⟨hrec, -⟩)
  · exact leads.file_not_staging (hQ _ hq)
  · exact leads.file_not_record ⟨_, _, hrec⟩

/-- Every record that could be read is found as it was. -/
theorem recorded? (h : Harmless s path Q v w) (hQ : ∀ l, Q l → StagingPlace l) {q : String}
    (hr : s.recorded? q v = some (.ok r)) : s.recorded? q w = some (.ok r) := by
  rcases recorded?_cases s q v with hn | ⟨file, σ, id, content, hres, leads, hf, hsome⟩
  · rw [hr] at hn
    cases hn
  obtain ⟨-, -, -, -, hlook⟩ := find_file hf
  have hfile : w.lookup σ.record = some (.file id content) := by
    refine h.kept.file ?_ hlook
    rintro (hq | ⟨hrec, hnone⟩)
    · exact σ.record_not_staging (hQ _ hq)
    · rw [← Site.record_injective hrec, leads.record? hr] at hnone
      cases hnone
  rw [h.kept.recorded? hres hf hfile, ← hsome, hr]

/-- Where all directories on the way are there, at most the record is new. -/
theorem elsewhere {dir l : Location} (h : Harmless s path (fun _ => False) v w)
    (hw : v.walk (v.start s.root) (s.way path) = .ok dir) (hl : l ≠ (s.site v path).record) :
    w.lookup l = v.lookup l := by
  rcases h.entry l with he | ⟨hway, hn, -⟩ | ⟨hrec, -⟩ | ⟨hq, -⟩
  · exact he
  · rw [lookup_of_walk hw hway] at hn
    cases hn
  · exact absurd hrec hl
  · exact hq.elim

theorem discard (hw : Harmless s path Q v w) (hQ : Q h.location) : Harmless s path Q v (w.discard h) := by
  have hk := discard_kept w h
  refine ⟨hk.here.trans hw.here, Nat.le_trans hw.next hk.next, hk.locked.trans hw.locked, fun l => ?_⟩
  by_cases hl : h.location = l
  · subst hl
    unfold Volume.discard
    split
    · rename_i id content hfile
      refine Or.inr (Or.inr (Or.inr ⟨hQ, fun hd => ?_, ?_⟩))
      · rw [hw.kept.directory _ hd] at hfile
        cases hfile
      · rw [lookup_removeEntry w (fun he => by simp [he] at hfile), if_pos rfl]
    · exact hw.entry h.location
  · have same : (w.discard h).lookup l = w.lookup l := by
      unfold Volume.discard
      split
      · rename_i id content hfile
        rw [lookup_removeEntry w (fun he => by simp [he] at hfile), if_neg hl]
      · rfl
    rw [same]
    exact hw.entry l

/-- What was written to a file that is gone in the end does not matter. -/
theorem of_modify {f : Content → Content} (hw : Harmless s path Q (v.modify h f) w) (hp : StagingPlace h.location)
    (gone : ∀ id content, w.lookup h.location ≠ some (.file id content)) : Harmless s path Q v w := by
  have hk := modify_kept (v := v) (h := h) f
  have hsite : s.site (v.modify h f) path = s.site v path := Store.site_congr hk.here
  have hrec : (v.modify h f).record? (s.site v path) = v.record? (s.site v path) :=
    hk.record? fun he => (s.site v path).record_not_staging (he ▸ hp)
  have hlook := lookup_modify (v := v) (h := h) f
  refine ⟨hw.here.trans hk.here, Nat.le_trans hk.next hw.next, hw.locked.trans hk.locked, fun l => ?_⟩
  have entry := hw.entry l
  rw [hsite, hrec, hk.start] at entry
  by_cases hl : h.location = l
  · subst hl
    -- What stands there in the end is no file, so it was none before either.
    rcases entry with he | ⟨hway, hn, hd⟩ | ⟨-, -, -, id, hfile⟩ | ⟨hq, hd, hn⟩
    · rw [hlook] at he
      split at he
      · rw [if_pos rfl] at he
        exact absurd he (gone _ _)
      · exact Or.inl he
    · rw [hlook] at hn
      split at hn
      · rw [if_pos rfl] at hn
        cases hn
      · exact Or.inr (Or.inl ⟨hway, hn, hd⟩)
    · exact absurd hfile (gone _ _)
    · refine Or.inr (Or.inr (Or.inr ⟨hq, fun hv => hd (hk.directory _ hv), hn⟩))
  · have same : (v.modify h f).lookup l = v.lookup l := by
      rw [hlook]
      split
      · exact if_neg hl
      · rfl
    rwa [same] at entry

end Harmless

/-! ### Asking for a lease -/

namespace Store
variable {s : Store} {v v₁ w : Volume} {path file : String} {Q : Location → Prop} {h : Handle} {lease : Lease}
  {σ : Site} {content : Content}

/-- Opening a record file changes nothing but at the record. -/
theorem lookup_of_openOrCreate {p : String} (ho : v.openOrCreate p = (.ok h, w)) {l : Location}
    (hl : l ≠ h.location) :
    w.lookup l = v.lookup l := by
  obtain ⟨dir, name, -, -, hloc, ⟨_, -, rfl⟩ | ⟨-, -, rfl⟩⟩ := openOrCreate_ok ho
  · rfl
  · exact (lookup_setEntry v (hloc ▸ concat_ne_nil) _ l).trans (if_neg (Ne.symm hl))

/-- A record that could not be read makes room for the initial one. -/
theorem opened_harmless (o : Opened s path v w h σ content)
    (ho : (s.entered path v).openOrCreate (Path.sidecar file) = (.ok h, w))
    (hu : w.isLocked h = false) (hnone : ∀ r, Record.decode content.toList ≠ .ok r) :
    Harmless s path Q v (((w.lock h).modify h fun _ => .ofBytes Record.initial.encode).unlock h) := by
  obtain ⟨hkm, hlook⟩ := o.written Record.initial.encode
  have hk := (o.kept.lock.trans hkm).unlock (o.unlocked hu)
  have hsite : σ = s.site v path := by rw [o.leads.eq_site, site_congr o.kept.here]
  refine ⟨hk.here, hk.next, hk.locked, fun l => ?_⟩
  rw [lookup_unlock]
  by_cases hl : l = σ.record
  · subst hl
    refine Or.inr (Or.inr (Or.inl ⟨hsite ▸ rfl, ?_, fun hd => ?_, h.id, hlook⟩))
    · rw [← hsite, Option.eq_none_iff_forall_ne_some]
      intro r hr
      obtain ⟨id, content', hfile, hdec⟩ := record?_eq_some.mp hr
      rcases o.found with hsame | ⟨hfree, -⟩
      · rw [← hsame, o.file] at hfile
        cases hfile
        exact hnone r hdec
      · rw [content?_eq_some.mpr ⟨id, hfile⟩] at hfree
        cases hfree
    · have := o.kept.directory _ hd
      rw [o.file] at this
      cases this
  · have same : ((w.lock h).modify h fun _ => .ofBytes Record.initial.encode).lookup l =
        (s.entered path v).lookup l := by
      rw [lookup_modify, show (w.lock h).read? h = some content from o.read?,
        ← lookup_of_openOrCreate ho (o.location ▸ hl)]
      exact if_neg (o.location ▸ Ne.symm hl)
    rw [same]
    exact (Harmless.entered s path Q v).entry l

/-- A record file that holds something was not made by opening it. -/
theorem entered_of_opened (o : Opened s path v w h σ content)
    (ho : (s.entered path v).openOrCreate (Path.sidecar file) = (.ok h, w))
    (hne : content.toList ≠ []) : w = s.entered path v := by
  obtain ⟨dir, name, -, -, hloc, ⟨_, -, hw⟩ | ⟨-, hid, rfl⟩⟩ := openOrCreate_ok ho
  · exact hw
  · have hfile : ((s.entered path v).create h.location).2.lookup h.location = some (.file h.id .empty) := by
      rw [hid]
      exact (lookup_setEntry _ (hloc ▸ concat_ne_nil) _ _).trans (if_pos rfl)
    have hrecord := o.file
    rw [← o.location, hfile] at hrecord
    cases hrecord
    exact absurd rfl hne

theorem acquire_ok_harmless (ha : s.acquire path v = (.ok lease, w)) :
    Harmless s path Q v (w.unlock lease.handle) := by
  rcases s.acquire_entered path v with ⟨e, he⟩ | ⟨file, h, v₂, hr, ho, ⟨-, he⟩ | ⟨hu, hg⟩⟩
  · cases he.symm.trans ha
  · cases he.symm.trans ha
  obtain ⟨σ, content, o⟩ := opened_of_ok (s.entered_kept path v) hr ho
  obtain ⟨-, rfl, -, hcase⟩ := grant_ok (hg.symm.trans ha)
  rw [o.read?] at hcase
  rcases hcase with ⟨-, rfl, hdec⟩ | ⟨-, -, hempty, rfl⟩
  · have hne : content.toList ≠ [] := Record.ne_nil_of_decode hdec
    obtain rfl := entered_of_opened o ho hne
    have hk := (o.kept.lock (h := lease.handle)).unlock (o.unlocked hu)
    exact ⟨hk.here, hk.next, hk.locked, (Harmless.entered s path Q v).entry⟩
  · exact opened_harmless o ho hu fun r hr => Record.ne_nil_of_decode hr hempty

/-- No file that is locked is yet to be made. -/
theorem acquire_error_harmless {e : Fault} (ha : s.acquire path v = (.error e, w))
    (hlocks : ∀ id ∈ v.locked, id < v.nextId) :
    Harmless s path Q v w := by
  rcases s.acquire_entered path v with ⟨e', he⟩ | ⟨file, h, v₂, hr, ho, ⟨hlock, he⟩ | ⟨hu, hg⟩⟩
  · cases he.symm.trans ha
    exact .entered s path Q v
  · cases he.symm.trans ha
    obtain ⟨dir, name, -, -, -, ⟨_, -, rfl⟩ | ⟨-, hid, rfl⟩⟩ := openOrCreate_ok ho
    · exact .entered s path Q v
    · have hkept := s.entered_kept path v fun _ => False
      have hmem : h.id ∈ v.locked := by
        rw [← hkept.locked]
        simpa [isLocked, create, setEntry, setLevel] using hlock
      have := hlocks _ hmem
      have := hkept.next
      omega
  · obtain ⟨σ, content, o⟩ := opened_of_ok (s.entered_kept path v) hr ho
    obtain ⟨fault, -, -, hdec, rfl⟩ := grant_error (hg.symm.trans ha)
    rw [o.read?] at hdec
    have hdec : Record.decode content.toList = .error fault := hdec
    exact opened_harmless o ho hu fun r hr => by simp [hdec] at hr

end Store

end TreeReplica
