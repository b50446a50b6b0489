import TreeReplica.Proofs.Volume.StagingName
import TreeReplica.Store

/-! The file and the record of a tracked path stand at one `Site`, which two paths share exactly when they
    share their record. -/

namespace TreeReplica
open Volume

/-! ### Sites -/

/-- Where a tracked path has its file and its record: under two names of one directory. -/
structure Site where
  dir : Location
  name : String
  deriving DecidableEq

namespace Site

def file (σ : Site) : Location := σ.dir ++ [σ.name]

def record (σ : Site) : Location := σ.dir ++ [Path.recordName σ.name]

variable {σ τ : Site}

theorem record_ne_nil : σ.record ≠ [] := concat_ne_nil

theorem file_injective (h : σ.file = τ.file) : σ = τ := by
  obtain ⟨hd, hn⟩ := List.append_inj' h rfl
  cases σ
  cases τ
  cases hd
  cases hn
  rfl

theorem record_injective (h : σ.record = τ.record) : σ = τ := by
  obtain ⟨hd, hn⟩ := List.append_inj' h rfl
  cases σ
  cases τ
  cases hd
  cases Path.recordName_injective (List.cons.inj hn).1
  rfl

theorem recordPlace_record (σ : Site) : RecordPlace σ.record := ⟨σ.dir, σ.name, rfl⟩

theorem record_not_staging (σ : Site) : ¬StagingPlace σ.record := fun h => h.not_recordPlace σ.recordPlace_record

end Site

namespace Volume

/-- The record at a site, if there is a readable one. -/
def record? (v : Volume) (σ : Site) : Option Record :=
  match v.content? σ.record with
  | none => none
  | some content => (Record.decode content.toList).toOption

theorem content?_eq_some {v : Volume} {l : Location} {content : Content} :
    v.content? l = some content ↔ ∃ id, v.lookup l = some (.file id content) := by
  unfold content?
  split
  · rename_i id c hl
    simp [hl]
  · rename_i hl
    constructor
    · intro h
      cases h
    · rintro ⟨id, hf⟩
      exact absurd hf (hl id content)

theorem record?_eq_some {v : Volume} {σ : Site} {r : Record} :
    v.record? σ = some r ↔
      ∃ id content, v.lookup σ.record = some (.file id content) ∧ Record.decode content.toList = .ok r := by
  unfold record?
  constructor
  · intro h
    split at h
    · cases h
    · rename_i content hc
      obtain ⟨id, hl⟩ := content?_eq_some.mp hc
      refine ⟨id, content, hl, ?_⟩
      cases hd : Record.decode content.toList with
      | error e => simp [hd, Except.toOption] at h
      | ok r' => simpa [hd, Except.toOption] using h
  · rintro ⟨id, content, hl, hd⟩
    rw [content?_eq_some.mpr ⟨id, hl⟩]
    simp [hd, Except.toOption]

theorem Kept.content? {P : Location → Prop} {v w : Volume} (h : Kept P v w) {l : Location} (hl : ¬P l) :
    w.content? l = v.content? l := by
  unfold Volume.content?
  rcases h.same l hl with hs | ⟨hn, hd⟩
  · rw [hs]
  · rw [hn, hd]

theorem Kept.record? {P : Location → Prop} {v w : Volume} (h : Kept P v w) {σ : Site} (hσ : ¬P σ.record) :
    w.record? σ = v.record? σ := by
  unfold Volume.record?
  rw [h.content? hσ]

end Volume

namespace Store

/-- The path leads to the site: to the name of its file, in the directory that the text names. -/
def Leads (s : Store) (v : Volume) (path : String) (σ : Site) : Prop :=
  ∃ file, s.resolve path = .ok file ∧ Path.fileName? file = some σ.name ∧
    v.walk (v.start file) (Path.names file).dropLast = .ok σ.dir

section Leads
variable {s : Store} {v w : Volume} {path : String} {σ τ : Site}

theorem Leads.unique (h : s.Leads v path σ) (h' : s.Leads v path τ) : σ = τ := by
  obtain ⟨file, hr, hn, hw⟩ := h
  obtain ⟨file', hr', hn', hw'⟩ := h'
  cases σ
  cases τ
  cases hr.symm.trans hr'
  cases hn.symm.trans hn'
  cases hw.symm.trans hw'
  rfl

theorem Leads.kept {P : Location → Prop} (h : s.Leads v path σ) (hk : Kept P v w) : s.Leads w path σ := by
  obtain ⟨file, hr, hn, hw⟩ := h
  exact ⟨file, hr, hn, by rw [hk.start]; exact hk.walk hw⟩

theorem Leads.lock (h : s.Leads v path σ) (handle : Handle) : s.Leads (v.lock handle) path σ := by
  obtain ⟨file, hr, hn, hw⟩ := h
  exact ⟨file, hr, hn, walk_mono (v := v) (w := v.lock handle) (fun _ hl => hl) hw⟩

theorem Leads.unlock (h : s.Leads v path σ) (handle : Handle) : s.Leads (v.unlock handle) path σ := by
  obtain ⟨file, hr, hn, hw⟩ := h
  exact ⟨file, hr, hn, walk_mono (v := v) (w := v.unlock handle) (fun _ hl => hl) hw⟩

theorem Leads.not_reserved (h : s.Leads v path σ) : Path.reserved σ.name = false := by
  obtain ⟨file, hr, hn, -⟩ := h
  obtain ⟨name, hname, hres⟩ := Path.fileName?_of_resolve hr
  cases hn.symm.trans hname
  exact hres

theorem Leads.file_not_record (h : s.Leads v path σ) : ¬RecordPlace σ.file := not_recordPlace h.not_reserved

theorem Leads.file_not_staging (h : s.Leads v path σ) : ¬StagingPlace σ.file := not_stagingPlace h.not_reserved

theorem Leads.record_ne_file (h : s.Leads v path σ) : σ.record ≠ σ.file := fun he =>
  h.file_not_record (he ▸ σ.recordPlace_record)

theorem leads_of_locate {file name : String} {dir : Location} {slash : Bool} (hr : s.resolve path = .ok file)
    (hl : v.locate file = .ok (.inside dir name slash)) : s.Leads v path ⟨dir, name⟩ := by
  obtain ⟨-, hn, hw⟩ := locate_inside hl
  exact ⟨file, hr, hn, hw⟩

theorem leads_of_locate_sidecar {file name : String} {dir : Location} {slash : Bool}
    (hr : s.resolve path = .ok file) (hl : v.locate (Path.sidecar file) = .ok (.inside dir name slash)) :
    ∃ σ, s.Leads v path σ ∧ dir ++ [name] = σ.record := by
  obtain ⟨tracked, ht, -⟩ := Path.fileName?_of_resolve hr
  obtain ⟨-, hn, hw⟩ := locate_inside hl
  rw [Path.names_sidecar ht, List.dropLast_concat] at hw
  have hname : name = Path.recordName tracked := by
    have := (Option.filter_eq_some_iff.mp hn).1
    rw [Path.names_sidecar ht, List.getLast?_concat] at this
    exact (Option.some.inj this).symm
  have hstart : v.start (Path.sidecar file) = v.start file := by
    unfold start
    rw [Path.absolute_sidecar ht]
  rw [hstart] at hw
  exact ⟨⟨dir, tracked⟩, ⟨file, hr, ht, hw⟩, by rw [hname]; rfl⟩

end Leads

end Store

/-! ### Locks -/

namespace Volume
variable {P : Location → Prop} {v w : Volume} {h : Handle}

@[simp]
theorem lookup_unlock (v : Volume) (h : Handle) (l : Location) : (v.unlock h).lookup l = v.lookup l := rfl

/-- Giving back the lock that was taken leaves the locks as they were. -/
theorem Kept.unlock (hk : Kept P (v.lock h) w) (hu : v.isLocked h = false) : Kept P v (w.unlock h) where
  here := hk.here
  next := hk.next
  locked := by
    have hmem : h.id ∉ v.locked := by simpa [isLocked] using hu
    show w.locked.filter (· ≠ h.id) = v.locked
    rw [hk.locked]
    show (h.id :: v.locked).filter (· ≠ h.id) = v.locked
    rw [List.filter_cons_of_neg (by simp), List.filter_eq_self]
    intro id hid
    have hne : id ≠ h.id := fun he => hmem (he ▸ hid)
    simpa using hne
  directory := hk.directory
  same := hk.same

theorem Kept.lock (hk : Kept P v w) : Kept P (v.lock h) (w.lock h) where
  here := hk.here
  next := hk.next
  locked := by
    show h.id :: w.locked = h.id :: v.locked
    rw [hk.locked]
  directory := hk.directory
  same := hk.same

end Volume

end TreeReplica
