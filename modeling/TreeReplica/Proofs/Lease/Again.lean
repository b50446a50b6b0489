import TreeReplica.Proofs.Places

/-! A lease that could be had can be had later. What it takes is a way to the directory of the record, the
    record file as it was, and no lock on it (`Store.acquires_again`); more directories on the way do no harm. -/

namespace TreeReplica
open Volume

namespace Volume
variable {v v' w : Volume} {path name : String} {dir l : Location} {h : Handle}

theorem read?_create (hne : l ≠ []) : (v.create l).2.read? (v.create l).1 = some .empty := by
  rw [read?_eq_some]
  exact (lookup_setEntry v hne _ l).trans (if_pos rfl)

/-- Who opens a place on two volumes that agree there reads the same, and finds no lock that was not there. -/
theorem openOrCreate_again (ho : v.openOrCreate path = (.ok h, v'))
    (hl : v.locate path = .ok (.inside dir name false)) (hl' : w.locate path = .ok (.inside dir name false))
    (hsame : w.lookup (dir ++ [name]) = v.lookup (dir ++ [name]))
    (hlocked : ∀ {id content}, v.lookup (dir ++ [name]) = some (.file id content) →
      id ∉ v.locked → id ∉ w.locked)
    (hnext : w.nextId ∉ w.locked) :
    ∃ h' w', w.openOrCreate path = (.ok h', w') ∧ w'.read? h' = v'.read? h ∧
    (v'.isLocked h = false → w'.isLocked h' = false) := by
  obtain ⟨_, _, hloc, hsize, hplace, hcase⟩ := openOrCreate_ok ho
  cases hl.symm.trans hloc
  rw [hplace] at hcase
  rcases hcase with ⟨content, hf, rfl⟩ | ⟨hn, hid, rfl⟩
  · have hf' := hsame.trans hf
    refine ⟨_, w, openOrCreate_file hl' hsize hf', ?_, fun hu => ?_⟩
    · rw [read?_eq_some.mpr hf', read?_eq_some.mpr (hplace ▸ hf)]
    · simpa [isLocked] using hlocked hf (by simpa [isLocked] using hu)
  · have hopen : w.openOrCreate path = (.ok (w.create (dir ++ [name])).1, (w.create (dir ++ [name])).2) := by
      unfold openOrCreate
      simp [hl', Nat.not_lt.mpr hsize, hsame.trans hn]
    have hh : h = (v.create (dir ++ [name])).1 := by
      cases h
      cases hplace
      cases hid
      rfl
    refine ⟨_, _, hopen, ?_, fun _ => ?_⟩
    · rw [read?_create concat_ne_nil, hh, read?_create concat_ne_nil]
    · show w.locked.contains w.nextId = false
      simpa using hnext

end Volume

namespace Store
variable {s : Store} {v w v' : Volume} {p file : String} {lease : Lease}

theorem acquire_eq_ok : s.acquire p v = (.ok lease, w) ↔
    ∃ file h v₁ v₂, s.resolve p = .ok file ∧
    v.createDirectories (Path.parent (Path.sidecar file)) = (.ok (), v₁) ∧
      v₁.openOrCreate (Path.sidecar file) = (.ok h, v₂) ∧ v₂.isLocked h = false ∧
      grant p file h v₂ = (.ok lease, w) := by
  unfold acquire
  constructor
  · intro ha
    split at ha
    · simp at ha
    rename_i file hr
    dsimp only at ha
    split at ha
    · simp at ha
    rename_i v₁ hc
    split at ha
    · simp at ha
    rename_i h v₂ ho
    split at ha
    · simp at ha
    rename_i hu
    exact ⟨file, h, v₁, v₂, hr, hc, ho, Bool.eq_false_iff.mpr hu, ha⟩
  · rintro ⟨file, h, v₁, v₂, hr, hc, ho, hu, hg⟩
    simp only [hr, hc, ho, hu, hg, Bool.false_eq_true, if_false]

/-- What is granted hangs on what the record file holds. -/
theorem grant_again {h h' : Handle} (hread : (w.read? h').getD .empty = (v.read? h).getD .empty)
    (hg : grant p file h v = (.ok lease, v')) :
    ∃ lease' w', grant p file h' w = (.ok lease', w') ∧ lease'.record = lease.record ∧
    lease'.fresh = lease.fresh := by
  unfold grant at hg ⊢
  dsimp only at hg ⊢
  have hw : (w.lock h').read? h' = w.read? h' := rfl
  have hv : (v.lock h).read? h = v.read? h := rfl
  rw [hw, hread]
  rw [hv] at hg
  split at hg
  · simp at hg
  · cases hg
    exact ⟨_, _, rfl, rfl, rfl⟩
  · cases hg
    exact ⟨_, _, rfl, rfl, rfl⟩

/-- The texts of a record and of its directory lead along the way of the path. -/
theorem texts_of_resolve (hr : s.resolve p = .ok file) :
    Path.names (Path.parent (Path.sidecar file)) = s.way p ∧ (Path.names (Path.sidecar file)).dropLast = s.way p ∧
      v.start (Path.parent (Path.sidecar file)) = v.start s.root ∧
      v.start (Path.sidecar file) = v.start s.root := by
  obtain ⟨hnames, hstart⟩ := names_of_resolve (v := v) hr
  obtain ⟨-, -, -, name, -, hname, -⟩ := Path.names_of_resolve hr
  have hway : (Path.names (Path.sidecar file)).dropLast = s.way p := by
    rw [Path.names_sidecar hname, List.dropLast_concat, hnames]
  rw [← hstart]
  unfold Volume.start
  rw [Path.absolute_parent, Path.absolute_sidecar hname]
  exact ⟨by rw [Path.names_parent, hway], hway, rfl, rfl⟩

/-- Directories on the way do not stand in the way of a lease, as long as the record file and its lock are as
    they were. -/
theorem acquires_again (ha : s.acquire p v = (.ok lease, v')) (here : w.here = v.here)
    (hway : ∀ l, OnWay (v.start s.root) (s.way p) l → w.lookup l = v.lookup l ∨ w.lookup l = some .directory)
    (hrec : w.lookup (s.site v p).record = v.lookup (s.site v p).record)
    (hlocked : ∀ {id content}, v.lookup (s.site v p).record = some (.file id content) →
      id ∉ v.locked → id ∉ w.locked)
    (hnext : ∀ id ∈ w.locked, id < w.nextId) :
    ∃ lease' w', s.acquire p w = (.ok lease', w') ∧ lease'.record = lease.record ∧ lease'.fresh = lease.fresh := by
  obtain ⟨file, h, v₁, v₂, hr, hc, ho, hu, hg⟩ := acquire_eq_ok.mp ha
  have hk : Kept (fun _ => False) v v₁ := by
    simpa [hc] using createDirectories_kept (fun _ => False) v (Path.parent (Path.sidecar file))
  obtain ⟨dir, last, hl, -, hplace, hcase⟩ := openOrCreate_ok ho
  obtain ⟨hbad, -, hwalk⟩ := locate_inside hl
  obtain ⟨-, hsidecar, -, hstart⟩ := texts_of_resolve (v := v₁) hr
  have hroot : v₁.start s.root = v.start s.root := hk.start _
  rw [hstart, hroot, hsidecar] at hwalk
  -- The directories can be made on `w` as well, and lead to the same place.
  obtain ⟨hparent, -, hwhere, -⟩ := texts_of_resolve (v := w) hr
  have hroot' : w.start s.root = v.start s.root := by
    unfold Volume.start
    rw [here]
  have hpass : w.Passable (w.start (Path.parent (Path.sidecar file)))
      (Path.names (Path.parent (Path.sidecar file))) := by
    rw [hwhere, hroot', hparent]
    exact (passable_of_walk hk hwalk).filled hway
  obtain ⟨w₁, d, hc₁, hd⟩ := createDirectories_walk (Path.plain_parent _)
    (fun hne => badText?_mono (Path.prefix_parent (Path.sidecar file)) hne hbad) hpass
  have hmade := createDirectories_within (fun _ => False) w (Path.parent (Path.sidecar file))
  rw [hc₁, hwhere, hroot', hparent] at hmade
  rw [hwhere, hroot', hparent] at hd
  have hk₁ : Kept (fun _ => False) w w₁ := by
    simpa [hc₁] using createDirectories_kept (fun _ => False) w (Path.parent (Path.sidecar file))
  obtain rfl : d = dir := (walk_eq_follow hd).trans (walk_eq_follow hwalk).symm
  have hl₁ : w₁.locate (Path.sidecar file) = .ok (.inside d last false) := by
    refine locate_of_walk hl ?_
    rw [(texts_of_resolve (v := w₁) hr).2.2.2, hk₁.start, hroot', hsidecar, hd]
  -- The record file is what it was.
  have hsite : d ++ [last] = (s.site v p).record := by
    obtain ⟨σ, hlead, hσ⟩ := leads_of_locate_sidecar hr hl
    rw [hσ, hlead.eq_site, site_congr hk.here]
  rw [hplace] at hcase
  have hnot : v₁.lookup (d ++ [last]) ≠ some .directory := by
    rcases hcase with ⟨content, hf, -⟩ | ⟨hn, -, -⟩
    · simp [hf]
    · simp [hn]
  have hv : v₁.lookup (d ++ [last]) = v.lookup (d ++ [last]) := (hk.same _ id).resolve_right fun h => hnot h.2
  have hw : w₁.lookup (d ++ [last]) = w.lookup (d ++ [last]) :=
    (hmade.same _ id).resolve_right fun h => hnot (lookup_of_walk hwalk h.1)
  have hsame : w₁.lookup (d ++ [last]) = v₁.lookup (d ++ [last]) := by rw [hw, hv, hsite, hrec]
  obtain ⟨h', w₂, ho₁, hread, hfree⟩ := openOrCreate_again ho hl hl₁ hsame
    (fun hf hid => hk₁.locked ▸ hlocked (hsite ▸ hv ▸ hf) (hk.locked ▸ hid))
    (fun hm => absurd (hnext _ (hk₁.locked ▸ hm)) (Nat.not_lt.mpr hk₁.next))
  obtain ⟨lease', w', hg', hrecord⟩ := grant_again (by rw [hread]) hg
  exact ⟨lease', w', acquire_eq_ok.mpr ⟨file, h', w₁, w₂, hr, hc₁, ho₁, hfree hu, hg'⟩, hrecord⟩

end Store

end TreeReplica
