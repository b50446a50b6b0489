import TreeReplica.Proofs.Lease
import TreeReplica.Transfer

/-! Transfers and their staging files. A transfer begins with a new file at a place where nothing was
    (`Begun`), writes to that file alone, and ends with that file in the place of the tracked one
    (`Leads.moved`) or gone. What transfers of other paths have staged stays. -/

namespace TreeReplica
open Volume

namespace Volume
variable {v w : Volume} {h : Handle}

theorem discard_staging (v : Volume) (hp : StagingPlace h.location) : Kept StagingPlace v (v.discard h) :=
  (discard_kept v h).mono fun _ hl => hl ▸ hp

theorem modify_staging (v : Volume) (hp : StagingPlace h.location) (f : Content → Content) :
    Kept StagingPlace v (v.modify h f) := (modify_kept f).mono fun _ hl => hl ▸ hp

theorem Kept.free {P : Location → Prop} (hk : Kept P v w) {l : Location} (hl : ¬P l) (hw : w.lookup l = none) :
    v.lookup l = none := by
  rcases hk.same l hl with h | ⟨h, -⟩
  · rw [← h, hw]
  · exact h

end Volume

/-- A place for a staging file where nothing is yet. -/
def Volume.Unused (v : Volume) (l : Location) : Prop := StagingPlace l ∧ v.lookup l = none

/-- What is moved to the file of a path stands at the site of the path, and its text finds it there. -/
theorem Store.Leads.moved {s : Store} {v w : Volume} {path file : String} {σ : Site} {h : Handle}
    (hl : s.Leads v path σ) (hr : s.resolve path = .ok file) (hm : v.move h file = (.ok (), w)) :
    ∃ content, v.read? h = some content ∧ w.find file = .ok (σ.file, .file h.id content) ∧
      Kept (fun l => l = h.location ∨ l = σ.file) v w := by
  obtain ⟨dir, name, content, hloc, hsize, hf, hd, rfl⟩ := move_ok hm
  obtain rfl : σ = ⟨dir, name⟩ := hl.unique (leads_of_locate hr hloc)
  have hk := move_ok_kept hf hd
  refine ⟨content, read?_eq_some.mpr hf, find_of_locate (hk.locate hloc) hsize ?_, hk⟩
  rw [lookup_setEntry _ concat_ne_nil, if_pos rfl]

namespace Transfer

/-! ### Beginning -/

/-- A transfer as it began for a notice: its staging file is new and blank. -/
structure Begun (notice : NewVersion) (p : Pull) (v w : Volume) (t : Transfer) : Prop where
  path : t.path = notice.path
  pull : t.pull = p
  client : t.client = notice.client
  size : t.size = notice.size
  received : t.received = []
  unused : v.Unused t.staging.location
  numbered : v.nextId ≤ t.staging.id ∧ t.staging.id < w.nextId
  blank : ∃ content, w.read? t.staging = some content ∧ content.toList = List.replicate notice.size.toNat 0

section Begin
variable {s : Store} {notice : NewVersion} {p : Pull} {v w : Volume} {t : Transfer}

theorem begin_cases (s : Store) (notice : NewVersion) (p : Pull) (v : Volume) :
    ∃ w, Kept v.Unused v w ∧ ((∃ e, begin s notice p v = (.error e, w) ∧ ∀ why, e ≠ .stale why) ∨
      ∃ t, begin s notice p v = (.ok t, w) ∧ Begun notice p v w t ∧ t.outstanding = .empty) := by
  unfold begin
  split
  · rename_i e hr
    obtain ⟨why, rfl⟩ := Store.resolve_error hr
    exact ⟨v, .refl _ v, Or.inl ⟨_, rfl, fun _ => Fault.noConfusion⟩⟩
  rename_i file hr
  have hk₁ := createDirectories_kept v.Unused v (Path.parent file)
  split
  · rename_i e v₁ hc
    rw [hc] at hk₁
    exact ⟨v₁, hk₁, Or.inl ⟨_, rfl, fun _ => Fault.noConfusion⟩⟩
  rename_i v₁ hc
  rw [hc] at hk₁
  dsimp only at hk₁ ⊢
  split
  · rename_i e v₂ hs
    rw [createStaging_error hs]
    exact ⟨v₁, hk₁, Or.inl ⟨_, rfl, fun _ => Fault.noConfusion⟩⟩
  rename_i h v₂ hs
  obtain ⟨hp, hfree, hid, rfl⟩ := createStaging_ok hs
  have hne : h.location ≠ [] := fun he => by simp [he] at hfree
  have hunused : v.Unused h.location := by
    have hk := createDirectories_kept (fun _ => False) v (Path.parent file)
    rw [hc] at hk
    exact ⟨hp, hk.free id hfree⟩
  have hk₂ : Kept v.Unused v (v₁.create h.location).2 :=
    hk₁.trans ((Kept.create hne (by rw [hfree]; simp)).mono fun l hl => hl ▸ hunused)
  have hread : (v₁.create h.location).2.read? h = some .empty := by
    rw [read?_eq_some, hid]
    show (v₁.setEntry h.location _).lookup h.location = _
    rw [lookup_setEntry v₁ hne, if_pos rfl]
  rcases (v₁.create h.location).2.resize_cases h notice.size.toNat with ⟨e, hz⟩ | hz
  · rw [hz]
    exact ⟨_, hk₂.trans ((discard_kept _ h).mono fun l hl => hl ▸ hunused),
      Or.inl ⟨_, rfl, fun _ => Fault.noConfusion⟩⟩
  · rw [hz]
    have hk₃ := modify_kept (v := (v₁.create h.location).2) (h := h) (·.resize notice.size.toNat)
    refine ⟨_, hk₂.trans (hk₃.mono fun l hl => hl ▸ hunused),
      Or.inr ⟨_, rfl, ⟨rfl, rfl, rfl, rfl, rfl, hunused, ⟨?_, ?_⟩,
        Content.empty.resize notice.size.toNat, ?_, ?_⟩, rfl⟩⟩
    · rw [hid]
      exact hk₁.next
    · rw [hid]
      exact Nat.lt_of_lt_of_le (Nat.lt_succ_self v₁.nextId) hk₃.next
    · rw [read?_eq_some, lookup_modify, hread]
      exact if_pos rfl
    · rw [Content.toList_resize]
      simp [Content.empty, Content.toList]

theorem begun_of_begin (hb : begin s notice p v = (.ok t, w)) :
    Kept v.Unused v w ∧ Begun notice p v w t ∧ t.outstanding = .empty := by
  obtain ⟨w', hk, ⟨e, he, -⟩ | ⟨t', hb', began, empty⟩⟩ := begin_cases s notice p v
  · rw [hb] at he
    cases he
  · cases hb.symm.trans hb'
    exact ⟨hk, began, empty⟩

/-- A transfer that can begin can do so whatever it is for. -/
theorem begin_pull (hb : begin s notice p v = (.ok t, w)) (q : Pull) :
    begin s notice q v = (.ok { t with pull := q }, w) := by
  unfold begin at hb ⊢
  split at hb
  · cases hb
  split at hb
  · cases hb
  split at hb
  · cases hb
  split at hb <;> cases hb
  rfl

/-- As long as nothing has arrived, only an empty file is complete. -/
theorem complete_of_received_nil (h : t.received = []) : t.complete = decide (t.size = 0) := by
  simp [complete, Ranges.full, h, ← UInt64.toNat_inj]

theorem Begun.complete (b : Begun notice p v w t) : t.complete = decide (notice.size = 0) := by
  rw [complete_of_received_nil b.received, b.size]

end Begin

theorem requests_snd (t : Transfer) (chunkSize : UInt32) :
    ∃ outstanding, (t.requests chunkSize).2 = { t with outstanding := outstanding } := by
  have fold : ∀ (parts : List (Nat × Nat)) (t : Transfer),
      ∃ outstanding, parts.foldl (fun t part => t.ask part.1 part.2) t = { t with outstanding := outstanding } := by
    intro parts
    induction parts with
    | nil => exact fun t => ⟨t.outstanding, rfl⟩
    | cons part parts ih =>
      intro t
      obtain ⟨outstanding, h⟩ := ih (t.ask part.1 part.2)
      exact ⟨outstanding, h⟩
  exact fold _ t

@[simp]
theorem staging_requests (t : Transfer) (chunkSize : UInt32) : (t.requests chunkSize).2.staging = t.staging := by
  obtain ⟨outstanding, h⟩ := t.requests_snd chunkSize
  rw [h]

theorem path_of_mem_requests {t : Transfer} {chunkSize : UInt32} {request : ChunkRequest}
    (h : request ∈ (t.requests chunkSize).1) :
    request.path = t.path := by
  obtain ⟨part, -, rfl⟩ := List.mem_map.mp h
  rfl

theorem Begun.requests {notice : NewVersion} {p : Pull} {v w : Volume} {t : Transfer} (b : Begun notice p v w t)
    (chunkSize : UInt32) : Begun notice p v w (t.requests chunkSize).2 := by
  obtain ⟨outstanding, h⟩ := t.requests_snd chunkSize
  rw [h]
  exact { b with }

theorem Begun.later {P : Location → Prop} {notice : NewVersion} {p : Pull} {u v w : Volume} {t : Transfer}
    (b : Begun notice p u v t) (hk : Kept P v w) (hP : ¬P t.staging.location) : Begun notice p u w t := by
  obtain ⟨content, hread, hblank⟩ := b.blank
  have hread' := read?_eq_some.mpr (hk.file hP (read?_eq_some.mp hread))
  exact { b with
    numbered := ⟨b.numbered.1, Nat.lt_of_lt_of_le b.numbered.2 hk.next⟩
    blank := ⟨content, hread', hblank⟩ }

theorem note_snd (t : Transfer) (chunk : FileChunk) :
    ∃ outstanding, (t.note chunk).2 =
      { t with received := t.received.cover chunk.offset.toNat (stopOf chunk), outstanding := outstanding } := by
  unfold note
  dsimp only
  split
  · exact ⟨_, rfl⟩
  · split <;> exact ⟨_, rfl⟩

@[simp]
theorem path_note (t : Transfer) (chunk : FileChunk) : (t.note chunk).2.path = t.path := by
  obtain ⟨outstanding, hn⟩ := t.note_snd chunk
  rw [hn]

@[simp]
theorem pull_note (t : Transfer) (chunk : FileChunk) : (t.note chunk).2.pull = t.pull := by
  obtain ⟨outstanding, hn⟩ := t.note_snd chunk
  rw [hn]

@[simp]
theorem client_note (t : Transfer) (chunk : FileChunk) : (t.note chunk).2.client = t.client := by
  obtain ⟨outstanding, hn⟩ := t.note_snd chunk
  rw [hn]

@[simp]
theorem staging_note (t : Transfer) (chunk : FileChunk) : (t.note chunk).2.staging = t.staging := by
  obtain ⟨outstanding, hn⟩ := t.note_snd chunk
  rw [hn]

theorem note_fst {t : Transfer} {chunk : FileChunk} {rest : ChunkRequest} (h : (t.note chunk).1 = some rest) :
    rest.path = t.path ∧ rest.client = t.client := by
  unfold note at h
  dsimp only at h
  split at h
  · cases h
  · split at h
    · cases h
    · cases h
      exact ⟨rfl, rfl⟩

theorem stopOf_le_of_fault? {t : Transfer} {chunk : FileChunk} (hf : t.fault? chunk = none) :
    stopOf chunk ≤ t.size.toNat := by
  unfold fault? at hf
  split at hf
  · cases hf
  · split at hf
    · cases hf
    · rename_i h
      exact Nat.not_lt.mp h

/-- The end of a chunk is cut off only at the largest number, which no file is as long as. -/
theorem reach_of_fault? {t : Transfer} {chunk : FileChunk} (hf : t.fault? chunk = none)
    (bounded : t.size.toNat ≤ maxSize) :
    stopOf chunk = chunk.offset.toNat + chunk.data.length ∧
    chunk.offset.toNat + chunk.data.length ≤ t.size.toNat := by
  have hle := stopOf_le_of_fault? hf
  have : maxSize < UInt64.size - 1 := by decide
  unfold stopOf at hle ⊢
  omega

/-- Content is put in place, or the staging file goes. -/
theorem install_cases (t : Transfer) (file : String) (v : Volume) :
    (∃ w, v.move t.staging file = (.ok (), w) ∧ t.install file v = (.ok (), w)) ∨
      ∃ e, t.install file v = (.error (.io e), t.abandon v) := by
  unfold install
  split
  · rename_i w hm
    exact Or.inl ⟨w, hm, rfl⟩
  · rename_i e w hm
    rw [move_error hm]
    exact Or.inr ⟨_, rfl⟩

end Transfer

/-! ### The transfers of a connection -/

namespace Transfers

/-- All transfers write to files at places of staging files. -/
def Staged (ts : Transfers) : Prop := ∀ t ∈ ts.values, StagingPlace t.staging.location

variable {ts : Transfers} {t : Transfer} {path : String}

theorem staged_empty : Staged .empty := fun _ h => by cases h

theorem Staged.of_get? (h : ts.Staged) (ht : ts.get? path = some t) : StagingPlace t.staging.location :=
  h t (Table.mem_values_of_get? ht)

theorem Staged.insert (h : ts.Staged) (hp : StagingPlace t.staging.location) : Staged (Table.insert ts path t) :=
  fun t' ht => by
    rcases Table.mem_values_insert ht with rfl | ht
    · exact hp
    · exact h t' ht

theorem Staged.erase (h : ts.Staged) (path : String) : Staged (Table.erase ts path) :=
  fun t' ht => h t' (Table.mem_values_erase ht)

theorem Staged.drop (h : ts.Staged) (path : String) (v : Volume) :
    Staged (ts.drop path v).1 ∧ Kept StagingPlace v (ts.drop path v).2 := by
  unfold Transfers.drop
  split
  · rename_i t ht
    exact ⟨h.erase path, discard_staging v (h.of_get? ht)⟩
  · exact ⟨h, .refl _ v⟩

theorem Staged.add (h : ts.Staged) (hp : StagingPlace t.staging.location) (v : Volume) :
    Staged (ts.add t v).1 ∧ Kept StagingPlace v (ts.add t v).2 := by
  obtain ⟨hs, hk⟩ := h.drop t.path v
  exact ⟨hs.insert hp, hk⟩

theorem get?_add (ts : Transfers) (t : Transfer) (v : Volume) : (ts.add t v).1.get? t.path = some t := by
  unfold Transfers.add
  dsimp only
  rw [Table.get?_insert, if_pos rfl]

theorem abandonAll_kept (ts : Transfers) (v : Volume) :
    Kept (fun l => ∃ t ∈ ts.values, l = t.staging.location) v (ts.abandonAll v) := by
  unfold Transfers.abandonAll
  generalize ts.values = all
  induction all generalizing v with
  | nil => exact .refl _ v
  | cons t rest ih =>
    refine ((discard_kept v t.staging).mono fun l hl => ⟨t, List.mem_cons_self, hl⟩).trans
      ((ih _).mono fun l hl => ?_)
    obtain ⟨t', ht, hl⟩ := hl
    exact ⟨t', List.mem_cons_of_mem _ ht, hl⟩

theorem Staged.abandonAll (h : ts.Staged) (v : Volume) : Kept StagingPlace v (ts.abandonAll v) :=
  (abandonAll_kept ts v).mono fun _ ⟨t, ht, hl⟩ => hl ▸ h t ht

end Transfers

end TreeReplica
