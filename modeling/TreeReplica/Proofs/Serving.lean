import TreeReplica.Proofs.Record
import TreeReplica.Proofs.Replication

/-! A node that serves a file while it is edited and committed. Base and edit count of a record never come back
    to a version that they have left (`Version`), as long as the count does not overflow. Chunks tell their edit
    count only, so what they have is of the announced version if the base is still the announced one
    (`Serves.answered`). -/

namespace TreeReplica
open Volume

/-! ### What happens -/

inductive Deed
  | edited (path : String)
  | committed (path : String) (commit : Commit)
  /-- A chunk request was answered, and then the volume was this one. -/
  | answered (request : ChunkRequest) (reply : Except Fault Message) (volume : Volume)

namespace Deed

def isEdit : Deed → Bool
  | edited _ => true
  | _ => false

def edits (ds : List Deed) : Nat := ds.countP isEdit

theorem edits_concat (ds : List Deed) (d : Deed) : edits (ds ++ [d]) = edits ds + if d.isEdit then 1 else 0 := by
  unfold edits
  rw [List.countP_append, List.countP_singleton]

end Deed

/-- What a serving node comes to from `v`, and what happened: users change files and report it at once, and
    peers send commits and ask for chunks. -/
inductive Serves (s : Store) (chunkSize : UInt32) (v : Volume) : List Deed → Volume → Prop
  | start : Serves s chunkSize v [] v
  | edit {ds : List Deed} {w w₁ w₂ : Volume} {e : LocalEdit} {path : String} {σ : Site}
    {answer : Record × Option NewVersion} (h : Serves s chunkSize v ds w) (leads : s.Leads w₁ path σ)
    (change : Kept (· = σ.file) w w₁) (report : e.report s path w₁ = (.ok answer, w₂)) :
    Serves s chunkSize v (ds ++ [.edited path]) w₂
  | commit {ds : List Deed} {w w₁ : Volume} {path : String} {c : Commit} {answer : Except Fault Record}
    (h : Serves s chunkSize v ds w) (handled : s.committed path c w = (answer, w₁)) :
    Serves s chunkSize v (ds ++ [.committed path c]) w₁
  | request {ds : List Deed} {w w₁ : Volume} {request : ChunkRequest} {reply : Except Fault Message}
    (h : Serves s chunkSize v ds w) (handled : s.serveChunk chunkSize request w = (reply, w₁)) :
    Serves s chunkSize v (ds ++ [.answered request reply w₁]) w₁

/-! ### Versions -/

/-- Record `r`, at most `edits` edits after `r₀`, is still at its version, where `same` holds, or it never comes
    back to that version. -/
structure Version (r₀ : Record) (edits : Nat) (r : Record) (same : Prop) : Prop where
  bound : r.client.toNat ≤ r₀.client.toNat + edits
  state : r.state = .deleted ∨ r₀.base.toNat < r.base.toNat ∨
    (r.base = r₀.base ∧ (r₀.client.toNat < r.client.toNat ∨ (r.client = r₀.client ∧ same)))

namespace Version
variable {r₀ r r' : Record} {k : Nat} {same same' : Prop}

theorem refl (h : same) : Version r₀ 0 r₀ same := ⟨Nat.le_refl _, Or.inr (Or.inr ⟨rfl, Or.inr ⟨rfl, h⟩⟩)⟩

theorem imp (h : Version r₀ k r same) (himp : same → same') : Version r₀ k r same' :=
  ⟨h.bound, h.state.imp id (Or.imp id (And.imp id (Or.imp id (And.imp id himp))))⟩

theorem counted (h : Version r₀ k r same) (hk : r₀.client.toNat + (k + 1) < UInt64.size) (hd : r.state ≠ .deleted)
    (state : RecordState) : Version r₀ (k + 1) ⟨r.base, r.client + 1, state⟩ same' := by
  have hb := h.bound
  have hc : (r.client + 1).toNat = r.client.toNat + 1 := toNat_succ (by omega)
  refine ⟨by rw [hc]; omega, ?_⟩
  rcases h.state with hdel | hlt | ⟨heq, hlt | ⟨hceq, -⟩⟩
  · exact absurd hdel hd
  · exact Or.inr (Or.inl hlt)
  · exact Or.inr (Or.inr ⟨heq, Or.inl (by rw [hc]; omega)⟩)
  · exact Or.inr (Or.inr ⟨heq, Or.inl (by rw [hc, hceq]; omega)⟩)

theorem edit (h : Version r₀ k r same) (hk : r₀.client.toNat + (k + 1) < UInt64.size) :
    Version r₀ (k + 1) r.edit same' := by
  unfold Record.edit
  split
  · rename_i hd
    exact ⟨Nat.le_trans h.bound (by omega), Or.inl hd⟩
  · rename_i hs
    exact h.counted hk (by rw [hs]; decide) r.state
  · rename_i hd _
    exact h.counted hk hd .dirty

theorem apply (h : Version r₀ k r same) (hk : r₀.client.toNat + (k + 1) < UInt64.size) (e : LocalEdit) :
    Version r₀ (k + 1) (e.apply false r) same' := by
  cases e with
  | deleted => exact ⟨Nat.le_trans h.bound (by omega), Or.inl rfl⟩
  | _ => exact h.edit hk

/-- A commit takes the base further, and the edit count back. -/
theorem commit (h : Version r₀ k r same) {c : Commit} (hc : r.commit c = .ok r') : Version r₀ k r' same' := by
  obtain ⟨hstate, -, hnext, hle, rfl⟩ := Record.commit_ok hc
  rw [UInt64.lt_iff_toNat_lt] at hnext
  have hsub := UInt64.toNat_sub_of_le _ _ hle
  have hb := h.bound
  refine ⟨by dsimp only; omega, Or.inr (Or.inl ?_)⟩
  dsimp only
  rcases h.state with hdel | hlt | ⟨heq, -⟩
  · simp [hdel] at hstate
  · omega
  · rw [← heq]
    omega

/-- A record that has the base and the edit count of the version, and is not deleted, is at the version. -/
theorem same_of_eq (h : Version r₀ k r same) (hbase : r.base = r₀.base) (hclient : r.client = r₀.client)
    (hstate : r.state ≠ .deleted) : same := by
  rcases h.state with hd | hlt | ⟨-, hlt | ⟨-, hsame⟩⟩
  · exact absurd hd hstate
  · rw [hbase] at hlt
    exact absurd hlt (Nat.lt_irrefl _)
  · rw [hclient] at hlt
    exact absurd hlt (Nat.lt_irrefl _)
  · exact hsame

end Version

/-! ### The announced version -/

/-- From `v`, where the record of the path was `r₀`, a serving node came to `w` with at most `edits` edits. -/
structure Since (s : Store) (path file : String) (σ : Site) (v : Volume) (r₀ : Record) (edits : Nat)
    (w : Volume) : Prop where
  leads : s.Leads w path σ
  record : ∃ r, w.record? σ = some r ∧ Version r₀ edits r (w.bytesAt? file = v.bytesAt? file)

section Since
variable {s : Store} {path file : String} {σ : Site} {v w w' : Volume} {r₀ : Record} {k : Nat}

theorem Since.kept {P : Location → Prop} (h : Since s path file σ v r₀ k w)
    (hr : s.resolve path = .ok file) (hk : Kept P w w') (hrec : ¬P σ.record) (hfile : ¬P σ.file) :
    Since s path file σ v r₀ k w' := by
  obtain ⟨r, hrr, hv⟩ := h.record
  refine ⟨h.leads.kept hk, r, by rw [hk.record? hrec, hrr], hv.imp fun hsame => ?_⟩
  rw [hk.bytesAt? h.leads hr hfile, hsame]

theorem Since.leased {p : String} {τ : Site} {fresh : Bool} {r r' : Record} (h : Since s path file σ v r₀ k w)
    (hr : s.resolve path = .ok file) (hl : Leased s p (fun _ => False) w w' τ fresh r r')
    (hmoves : ∀ same, Version r₀ k r same → Version r₀ k r' same) : Since s path file σ v r₀ k w' := by
  have hfile : ¬(False ∨ σ.file = τ.record) := by
    rintro (h | he)
    · exact h
    · exact h.leads.file_not_record (he ▸ τ.recordPlace_record)
  by_cases hτ : σ.record = τ.record
  · obtain rfl := Site.record_injective hτ
    obtain ⟨r₁, hr₁, hv⟩ := h.record
    obtain ⟨-, rfl⟩ := hl.found hr₁
    exact ⟨h.leads.kept hl.kept, r', hl.after, hmoves _ (hv.imp fun hsame => by
      rw [hl.kept.bytesAt? h.leads hr hfile, hsame])⟩
  · exact h.kept hr hl.kept (fun hP => hP.elim id hτ) hfile

theorem Since.acquire_error {p : String} {e : Fault} (h : Since s path file σ v r₀ k w)
    (hr : s.resolve path = .ok file) (ha : s.acquire p w = (.error e, w')) : Since s path file σ v r₀ k w' := by
  refine h.kept hr (Store.acquire_error_kept ha) ?_ ?_
  · rintro ⟨τ, he, hn⟩
    obtain ⟨r, hrr, -⟩ := h.record
    rw [← Site.record_injective he, hrr] at hn
    cases hn
  · rintro ⟨τ, he, -⟩
    exact h.leads.file_not_record (he ▸ τ.recordPlace_record)

theorem Since.committed {p : String} {c : Commit} (h : Since s path file σ v r₀ k w)
    (hr : s.resolve path = .ok file) :
    Since s path file σ v r₀ k (s.committed p c w).2 := by
  rcases s.committed_cases p c w with ⟨err, w', ha, hw⟩ |
    ⟨τ, fresh, r, w', ⟨why, -, hl, hw⟩ | ⟨r', hc, hl, hw⟩⟩ <;> rw [hw]
  · exact h.acquire_error hr ha
  · exact h.leased hr hl fun _ => id
  · exact h.leased hr hl fun _ hv => hv.commit hc

/-- A change of a file that is reported: of this path, which then is past its version, or of another one. -/
theorem Since.edited {p : String} {τ : Site} {w₁ : Volume} {e : LocalEdit} {answer : Record × Option NewVersion}
    (h : Since s path file σ v r₀ k w) (hr : s.resolve path = .ok file) (leads : s.Leads w₁ p τ)
    (change : Kept (· = τ.file) w w₁) (report : e.report s p w₁ = (.ok answer, w'))
    (hk : r₀.client.toNat + (k + 1) < UInt64.size) : Since s path file σ v r₀ (k + 1) w' := by
  rcases e.report_cases s p w₁ with ⟨err, w₂, -, hw⟩ | ⟨τ', fresh, r, w₂, file', -, hl, hw⟩
  · rw [report] at hw
    simp at hw
  rw [report] at hw
  obtain ⟨-, rfl⟩ := Prod.mk.inj hw
  obtain rfl : τ' = τ := hl.leads.unique (leads.kept hl.kept)
  have hrec : ¬σ.record = τ'.file := fun he => leads.file_not_record (he ▸ σ.recordPlace_record)
  obtain ⟨r₁, hr₁, hv⟩ := h.record
  have hr₁' : w₁.record? σ = some r₁ := by rw [change.record? hrec, hr₁]
  have hleads₁ := h.leads.kept change
  have hfile' : ¬(False ∨ σ.file = τ'.record) := by
    rintro (h | he)
    · exact h
    · exact hleads₁.file_not_record (he ▸ τ'.recordPlace_record)
  by_cases hτ : σ = τ'
  · subst hτ
    obtain ⟨rfl, rfl⟩ := hl.found hr₁'
    exact ⟨hleads₁.kept hl.kept, _, hl.after, hv.apply hk e⟩
  · refine ⟨hleads₁.kept hl.kept, r₁, ?_, ⟨Nat.le_trans hv.bound (by omega), ?_⟩⟩
    · rw [hl.kept.record? (fun hP => hP.elim id fun he => hτ (Site.record_injective he)), hr₁']
    · refine (hv.imp fun hsame => ?_).state
      rw [hl.kept.bytesAt? hleads₁ hr hfile',
        change.bytesAt? h.leads hr fun he => hτ (Site.file_injective he), hsame]

/-- What was announced is the version that the file has then. -/
theorem Since.announced {e : LocalEdit} {v₁ : Volume} {notice : NewVersion} (hr : s.resolve path = .ok file)
    (report : e.report s path v₁ = (.ok (r₀, some notice), v)) :
    ∃ σ, Since s path file σ v r₀ 0 v ∧ notice.path = path ∧ notice.base = r₀.base ∧
    notice.client = r₀.client ∧
      r₀.state ≠ .deleted ∧ ∀ bytes, v.bytesAt? file = some bytes → notice.size = .ofNat bytes.length := by
  rcases e.report_cases s path v₁ with ⟨err, w, -, hw⟩ | ⟨σ, fresh, r, w, file', hr', hl, hw⟩
  · rw [report] at hw
    simp at hw
  cases hr.symm.trans hr'
  rw [report] at hw
  obtain ⟨hanswer, rfl⟩ := Prod.mk.inj hw
  obtain ⟨hrec, hnotice⟩ := Prod.mk.inj (Except.ok.inj hanswer)
  subst hrec
  unfold LocalEdit.notice? at hnotice
  split at hnotice
  · cases hnotice
  rename_i hd
  cases hnotice
  refine ⟨σ, ⟨hl.leads, _, hl.after, .refl rfl⟩, rfl, rfl, rfl, hd, fun bytes hb => ?_⟩
  obtain ⟨l, id, content, hf, rfl⟩ := bytesAt?_eq_some.mp hb
  unfold Volume.sizeOf
  rw [hf, ← Content.size_eq]

/-- A piece that is served at the announced base and edit count is of the announced version. -/
theorem Since.served {chunkSize : UInt32} {request : ChunkRequest} {chunk : FileChunk} {x : Volume} {r : Record}
    (h : Since s path file σ v r₀ k w) (hr : s.resolve path = .ok file)
    (served : s.serveChunk chunkSize request x = (.ok (.fileChunk chunk), w)) (hpath : chunk.path = path)
    (hdata : chunk.data ≠ []) (hrec : w.record? σ = some r) (hbase : r.base = r₀.base)
    (hclient : chunk.client = r₀.client) (hstate : r.state ≠ .deleted) :
    ∃ bytes, v.bytesAt? file = some bytes ∧ chunk.data <+: bytes.drop chunk.offset.toNat := by
  rcases s.serveChunk_cases chunkSize request x with ⟨e, hw⟩ | ⟨e, w', -, hw⟩ |
    ⟨τ, fresh, r', w', answer, hw, hl, hanswer⟩
  · simp [served] at hw
  · simp [served] at hw
  rw [served] at hw
  obtain ⟨rfl, rfl⟩ := Prod.mk.inj hw
  obtain ⟨file', bytes, hr', hreply, hread⟩ := hanswer _ rfl
  cases hreply
  cases hpath
  cases hr.symm.trans hr'
  obtain rfl : τ = σ := hl.leads.unique h.leads
  have hr₁ := hl.after
  rw [hrec] at hr₁
  cases hr₁
  -- The record tells the edit count of the chunk, so the version is the announced one.
  have hsame : w.bytesAt? file = v.bytesAt? file := by
    obtain ⟨r₁, hr₁, hv⟩ := h.record
    rw [hrec] at hr₁
    cases hr₁
    exact hv.same_of_eq hbase hclient hstate
  split at hread
  · rw [← hsame]
    exact readBytes_piece hread hdata
  · exact absurd hread hdata

theorem Since.request {chunkSize : UInt32} {request : ChunkRequest} {reply : Except Fault Message}
    (h : Since s path file σ v r₀ k w) (hr : s.resolve path = .ok file)
    (handled : s.serveChunk chunkSize request w = (reply, w')) : Since s path file σ v r₀ k w' := by
  rcases s.serveChunk_cases chunkSize request w with ⟨e, hw⟩ | ⟨e, w₁, ha, hw⟩ |
    ⟨τ, fresh, r, w₁, answer, hw, hl, -⟩ <;>
    rw [handled] at hw <;> obtain ⟨-, rfl⟩ := Prod.mk.inj hw
  · exact h
  · exact h.acquire_error hr ha
  · exact h.leased hr hl fun _ => id

/-- Whatever happens, the version is followed, up to the last edit that can be counted. -/
theorem Serves.since {chunkSize : UInt32} {ds : List Deed} (h : Serves s chunkSize v ds w)
    (start : Since s path file σ v r₀ 0 v) (hr : s.resolve path = .ok file)
    (hk : r₀.client.toNat + Deed.edits ds < UInt64.size) :
    Since s path file σ v r₀ (Deed.edits ds) w := by
  induction h with
  | start => exact start
  | edit h leads change report ih =>
    rw [Deed.edits_concat] at hk ⊢
    exact (ih (Nat.lt_of_le_of_lt (by omega) hk)).edited hr leads change report hk
  | @commit ds w w₁ p c answer h handled ih =>
    rw [Deed.edits_concat] at hk ⊢
    have := (ih hk).committed hr (p := p) (c := c)
    rw [handled] at this
    exact this
  | request h handled ih =>
    rw [Deed.edits_concat] at hk ⊢
    exact (ih hk).request hr handled

/-- The version is followed whenever a chunk request is answered. -/
theorem Serves.answered {chunkSize : UInt32} {ds : List Deed} {request : ChunkRequest}
    {reply : Except Fault Message} {x : Volume} (h : Serves s chunkSize v ds w)
    (start : Since s path file σ v r₀ 0 v) (hr : s.resolve path = .ok file)
    (hk : r₀.client.toNat + Deed.edits ds < UInt64.size) (hm : Deed.answered request reply x ∈ ds) :
    ∃ k x₀, Since s path file σ v r₀ k x ∧ s.serveChunk chunkSize request x₀ = (reply, x) := by
  induction h with
  | start => cases hm
  | edit h leads change report ih =>
    rw [Deed.edits_concat] at hk
    rcases List.mem_append.mp hm with hm | hm
    · exact ih (Nat.lt_of_le_of_lt (by omega) hk) hm
    · cases List.mem_singleton.mp hm
  | commit h handled ih =>
    rw [Deed.edits_concat] at hk
    rcases List.mem_append.mp hm with hm | hm
    · exact ih hk hm
    · cases List.mem_singleton.mp hm
  | request h handled ih =>
    rcases List.mem_append.mp hm with hm | hm
    · rw [Deed.edits_concat] at hk
      exact ih hk hm
    · cases List.mem_singleton.mp hm
      exact ⟨_, _, (h.request handled).since start hr hk, handled⟩

end Since

end TreeReplica
