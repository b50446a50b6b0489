import TreeReplica.Proofs.LocalWork
import TreeReplica.Proofs.Session

/-! The record at one site (`Volume.recordAt`), whatever spelling of a path leads there: what leases and
    requests leave of it, and what announcements and complete transfers make of it. -/

namespace TreeReplica
open Volume

/-! ### The record at a site -/

/-- The record at a site, or the one with which a lease of it would begin. -/
def Volume.recordAt (v : Volume) (σ : Site) : Record := (v.record? σ).getD .initial

def Store.site? (s : Store) (path : String) (v : Volume) : Option Site :=
  match s.resolve path with
  | .error _ => none
  | .ok file =>
    match Path.fileName? file, v.walk (v.start file) (Path.names file).dropLast with
    | some name, .ok dir => some ⟨dir, name⟩
    | _, _ => none

section Sites
variable {s : Store} {v w : Volume} {path : String} {P : Location → Prop} {σ τ : Site} {fresh : Bool}
  {r r' : Record}

theorem Store.site?_eq_some : s.site? path v = some σ ↔ s.Leads v path σ := by
  unfold Store.site? Store.Leads
  cases s.resolve path with
  | error e => simp
  | ok file =>
    cases hn : Path.fileName? file with
    | none => simp [hn]
    | some name =>
      cases hw : v.walk (v.start file) (Path.names file).dropLast with
      | error e => simp [hn, hw]
      | ok dir =>
        obtain ⟨d, n⟩ := σ
        simp [hn, hw, and_comm]

theorem recordAt_of_record? (h : v.record? σ = some r) : v.recordAt σ = r := by
  rw [Volume.recordAt, h, Option.getD_some]

theorem record?_of_blank (h : ∀ content, v.content? σ.record = some content → content.toList = []) :
    v.record? σ = none := by
  unfold Volume.record?
  split
  · rfl
  · rename_i content hc
    rw [h content hc]
    rfl

theorem Volume.Kept.recordAt (hk : Kept P v w) (hσ : ¬P σ.record) : w.recordAt σ = v.recordAt σ := by
  rw [Volume.recordAt, hk.record? hσ, Volume.recordAt]

theorem Volume.Kept.recordAt_staging (hk : Kept StagingPlace v w) (σ : Site) : w.recordAt σ = v.recordAt σ :=
  hk.recordAt σ.record_not_staging

/-- A lease begins with the record at its site, and makes it if there is none. -/
theorem Leased.begins (h : Leased s path P v w σ fresh r r') : v.recordAt σ = r ∧ fresh = (v.record? σ).isNone := by
  rcases h.before with ⟨rfl, hr⟩ | ⟨rfl, rfl, hempty⟩
  · exact ⟨recordAt_of_record? hr, by rw [hr]; rfl⟩
  · have hnone := record?_of_blank hempty
    exact ⟨by rw [Volume.recordAt, hnone]; rfl, by rw [hnone]; rfl⟩

/-- Two sites share neither their record nor, where a path leads to one, the place of its file. -/
theorem Leased.elsewhere (h : Leased s path (fun l => StagingPlace l ∨ l = τ.file) v w τ fresh r r') (hσ : σ ≠ τ) :
    w.recordAt σ = v.recordAt σ := by
  refine h.kept.recordAt fun hl => ?_
  rcases hl with (hp | he) | he
  · exact σ.record_not_staging hp
  · exact h.leads.file_not_record (he ▸ σ.recordPlace_record)
  · exact hσ (Site.record_injective he)

/-- Whoever is not granted a lease leaves what the next one begins with. -/
theorem acquire_error_recordAt {e : Fault} (ha : s.acquire path v = (.error e, w)) (σ : Site) :
    w.recordAt σ = v.recordAt σ := by
  obtain ⟨v₁, hk, ⟨e', he⟩ | ⟨file, h, v₂, hr, ho, hcase⟩⟩ := Store.acquire_cases s path v
  · rw [he] at ha
    obtain ⟨-, rfl⟩ := Prod.mk.inj ha
    exact (hk fun _ => False).recordAt id
  obtain ⟨τ, content, o⟩ := Store.opened_of_ok hk hr ho
  have at_site : v.record? τ = none → w.recordAt τ = .initial → Kept (· = τ.record) v w →
      w.recordAt σ = v.recordAt σ := by
    intro hv hw hk
    by_cases hσ : σ = τ
    · rw [hσ, hw, Volume.recordAt, hv]
      rfl
    · exact hk.recordAt fun he => hσ (Site.record_injective he)
  rcases hcase with ⟨-, he⟩ | ⟨hu, hg⟩
  · -- The record is locked: it is as it was, or it came to be without content.
    rw [he] at ha
    obtain ⟨-, rfl⟩ := Prod.mk.inj ha
    rcases o.found with hsame | ⟨hnone, -, rfl⟩
    · by_cases hσ : σ = τ
      · rw [hσ]
        simp only [Volume.recordAt, Volume.record?, Volume.content?, hsame]
      · exact o.kept.recordAt fun he => hσ (Site.record_injective he)
    · have hw : v₂.record? τ = none := record?_of_blank fun content hc => by
        obtain ⟨id, hl⟩ := content?_eq_some.mp hc
        rw [o.file] at hl
        cases hl
        rfl
      refine at_site (record?_of_blank fun content hc => ?_) (by rw [Volume.recordAt, hw]; rfl) o.kept
      rw [hnone] at hc
      cases hc
  · -- The record cannot be read, and the initial one is written over it.
    rw [ha] at hg
    obtain ⟨fault, -, hne, hdec, rfl⟩ := Store.grant_error hg.symm
    rw [o.read?, Option.getD_some] at hne hdec
    obtain ⟨hkm, hlook⟩ := o.written Record.initial.encode
    refine at_site ?_ (recordAt_of_record? ?_) ((o.kept.lock.trans hkm).unlock (o.unlocked hu))
    · unfold Volume.record?
      rw [content?_eq_some.mpr ⟨h.id, o.found_of_ne hne ▸ o.file⟩]
      simp [hdec, Except.toOption]
    · exact record?_eq_some.mpr ⟨h.id, _, hlook, by rw [Content.toList_ofBytes, Record.decode_encode]⟩

theorem not_fatal_of_acquire_error {e : Fault} (ha : s.acquire path v = (.error e, w)) : e.fatal = false := by
  unfold Fault.fatal
  rcases Store.category_of_acquire_error ha with h | h <;> rw [h]

theorem serveChunk_recordAt (s : Store) (chunkSize : UInt32) (request : ChunkRequest) (v : Volume) (σ : Site) :
    (s.serveChunk chunkSize request v).2.recordAt σ = v.recordAt σ ∧
      ∀ reply, (s.serveChunk chunkSize request v).1 = .ok reply → ∃ chunk, reply = .fileChunk chunk := by
  rcases s.serveChunk_cases chunkSize request v with ⟨e, hw⟩ | ⟨e, w, ha, hw⟩ |
    ⟨τ, fresh, r, w, answer, hw, hl, hanswer⟩ <;>
    rw [hw]
  · exact ⟨rfl, fun _ h => by cases h⟩
  · exact ⟨acquire_error_recordAt ha σ, fun _ h => by cases h⟩
  · refine ⟨?_, fun reply h => ?_⟩
    · by_cases hσ : σ = τ
      · rw [hσ, recordAt_of_record? hl.after, hl.begins.1]
      · exact Leased.elsewhere (hl.mono fun _ => False.elim) hσ
    · obtain ⟨file, bytes, -, rfl, -⟩ := hanswer reply h
      exact ⟨_, rfl⟩

end Sites

/-! ### What moves a record -/

section Moves
variable {r r' : Record} {notice : NewVersion} {p : Pull} {t : Transfer} {replies : List Message}

/-- A peer's edits are pulled on the base of an idle record, which stays as it is; a later base is pulled once
    the record is stale. -/
theorem announced_of_pull (h : r.plan notice = .pull p) :
    (p = .peerEdit notice.base ∧ r.announced notice = r) ∨
      (p = .catchUp notice.base ∧ r.announced notice = { r with state := .stale } ∧ r.Idle ∧
        r.base < notice.base) := by
  rcases r.observation_cases notice.base with ⟨-, ho⟩ |
    ⟨ht, ⟨-, ho⟩ | ⟨-, ho⟩ | ⟨-, hp, ho⟩ | ⟨hlt, hi, ho⟩⟩ <;>
    simp only [Record.plan, Record.announced, Record.observe, ho] at h ⊢
  · cases h
  · cases h
  · split at h
    · cases h
    · split at h
      · cases h
      · rename_i hclient hpending
        exact Or.inl ⟨(Plan.pull.inj h).symm, by simp [hclient, hpending]⟩
  · cases h
  · exact Or.inr ⟨(Plan.pull.inj h).symm, trivial, hi, hlt⟩

/-- What is in place is a peer's edits on the base of an idle record, or a later base that a stale record
    waits for. -/
theorem settle_cases (h : t.settle r = .ok (r', replies)) :
    (t.pull = .peerEdit r.base ∧ r.Idle ∧ r' = r.adoptEdits ∧
      replies = [.commit t.path ⟨r.base, r.base + 1, t.client⟩]) ∨
      ∃ remote, t.pull = .catchUp remote ∧ r.state = .stale ∧ r.base < remote ∧
      r' = r.catchUp remote ∧ replies = [] := by
  unfold Transfer.settle at h
  split at h
  · rename_i base hp
    split at h
    · cases h
    · rename_i hn
      simp only [ne_eq, not_or, Decidable.not_not, Bool.not_eq_true] at hn
      obtain ⟨rfl, hpending, hterminal⟩ := hn
      cases h
      exact Or.inl ⟨hp, Record.idle_of_not_pending hpending hterminal, rfl, rfl⟩
  · rename_i remote hp
    split at h
    · cases h
    · rename_i hn
      simp only [ne_eq, not_or, Decidable.not_not, UInt64.not_le] at hn
      cases h
      exact Or.inr ⟨remote, hp, hn.1, hn.2, rfl, rfl⟩

end Moves

end TreeReplica
