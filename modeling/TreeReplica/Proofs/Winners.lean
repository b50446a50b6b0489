import TreeReplica.Proofs.History
import TreeReplica.Proofs.Sample

/-! One winner for each base version. A commit, edits of a peer and the content of a later base are all
    decided on the record as it is when they are finished, and each of them takes the record past its base
    (`Moment.Does.wins`). Bases never go back, so no base is won twice (`Passes.one_winner`). -/

namespace TreeReplica
open Volume

/-! ### Bases -/

section Base
variable {r r' : Record} {notice : NewVersion}

theorem base_apply (e : LocalEdit) (fresh : Bool) (r : Record) : (e.apply fresh r).base = r.base := by
  have edit : r.edit.base = r.base := by unfold Record.edit; split <;> rfl
  cases e with
  | created => cases fresh with
    | true => rfl
    | false => exact edit
  | deleted => rfl
  | _ => exact edit

theorem base_announced (r : Record) (notice : NewVersion) : (r.announced notice).base = r.base := by
  rcases r.announced_cases notice with h | ⟨h, -⟩ | ⟨h, -⟩ <;> rw [h]

theorem base_adoptEdits (room : r.base.toNat + 1 < UInt64.size) : r.adoptEdits.base.toNat = r.base.toNat + 1 :=
  toNat_succ room

theorem base_catchUp {remote : UInt64} (ahead : r.base < remote) : (r.catchUp remote).base = remote :=
  if_pos (UInt64.le_of_lt ahead)

end Base

/-! ### Winning a base -/

namespace Moment

/-- The event takes the record at a site past base `b`: a commit on `b` is applied, a peer's edits on `b` are
    taken over and their commit is sent, or the content of a later base is taken over. -/
def Wins (x : Moment) (σ : Site) (b : UInt64) : Prop :=
  (∃ c, x.applied? σ = some c ∧ c.base = b) ∨ (∃ c ∈ x.sent σ, c.base = b) ∨
    ((x.caughtUp? σ).isSome ∧ (x.volume.recordAt σ).base = b)

/-- In how many ways the event takes the record at a site past its base. -/
def wins (x : Moment) (σ : Site) : Nat :=
  (x.applied? σ).toList.length + (x.sent σ).length + (x.caughtUp? σ).toList.length

section Wins
variable {x : Moment} {σ : Site} {r r' : Record}

theorem Seen.wins_iff {edited : Option LocalEdit} {applied : Option Commit} {sent : List Commit}
    {caughtUp : Option UInt64} (seen : x.Seen σ edited applied sent caughtUp) (b : UInt64) :
    x.Wins σ b ↔ (∃ c, applied = some c ∧ c.base = b) ∨ (∃ c ∈ sent, c.base = b) ∨
      (caughtUp.isSome ∧ (x.volume.recordAt σ).base = b) := by
  unfold Wins
  rw [seen.applied, seen.sent, seen.caughtUp]

theorem Seen.wins_eq {edited : Option LocalEdit} {applied : Option Commit} {sent : List Commit}
    {caughtUp : Option UInt64} (seen : x.Seen σ edited applied sent caughtUp) :
    x.wins σ = applied.toList.length + sent.length + caughtUp.toList.length := by
  unfold wins
  rw [seen.applied, seen.sent, seen.caughtUp]

/-- A record keeps its base, or somebody has won the base. -/
theorem Does.wins (does : x.Does σ r r') (hr : x.volume.recordAt σ = r) (room : r.base.toNat + 1 < UInt64.size) :
    (r'.base = r.base ∧ x.wins σ = 0 ∧ ∀ b, ¬x.Wins σ b) ∨
    (r.base < r'.base ∧ x.wins σ = 1 ∧ ∀ b, x.Wins σ b ↔ b = r.base) := by
  cases does with
  | rests seen same =>
    subst same
    exact Or.inl ⟨rfl, by simp [seen.wins_eq], by simp [seen.wins_iff]⟩
  | @edits e seen edited =>
    subst edited
    exact Or.inl ⟨base_apply e _ r, by simp [seen.wins_eq], by simp [seen.wins_iff]⟩
  | @hears notice seen heard =>
    subst heard
    exact Or.inl ⟨base_announced r notice, by simp [seen.wins_eq], by simp [seen.wins_iff]⟩
  | commits seen committed =>
    obtain ⟨-, hbase, hnext, -, rfl⟩ := Record.commit_ok committed
    exact Or.inr ⟨hnext, by simp [seen.wins_eq], fun b => by simp [seen.wins_iff, hbase, eq_comm]⟩
  | adopts seen idle adopted =>
    subst adopted
    refine Or.inr ⟨?_, by simp [seen.wins_eq], fun b => by simp [seen.wins_iff, eq_comm]⟩
    rw [UInt64.lt_iff_toNat_lt, base_adoptEdits room]
    exact Nat.lt_succ_self _
  | catchesUp seen ahead calm taken =>
    subst taken
    refine Or.inr ⟨?_, by simp [seen.wins_eq], fun b => by simp [seen.wins_iff, hr, eq_comm]⟩
    rwa [base_catchUp ahead]

theorem Does.base_le (does : x.Does σ r r') (hr : x.volume.recordAt σ = r) (room : r.base.toNat + 1 < UInt64.size) :
    r.base ≤ r'.base := by
  rcases does.wins hr room with ⟨h, -⟩ | ⟨h, -⟩
  · exact h ▸ UInt64.le_refl _
  · exact UInt64.le_of_lt h

/-- What is sent with a peer's edits commits them as the next base. -/
theorem Does.next_of_sent (does : x.Does σ r r') (room : r.base.toNat + 1 < UInt64.size)
    {c : Commit} (hc : c ∈ x.sent σ) :
    c.next.toNat = c.base.toNat + 1 := by
  cases does with
  | adopts seen idle adopted =>
    rw [seen.sent, List.mem_singleton] at hc
    subst hc
    exact toNat_succ room
  | rests seen _ | edits seen _ | hears seen _ | commits seen _ | catchesUp seen _ _ _ =>
    rw [seen.sent] at hc
    cases hc

theorem site_of_applied {name path : String} {c c' : Commit} (he : x.event = .message name (.commit path c))
    (h : x.applied? σ = some c') : x.site? path = some σ := by
  simp only [applied?, he] at h
  split at h
  · rename_i hc
    exact hc.2
  · cases h

end Wins
end Moment

/-! ### Runs -/

namespace Passes
open Moment
variable {u : Setup} {n : Node} {v₀ v : Volume} {h : List Moment}

/-- For each base of a record at most one of all these happens in a whole run: a commit on the base is
    applied, a peer's edits on it are taken over and committed, or the record catches up from it. Whatever
    else happens leaves the base, and a commit that was applied is refused whenever it comes again. -/
theorem one_winner (run : Passes ⟨u, .empty⟩ v₀ h n v) (σ : Site)
    (room : ∀ x ∈ h, (x.volume.recordAt σ).base.toNat + 1 < UInt64.size) :
    (∀ x ∈ h, ((x.after.recordAt σ).base = (x.volume.recordAt σ).base ∧ x.wins σ = 0 ∧ ∀ b, ¬x.Wins σ b) ∨
      ((x.volume.recordAt σ).base < (x.after.recordAt σ).base ∧ x.wins σ = 1 ∧
        ∀ b, x.Wins σ b ↔ b = (x.volume.recordAt σ).base)) ∧
    (∀ x ∈ h, ∀ c ∈ x.sent σ, c.next.toNat = c.base.toNat + 1) ∧
    (h.Pairwise fun x y => (x.after.recordAt σ).base ≤ (y.volume.recordAt σ).base ∧
      ∀ b, x.Wins σ b → ¬y.Wins σ b) ∧
    (h.Pairwise fun x y => ∀ c ∈ x.sent σ, ∀ c' ∈ y.sent σ, c.base ≠ c'.base) ∧
    h.Pairwise fun x y => ∀ c, x.applied? σ = some c →
    ∀ path name name', x.event = .message name (.commit path c) →
      y.event = .message name' (.commit path c) →
        y.after.recordAt σ = y.volume.recordAt σ ∧ ∃ nack, y.answer? = some (.reply (.nack nack)) := by
  obtain ⟨-, orderly⟩ := run.orderly (Node.orderly_start u v₀)
  have store := run.setup.2
  have does : ∀ x ∈ h, x.Does σ (x.volume.recordAt σ) (x.after.recordAt σ) :=
    fun x hx => Moment.does (orderly x hx) σ
  have wins := fun x hx => (does x hx).wins rfl (room x hx)
  -- After an event the base only grows, and its path leads to the site for good.
  obtain ⟨-, pairs⟩ := run.pairwise
    (B := fun x w => (x.after.recordAt σ).base ≤ (w.recordAt σ).base ∧ ∀ path,
      x.site? path = some σ → u.store.Leads w path σ)
    (fun x hx => ⟨UInt64.le_refl _, fun path hp => by
      have := site?_eq_some.mp hp
      rwa [store x hx] at this⟩)
    (fun x y hy hb => ⟨UInt64.le_trans hb.1 ((does y hy).base_le rfl (room y hy)),
      fun path hp => (hb.2 path hp).kept (grows (orderly y hy))⟩)
    fun x w w' kept hb => ⟨by rw [use_recordAt kept]; exact hb.1, fun path hp => (hb.2 path hp).kept kept⟩
  have apart : ∀ {x y}, x ∈ h → y ∈ h → (x.after.recordAt σ).base ≤ (y.volume.recordAt σ).base →
      ∀ b, x.Wins σ b → ¬y.Wins σ b := by
    intro x y hx hy hle b hxb hyb
    rcases wins x hx with ⟨-, -, hnone⟩ | ⟨hlt, -, hx⟩
    · exact hnone b hxb
    rcases wins y hy with ⟨-, -, hnone⟩ | ⟨-, -, hy⟩
    · exact hnone b hyb
    rw [hx] at hxb
    rw [hy, hxb] at hyb
    rw [UInt64.lt_iff_toNat_lt] at hlt
    rw [UInt64.le_iff_toNat_le, ← hyb] at hle
    omega
  refine ⟨wins, fun x hx c hc => (does x hx).next_of_sent (room x hx) hc,
    pairs.imp_of_mem fun hx hy hb => ⟨hb.1, apart hx hy hb.1⟩,
    pairs.imp_of_mem fun hx hy hb c hc c' hc' he => ?_,
    pairs.imp_of_mem fun {x y} hx hy hb c hc path name name' hxe hye => ?_⟩
  · exact apart hx hy hb.1 c.base (Or.inr (Or.inl ⟨c, hc, rfl⟩)) (Or.inr (Or.inl ⟨c', hc', he.symm⟩))
  · rcases commit_cases (σ := σ) hye with ⟨seen, -⟩ | ⟨-, hsame, hrefused⟩
    · exact absurd (Or.inl ⟨c, seen.applied, rfl⟩) (apart hx hy hb.1 c.base (Or.inl ⟨c, hc, rfl⟩))
    · refine ⟨hsame, hrefused (site?_eq_some.mpr ?_)⟩
      rw [store y hy]
      exact (hb.2 path (site_of_applied hxe hc)).kept (grows (orderly y hy))

/-! ### The sample -/

/-- Two peers announce an edit of the sample and serve it; later a commit of a local edit comes twice. -/
def sampleRace : List Node.Event :=
  [.edit .created "a",
    .message "one" (.newVersion ⟨"a", 0, 1, 2⟩), .message "two" (.newVersion ⟨"a", 0, 1, 2⟩),
    .message "one" (.fileChunk ⟨"a", 1, 0, [5, 6]⟩), .message "two" (.fileChunk ⟨"a", 1, 0, [7, 8]⟩),
    .edit .written "a",
    .message "one" (.commit "a" ⟨1, 2, 1⟩), .message "two" (.commit "a" ⟨1, 2, 1⟩)]

def sampleRaceHistory : List Moment := Node.moments sampleRace ⟨sampleSetup, .empty⟩ (sampleVolume [1, 2, 3, 4])

/-- The second peer is sent no commit, and the second commit is not applied. -/
theorem sample_one_winner :
    (∀ x ∈ sampleRaceHistory, (x.volume.recordAt sampleSite).base.toNat + 1 < UInt64.size) ∧
    (sampleRaceHistory.Pairwise fun x y => (x.after.recordAt sampleSite).base ≤
      (y.volume.recordAt sampleSite).base ∧
      ∀ b, x.Wins sampleSite b → ¬y.Wins sampleSite b) ∧
    sampleRaceHistory.map (·.sent sampleSite) = [[], [], [], [⟨0, 1, 1⟩], [], [], [], []] ∧
    sampleRaceHistory.map (·.applied? sampleSite) = [none, none, none, none, none, none, some ⟨1, 2, 1⟩, none] := by
  have room : ∀ x ∈ sampleRaceHistory, (x.volume.recordAt sampleSite).base.toNat + 1 < UInt64.size := by
    have hall : (sampleRaceHistory.all fun x => (x.volume.recordAt sampleSite).base.toNat + 1 < UInt64.size) =
        true := by
      decide +kernel
    intro x hx
    exact of_decide_eq_true (List.all_eq_true.mp hall x hx)
  obtain ⟨-, -, hpairs, -⟩ :=
    one_winner (Node.passes_run sampleRace ⟨sampleSetup, .empty⟩ (sampleVolume [1, 2, 3, 4])) sampleSite room
  exact ⟨room, hpairs, by decide +kernel, by decide +kernel⟩

end Passes

end TreeReplica
