import Mathlib.Data.Prod.Lex
import TreeReplica.Proofs.Ledger
import TreeReplica.Proofs.Winners

/-! What a node announces of its own edits. Each reported edit is announced once, with the record that it
    leaves. The edit count goes back when a commit is applied or a later base is taken over, but then the base
    goes on, so a record never goes back in the order of bases first and edit counts second
    (`Moment.Does.version_le`), and no version is announced twice (`Passes.notices_increase`). -/

namespace TreeReplica
open Volume

/-! ### Versions -/

/-- Where a record stands: its base, and then its edit count. -/
def Record.version (r : Record) : ℕ ×ₗ ℕ := toLex (r.base.toNat, r.client.toNat)

def NewVersion.version (notice : NewVersion) : ℕ ×ₗ ℕ := toLex (notice.base.toNat, notice.client.toNat)

section Versions
variable {r r' : Record}

theorem version_lt_of_base (h : r.base < r'.base) : r.version < r'.version :=
  Prod.Lex.toLex_lt_toLex.mpr (Or.inl (UInt64.lt_iff_toNat_lt.mp h))

theorem version_edit (hc : r.countsEdits = true) (room : r.client.toNat + 1 < UInt64.size) :
    r.version < r.edit.version := by
  have hbase : r.edit.base = r.base := base_apply .written false r
  have hclient := client_edit fun _ => room
  rw [hc, if_pos rfl] at hclient
  refine Prod.Lex.toLex_lt_toLex.mpr (Or.inr ⟨by rw [hbase], ?_⟩)
  rw [hclient]
  exact Nat.lt_succ_self _

/-- An edit leaves a record where it stands, or takes it on. -/
theorem version_apply (e : LocalEdit) (fresh : Bool) (room : r.client.toNat + 1 < UInt64.size) :
    r.version ≤ (e.apply fresh r).version := by
  have edit : r.version ≤ r.edit.version := by
    cases hc : r.countsEdits with
    | true => exact le_of_lt (version_edit hc room)
    | false =>
      have hs : r.state = .deleted := by simpa [Record.countsEdits] using hc
      rw [Record.edit, hs]
  cases e with
  | created => cases fresh with
    | true => exact le_refl _
    | false => exact edit
  | deleted => exact le_refl _
  | _ => exact edit

/-- An edit that leaves no deleted record, where there was one before, takes it on. -/
theorem version_apply_lt {e : LocalEdit} (hs : (e.apply false r).state ≠ .deleted)
    (room : r.client.toNat + 1 < UInt64.size) :
    r.version < (e.apply false r).version := by
  have edit : r.edit.state ≠ .deleted → r.version < r.edit.version := fun h =>
    version_edit (by cases hr : r.state <;> simp_all [Record.countsEdits, Record.edit]) room
  cases e with
  | deleted => exact absurd rfl hs
  | _ => exact edit hs

end Versions

/-! ### What is published -/

namespace Moment

/-- The notices that an event publishes. -/
def published (x : Moment) : List NewVersion :=
  match x.event with
  | .edit e path =>
    match (e.report x.store path x.volume).1 with
    | .ok (_, notice) => notice.toList
    | .error _ => []
  | _ => []

section Published
variable {x : Moment} {σ : Site} {r r' : Record} {e : LocalEdit} {path : String} {notice : NewVersion}

/-- An edit that is reported is announced as the record stands then, unless that is deleted; another one is
    not announced. -/
theorem published_of_edit (he : x.event = .edit e path) :
    (∃ fault, (e.report x.store path x.volume).1 = .error fault ∧ x.published = []) ∨
      ∃ σ file r notice, (e.report x.store path x.volume).1 = .ok (r, notice) ∧ x.store.resolve path = .ok file ∧
        x.site? path = some σ ∧ x.after.record? σ = some r ∧
        x.published = if r.state = .deleted then [] else
          [⟨path, r.base, r.client, .ofNat ((x.after.sizeOf file).toOption.getD 0)⟩] := by
  have hafter : x.after = (e.report x.store path x.volume).2 := by
    simp only [after, he]
    rfl
  rcases e.report_cases x.store path x.volume with ⟨fault, w, -, hw⟩ | ⟨σ, fresh, r, w, file, hr, hl, hw⟩
  · refine Or.inl ⟨fault, by rw [hw], ?_⟩
    simp only [published, he, hw]
  · rw [hw] at hafter
    refine Or.inr ⟨σ, file, e.apply fresh r, _, by rw [hw], hr, site?_eq_some.mpr (hafter ▸ hl.leads),
      hafter ▸ hl.after, ?_⟩
    simp only [published, he, hw, hafter, LocalEdit.notice?]
    split
    · rfl
    · cases w.sizeOf file <;> rfl

/-- What is published at a site announces the record that the event leaves there. -/
theorem of_mem_published (hm : notice ∈ x.published) (hσ : x.site? notice.path = some σ) :
    (x.edited? σ).isSome ∧ (x.after.record? σ).isSome ∧ notice.version = (x.after.recordAt σ).version ∧
      (x.after.recordAt σ).state ≠ .deleted := by
  cases he : x.event with
  | edit e path =>
    rcases published_of_edit he with ⟨fault, -, hp⟩ | ⟨τ, file, r, notice', hreport, -, hsite, hr, hp⟩ <;>
      rw [hp] at hm
    · cases hm
    split at hm
    · cases hm
    rename_i hs
    rw [List.mem_singleton.mp hm] at hσ ⊢
    obtain rfl : τ = σ := Option.some.inj (hsite.symm.trans hσ)
    rw [recordAt_of_record? hr, hr]
    refine ⟨?_, rfl, rfl, hs⟩
    simp [edited?, he, hreport, hsite, Except.isOk, Except.toBool]
  | message name m => simp [published, he] at hm
  | close name => simp [published, he] at hm

end Published

/-! ### Events and runs -/

section Does
variable {x : Moment} {σ : Site} {r r' : Record}

/-- A record never goes back. -/
theorem Does.version_le (does : x.Does σ r r') (base : r.base.toNat + 1 < UInt64.size)
    (client : r.client.toNat + 1 < UInt64.size) : r.version ≤ r'.version := by
  cases does with
  | rests seen same => exact same ▸ le_refl _
  | edits seen edited => exact edited ▸ version_apply _ _ client
  | @hears notice seen heard =>
    subst heard
    rcases r.announced_cases notice with h | ⟨h, -⟩ | ⟨h, -⟩ <;> rw [h] <;> exact le_refl _
  | commits seen committed =>
    obtain ⟨-, -, hnext, -, rfl⟩ := Record.commit_ok committed
    exact le_of_lt (version_lt_of_base hnext)
  | adopts seen idle adopted =>
    subst adopted
    refine le_of_lt (version_lt_of_base ?_)
    rw [UInt64.lt_iff_toNat_lt, base_adoptEdits base]
    exact Nat.lt_succ_self _
  | catchesUp seen ahead calm taken =>
    subst taken
    exact le_of_lt (version_lt_of_base (by rwa [base_catchUp ahead]))

/-- Where there was a record, an edit that is announced takes it on. -/
theorem Does.version_lt (does : x.Does σ r r') (edited : (x.edited? σ).isSome)
    (recorded : (x.volume.record? σ).isSome) (state : r'.state ≠ .deleted)
    (client : r.client.toNat + 1 < UInt64.size) : r.version < r'.version := by
  have none : ∀ {applied sent caughtUp}, ¬x.Seen σ none applied sent caughtUp := fun seen => by
    rw [seen.edited] at edited
    cases edited
  cases does with
  | edits seen edited =>
    rw [Option.isNone_eq_false_iff.mpr recorded] at edited
    subst edited
    exact version_apply_lt state client
  | rests seen _ | hears seen _ | commits seen _ | adopts seen _ _ | catchesUp seen _ _ _ => exact absurd seen none

end Does
end Moment

namespace Passes
open Moment
variable {u : Setup} {n : Node} {v₀ v : Volume} {h : List Moment}

/-- Every edit that is reported is announced once, with the record that it left and the length of the file,
    unless that record is deleted; an edit that cannot be reported is not announced. Over the whole run what
    is announced of a file goes on: a later base, or on the same base a higher edit count. -/
theorem notices_increase (run : Passes ⟨u, .empty⟩ v₀ h n v) (σ : Site)
    (room : ∀ x ∈ h, (x.volume.recordAt σ).base.toNat + 1 < UInt64.size ∧
      (x.volume.recordAt σ).client.toNat + 1 < UInt64.size) :
    (∀ x ∈ h, ∀ e path, x.event = .edit e path →
      (∃ fault, (e.report x.store path x.volume).1 = .error fault ∧ x.published = []) ∨
      ∃ τ file r notice, (e.report x.store path x.volume).1 = .ok (r, notice) ∧ x.store.resolve path = .ok file ∧
        x.site? path = some τ ∧ x.after.record? τ = some r ∧
        x.published = if r.state = .deleted then [] else
          [⟨path, r.base, r.client, .ofNat ((x.after.sizeOf file).toOption.getD 0)⟩]) ∧
    (h.Pairwise fun x y => ∀ a ∈ x.published, ∀ b ∈ y.published, x.site? a.path = some σ →
      (b.path = a.path ∨ y.site? b.path = some σ) → a.version < b.version) := by
  obtain ⟨-, orderly⟩ := run.orderly (Node.orderly_start u v₀)
  have store := run.setup.2
  have does : ∀ x ∈ h, x.Does σ (x.volume.recordAt σ) (x.after.recordAt σ) :=
    fun x hx => Moment.does (orderly x hx) σ
  refine ⟨fun x _ e path he => published_of_edit he, ?_⟩
  -- Once a version is announced the record is there, at that version or later, and the path leads to it.
  obtain ⟨-, pairs⟩ := run.pairwise
    (B := fun x w => ∀ a ∈ x.published, x.site? a.path = some σ →
      (w.record? σ).isSome ∧ a.version ≤ (w.recordAt σ).version ∧ u.store.Leads w a.path σ)
    (fun x hx a ha hσ => by
      obtain ⟨-, recorded, version, -⟩ := of_mem_published ha hσ
      exact ⟨recorded, le_of_eq version, store x hx ▸ site?_eq_some.mp hσ⟩)
    (fun x y hy hb a ha hσ => by
      obtain ⟨recorded, version, leads⟩ := hb a ha hσ
      have lasts := Moment.lasts (orderly y hy)
      obtain ⟨base, client⟩ := room y hy
      exact ⟨lasts.recorded σ recorded, version.trans ((does y hy).version_le base client), leads.kept lasts.grows⟩)
    (fun x w w' kept hb a ha hσ => by
      obtain ⟨recorded, version, leads⟩ := hb a ha hσ
      refine ⟨?_, use_recordAt kept σ ▸ version, leads.kept kept⟩
      rwa [kept.record? fun hl => hl.1 σ.recordPlace_record])
  refine pairs.imp_of_mem fun {x y} hx hy hb a ha b hbm hσ hsite => ?_
  obtain ⟨recorded, version, leads⟩ := hb a ha hσ
  have hbσ : y.site? b.path = some σ := by
    rcases hsite with hpath | hsite
    · refine site?_eq_some.mpr ?_
      rw [hpath, store y hy]
      exact leads.kept (Moment.grows (orderly y hy))
    · exact hsite
  obtain ⟨edited, -, hversion, state⟩ := of_mem_published hbm hbσ
  calc a.version ≤ (y.volume.recordAt σ).version := version
    _ < (y.after.recordAt σ).version := (does y hy).version_lt edited recorded state (room y hy).2
    _ = b.version := hversion.symm

/-! ### The sample -/

/-- The sample comes to be and is written; a peer commits the edit and brings one of its own; then the sample
    is written once more, deleted and written in vain. -/
def sampleNotices : List Node.Event :=
  [.edit .created "a", .edit .written "a", .message "one" (.commit "a" ⟨0, 1, 1⟩),
    .message "one" (.newVersion ⟨"a", 1, 1, 2⟩),
    .message "one" (.fileChunk ⟨"a", 1, 0, [5, 6]⟩), .edit .written "./a", .edit .deleted "a", .edit .written "a"]

def sampleNoticesHistory : List Moment :=
  Node.moments sampleNotices ⟨sampleSetup, .empty⟩ (sampleVolume [1, 2, 3, 4])

theorem sample_notices_increase :
    (∀ x ∈ sampleNoticesHistory, (x.volume.recordAt sampleSite).base.toNat + 1 < UInt64.size ∧
      (x.volume.recordAt sampleSite).client.toNat + 1 < UInt64.size) ∧
    sampleNoticesHistory.map (·.published) =
      [[⟨"a", 0, 0, 4⟩], [⟨"a", 0, 1, 4⟩], [], [], [], [⟨"./a", 2, 1, 2⟩], [], []] ∧
    (sampleNoticesHistory.Pairwise fun x y => ∀ a ∈ x.published, ∀ b ∈ y.published,
      x.site? a.path = some sampleSite →
      (b.path = a.path ∨ y.site? b.path = some sampleSite) → a.version < b.version) := by
  have room : ∀ x ∈ sampleNoticesHistory, (x.volume.recordAt sampleSite).base.toNat + 1 < UInt64.size ∧
      (x.volume.recordAt sampleSite).client.toNat + 1 < UInt64.size := by
    have hall : (sampleNoticesHistory.all fun x => (x.volume.recordAt sampleSite).base.toNat + 1 < UInt64.size ∧
        (x.volume.recordAt sampleSite).client.toNat + 1 < UInt64.size) = true := by
      decide +kernel
    intro x hx
    exact of_decide_eq_true (List.all_eq_true.mp hall x hx)
  obtain ⟨-, pairs⟩ := notices_increase
    (Node.passes_run sampleNotices ⟨sampleSetup, .empty⟩ (sampleVolume [1, 2, 3, 4])) sampleSite room
  exact ⟨room, by decide +kernel, pairs⟩

end Passes

end TreeReplica
