import Mathlib.Algebra.GroupWithZero.Nat
import TreeReplica.Proofs.History
import TreeReplica.Proofs.Sample

/-! The ledger of edits. Every edit that a record counts is either still in its edit count or has been
    committed by a peer: what else happens to the record happens while the count is zero, since only a record
    without local work adopts a peer's edits or catches up. So state and count belong together
    (`Record.Balanced`), and the sums of a whole run are equal (`Passes.ledger`). -/

namespace TreeReplica
open Volume

/-! ### What is counted -/

/-- Whether a record counts an edit: a file is written or truncated, or created where there was a record, and
    the record is not deleted. -/
def LocalEdit.counts (e : LocalEdit) (found : Option Record) : Bool :=
  match e with
  | deleted => false
  | created => found.any (·.countsEdits)
  | written | truncated => (found.getD .initial).countsEdits

namespace Moment

/-- How many edits of the file at a site the event adds to its record. -/
def counted (x : Moment) (σ : Site) : Nat :=
  match x.edited? σ with
  | some e => if e.counts (x.volume.record? σ) then 1 else 0
  | none => 0

/-- How many edits the event commits. -/
def committed (x : Moment) (σ : Site) : Nat :=
  match x.applied? σ with
  | some c => c.client.toNat
  | none => 0

end Moment

/-! ### Records -/

/-- Edits are pending in a dirty record, and in no synced or stale one. -/
structure Record.Balanced (r : Record) : Prop where
  dirty : r.state = .dirty → r.client ≠ 0
  calm : r.state = .synced ∨ r.state = .stale → r.client = 0

section Records
variable {r r' : Record} {c : Commit} {e : LocalEdit} {found : Option Record}

theorem balanced_of_idle (h : r.Idle) : r.Balanced where
  dirty hs := by
    rcases h.2 with h | h <;> rw [h] at hs <;> cases hs
  calm _ := h.1

theorem balanced_of_terminal (h : r.state.terminal = true) : r.Balanced where
  dirty hs := by
    rw [hs] at h
    cases h
  calm hs := by
    rcases hs with hs | hs <;> rw [hs] at h <;> cases h

theorem client_edit (room : r.countsEdits = true → r.client.toNat + 1 < UInt64.size) :
    r.edit.client.toNat = r.client.toNat + if r.countsEdits then 1 else 0 := by
  cases hs : r.state with
  | deleted => simp [Record.edit, Record.countsEdits, hs]
  | _ =>
    have hc : r.countsEdits = true := by simp [Record.countsEdits, hs]
    simp [Record.edit, hs, hc, toNat_succ (room hc)]

theorem balanced_edit (room : r.countsEdits = true → r.client.toNat + 1 < UInt64.size) : r.edit.Balanced := by
  have counted : r.countsEdits = true → r.edit.client ≠ 0 := by
    intro hc h0
    have hclient := client_edit room
    rw [h0, hc] at hclient
    simp at hclient
  cases hs : r.state with
  | deleted => exact ⟨fun h => by simp [Record.edit, hs] at h, fun h => by simp [Record.edit, hs] at h⟩
  | _ =>
    have hc : r.countsEdits = true := by simp [Record.countsEdits, hs]
    exact ⟨fun _ => counted hc, fun h => by simp [Record.edit, hs] at h⟩

/-- An edit that a record counts is one more; another one leaves the count. -/
theorem client_apply (hr : found.getD .initial = r)
    (room : e.counts found = true → r.client.toNat + 1 < UInt64.size) :
    (e.apply found.isNone r).client.toNat = r.client.toNat + if e.counts found then 1 else 0 := by
  cases e with
  | deleted => rfl
  | created =>
    cases found with
    | none => rfl
    | some r₀ =>
      obtain rfl : r₀ = r := hr
      exact client_edit room
  | _ =>
    simp only [LocalEdit.counts, hr] at room ⊢
    exact client_edit room

theorem balanced_apply (hb : r.Balanced) (hr : found.getD .initial = r)
    (room : e.counts found = true → r.client.toNat + 1 < UInt64.size) : (e.apply found.isNone r).Balanced := by
  cases e with
  | deleted => exact balanced_of_terminal rfl
  | created =>
    cases found with
    | none => exact hb
    | some r₀ =>
      obtain rfl : r₀ = r := hr
      exact balanced_edit room
  | _ =>
    simp only [LocalEdit.counts, hr] at room
    exact balanced_edit room

theorem balanced_commit (h : r.commit c = .ok r') :
    r'.Balanced ∧ r'.client.toNat + c.client.toNat = r.client.toNat := by
  obtain ⟨-, -, -, hle, rfl⟩ := Record.commit_ok h
  constructor
  · by_cases h0 : r.client - c.client = 0
    · exact ⟨fun hs => by simp [h0] at hs, fun _ => h0⟩
    · exact ⟨fun _ => h0, fun hs => by simp [h0] at hs⟩
  · have hsub := UInt64.toNat_sub_of_le _ _ hle
    rw [UInt64.le_iff_toNat_le] at hle
    dsimp only
    omega

theorem balanced_announced (hb : r.Balanced) (notice : NewVersion) :
    (r.announced notice).Balanced ∧ (r.announced notice).client = r.client := by
  rcases r.announced_cases notice with h | ⟨h, hi, -⟩ | ⟨h, -⟩ <;> rw [h]
  · exact ⟨hb, rfl⟩
  · exact ⟨⟨fun h => (by cases h), fun _ => hi.1⟩, rfl⟩
  · exact ⟨balanced_of_terminal rfl, rfl⟩

end Records

/-! ### Events and runs -/

/-- What an event adds to the count of a record, or takes from it, it has counted or committed. -/
theorem Moment.Does.entry {x : Moment} {σ : Site} {r r' : Record} (does : x.Does σ r r')
    (hr : x.volume.recordAt σ = r) (hb : r.Balanced) (room : x.counted σ = 1 → r.client.toNat + 1 < UInt64.size) :
    r'.Balanced ∧ r'.client.toNat + x.committed σ = r.client.toNat + x.counted σ := by
  cases does with
  | rests seen same =>
    subst same
    exact ⟨hb, by simp [counted, committed, seen.edited, seen.applied]⟩
  | @edits e seen edited =>
    subst edited
    have hcounted : x.counted σ = if e.counts (x.volume.record? σ) then 1 else 0 := by simp [counted, seen.edited]
    have hroom : e.counts (x.volume.record? σ) = true → r.client.toNat + 1 < UInt64.size :=
      fun h => room (by simp [hcounted, h])
    exact ⟨balanced_apply hb hr hroom, by simp [committed, seen.applied, hcounted, client_apply hr hroom]⟩
  | @hears notice seen heard =>
    obtain ⟨hb', hclient⟩ := balanced_announced hb notice
    subst heard
    exact ⟨hb', by simp [counted, committed, seen.edited, seen.applied, hclient]⟩
  | commits seen committed =>
    obtain ⟨hb', hclient⟩ := balanced_commit committed
    exact ⟨hb', by simp [counted, Moment.committed, seen.edited, seen.applied, hclient]⟩
  | adopts seen idle adopted =>
    subst adopted
    exact ⟨balanced_of_idle ⟨idle.1, Or.inl rfl⟩,
      by simp [counted, committed, seen.edited, seen.applied, Record.adoptEdits]⟩
  | catchesUp seen ahead calm taken =>
    subst taken
    exact ⟨balanced_of_idle ⟨rfl, Or.inl rfl⟩,
      by simp [counted, committed, seen.edited, seen.applied, hb.calm calm, Record.catchUp]⟩

/-- Whatever happens to a node that began without a record at a site, the edits that the record has counted
    are those that are still pending and those that were committed, as long as the count does not overflow.
    What is pending shows in the state. -/
theorem Passes.ledger {u : Setup} {n : Node} {v₀ v : Volume} {h : List Moment}
    (run : Passes ⟨u, .empty⟩ v₀ h n v) (σ : Site) (hfree : v₀.content? σ.record = none)
    (room : ∀ x ∈ h, x.counted σ = 1 → (x.volume.recordAt σ).client.toNat + 1 < UInt64.size) :
    (v.recordAt σ).client.toNat + (h.map (·.committed σ)).sum = (h.map (·.counted σ)).sum ∧
      ((v.recordAt σ).state = .dirty → (v.recordAt σ).client ≠ 0) ∧
      ((v.recordAt σ).state = .synced ∨ (v.recordAt σ).state = .stale → (v.recordAt σ).client = 0) := by
  have first : v₀.recordAt σ = .initial := by
    rw [Volume.recordAt, record?_of_blank (fun content hc => by rw [hfree] at hc; cases hc)]
    rfl
  obtain ⟨hb, hsum⟩ := run.invariant (σ := σ)
    (I := fun h r => (∀ x ∈ h, x.counted σ = 1 → (x.volume.recordAt σ).client.toNat + 1 < UInt64.size) →
      r.Balanced ∧ r.client.toNat + (h.map (·.committed σ)).sum = (h.map (·.counted σ)).sum)
    (Node.orderly_start u v₀) (fun _ => by rw [first]; exact ⟨balanced_of_idle ⟨rfl, Or.inl rfl⟩, rfl⟩)
    (fun h x r r' ih hr hr' does room => by
      obtain ⟨hb, hsum⟩ := ih fun y hy => room y (List.mem_append_left _ hy)
      obtain ⟨hb', hledger⟩ :=
        does.entry hr hb fun hc => hr ▸ room x (List.mem_append_right _ List.mem_cons_self) hc
      refine ⟨hb', ?_⟩
      simp only [List.map_append, List.sum_append, List.map_cons, List.map_nil, List.sum_cons, List.sum_nil]
      omega)
    room
  exact ⟨hsum, hb.dirty, hb.calm⟩

/-! ### The sample -/

/-- The sample is created and edited twice, one of the edits is committed, a peer's announcement clashes with
    the other, and the file is edited once more. -/
def sampleEdits : List Node.Event :=
  [.edit .created "a", .edit .written "a", .edit .truncated "a", .message "one" (.commit "a" ⟨0, 1, 1⟩),
    .message "two" (.newVersion ⟨"a", 3, 0, 2⟩), .edit .written "a"]

def sampleEditsHistory : List Moment := Node.moments sampleEdits ⟨sampleSetup, .empty⟩ (sampleVolume [1, 2, 3, 4])

theorem sample_ledger :
    let v := (Node.run sampleEdits ⟨sampleSetup, .empty⟩ (sampleVolume [1, 2, 3, 4])).2
    (sampleVolume [1, 2, 3, 4]).content? sampleSite.record = none ∧
    (∀ x ∈ sampleEditsHistory, x.counted sampleSite = 1 →
      (x.volume.recordAt sampleSite).client.toNat + 1 < UInt64.size) ∧
    v.recordAt sampleSite = ⟨1, 2, .conflict⟩ ∧
    sampleEditsHistory.map (·.counted sampleSite) = [0, 1, 1, 0, 0, 1] ∧
    sampleEditsHistory.map (·.committed sampleSite) = [0, 0, 0, 1, 0, 0] ∧
    (v.recordAt sampleSite).client.toNat + (sampleEditsHistory.map (·.committed sampleSite)).sum =
      (sampleEditsHistory.map (·.counted sampleSite)).sum := by
  have room : ∀ x ∈ sampleEditsHistory, x.counted sampleSite = 1 →
      (x.volume.recordAt sampleSite).client.toNat + 1 < UInt64.size := by
    have hall : (sampleEditsHistory.all fun x => (x.volume.recordAt sampleSite).client.toNat + 1 <
        UInt64.size) = true := by
      decide +kernel
    intro x hx _
    exact of_decide_eq_true (List.all_eq_true.mp hall x hx)
  obtain ⟨hsum, -⟩ :=
    (Node.passes_run sampleEdits ⟨sampleSetup, .empty⟩ (sampleVolume [1, 2, 3, 4])).ledger sampleSite rfl room
  exact ⟨rfl, room, by decide +kernel, by decide +kernel, by decide +kernel, hsum⟩

end TreeReplica
