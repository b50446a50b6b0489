import TreeReplica.Proofs.Winners

/-! What becomes of a newer version that was announced. A stale record knows that it is behind, but not of
    which version. So it is left below that version in three ways only (`Moment.Forgets`): by a local edit, by
    a peer's edits on the old base, and by the content of a version in between. Whatever else happens, the
    record is not synced again before it has reached the version (`Passes.newer_version_reached`). -/

namespace TreeReplica
open Volume

/-! ### Forgetting -/

namespace Moment

/-- The event takes a stale record out of its state below a newer base: the file is edited, a peer's edits on
    the old base are taken over, or the content of a base in between. -/
def Forgets (x : Moment) (σ : Site) (newer : UInt64) : Prop :=
  (x.volume.recordAt σ).state = .stale ∧ (x.volume.recordAt σ).base < newer ∧
    ((∃ e, x.edited? σ = some e ∧ e ≠ .deleted) ∨ (∃ c ∈ x.sent σ, c.next < newer) ∨ ∃ b,
      x.caughtUp? σ = some b ∧ b < newer)

end Moment

/-- The record waits below a newer base, has reached it, or rests in a terminal state. -/
def Record.Waits (newer : UInt64) (r : Record) : Prop :=
  (r.state = .stale ∧ r.base < newer) ∨ newer ≤ r.base ∨ r.state.terminal = true

section Waits
variable {x : Moment} {σ : Site} {newer : UInt64} {r r' : Record}

theorem waits_of_base_le (hn : newer ≤ r.base) (hle : r.base ≤ r'.base) : r'.Waits newer :=
  Or.inr (Or.inl (UInt64.le_trans hn hle))

theorem terminal_of_moves (hm : r.Moves r') (ht : r.state.terminal = true) : r'.state.terminal = true := by
  cases hs : r.state with
  | conflict => rcases hm.conflict hs with h | h <;> rw [h] <;> rfl
  | deleted => rw [hm.deleted hs]; rfl
  | _ => simp [hs, RecordState.terminal] at ht

theorem Moment.Does.terminal (does : x.Does σ r r') (ht : r.state.terminal = true) : r'.state.terminal = true := by
  cases does with
  | rests seen same => exact same ▸ ht
  | @edits e seen edited => exact edited ▸ terminal_of_moves (r.moves_apply e _) ht
  | commits seen committed => exact terminal_of_moves (Record.moves_commit committed) ht
  | @hears notice seen heard => exact heard ▸ terminal_of_moves (r.moves_announced notice) ht
  | adopts seen idle adopted =>
    rw [idle.not_terminal] at ht
    cases ht
  | catchesUp seen ahead calm taken => rcases calm with h | h <;> rw [h] at ht <;> cases ht

/-- A record that waits goes on waiting after every event that does not make it forget. -/
theorem Moment.Does.waits (does : x.Does σ r r') (hr : x.volume.recordAt σ = r)
    (room : r.base.toNat + 1 < UInt64.size) (hw : r.Waits newer) (keeps : ¬x.Forgets σ newer) : r'.Waits newer := by
  rcases hw with ⟨hstale, hlt⟩ | hle | hterminal
  · have kept : ¬((∃ e, x.edited? σ = some e ∧ e ≠ .deleted) ∨ (∃ c ∈ x.sent σ, c.next < newer) ∨
        ∃ b, x.caughtUp? σ = some b ∧ b < newer) := fun h => keeps ⟨hr ▸ hstale, hr ▸ hlt, h⟩
    cases does with
    | rests seen same => exact Or.inl ⟨same ▸ hstale, same ▸ hlt⟩
    | @edits e seen edited =>
      by_cases he : e = .deleted
      · subst he edited
        exact Or.inr (Or.inr rfl)
      · exact absurd (Or.inl ⟨e, seen.edited, he⟩) kept
    | commits seen committed =>
      obtain ⟨hs, -⟩ := Record.commit_ok committed
      rw [hstale] at hs
      rcases hs with h | h <;> cases h
    | @hears notice seen heard =>
      subst heard
      rcases r.announced_cases notice with h | ⟨h, -⟩ | ⟨h, -⟩ <;> rw [h]
      · exact Or.inl ⟨hstale, hlt⟩
      · exact Or.inl ⟨rfl, hlt⟩
      · exact Or.inr (Or.inr rfl)
    | @adopts client seen idle adopted =>
      subst adopted
      by_cases hn : r.base + 1 < newer
      · exact absurd (Or.inr (Or.inl ⟨_, seen.sent ▸ List.mem_cons_self, hn⟩)) kept
      · exact Or.inr (Or.inl (UInt64.not_lt.mp hn))
    | @catchesUp remote seen ahead calm taken =>
      subst taken
      by_cases hn : remote < newer
      · exact absurd (Or.inr (Or.inr ⟨remote, seen.caughtUp, hn⟩)) kept
      · exact Or.inr (Or.inl (by rw [base_catchUp ahead]; exact UInt64.not_lt.mp hn))
  · exact waits_of_base_le hle (does.base_le hr room)
  · exact Or.inr (Or.inr (does.terminal hterminal))

/-- An event that makes a record forget leaves it below the newer base, and not stale any more. -/
theorem Moment.Does.forgets (does : x.Does σ r r') (hr : x.volume.recordAt σ = r) (forgets : x.Forgets σ newer) :
    r'.base < newer ∧ (r'.state = .synced ∨ r'.state = .dirty) := by
  obtain ⟨hstale, hlt, hcase⟩ := forgets
  rw [hr] at hstale hlt
  cases does with
  | rests seen _ | hears seen _ | commits seen _ => simp [seen.edited, seen.sent, seen.caughtUp] at hcase
  | @edits e seen edited =>
    simp only [seen.edited, seen.sent, seen.caughtUp] at hcase
    subst edited
    -- A stale record is one that was there before, so no edit of it is a first creation.
    have found : (x.volume.record? σ).isNone = false := by
      cases hf : x.volume.record? σ with
      | some _ => rfl
      | none =>
        rw [Volume.recordAt, hf] at hr
        subst hr
        cases hstale
    have hedit : e.apply (x.volume.record? σ).isNone r = r.edit := by
      rw [found]
      cases e with
      | deleted => simp at hcase
      | _ => rfl
    rw [base_apply, hedit]
    exact ⟨hlt, Or.inr (by simp [Record.edit, hstale])⟩
  | adopts seen idle adopted =>
    simp only [seen.edited, seen.sent, seen.caughtUp] at hcase
    subst adopted
    exact ⟨show r.base + 1 < newer by simpa using hcase, Or.inl rfl⟩
  | catchesUp seen ahead calm taken =>
    simp only [seen.edited, seen.sent, seen.caughtUp] at hcase
    subst taken
    exact ⟨by simpa [base_catchUp ahead] using hcase, Or.inl rfl⟩

theorem Moment.Does.base_of_stale (does : x.Does σ r r') (hs : r'.state = .stale) : r'.base = r.base := by
  cases does with
  | rests seen same => rw [same]
  | edits seen edited => rw [edited, base_apply]
  | hears seen heard => rw [heard, base_announced]
  | commits seen committed =>
    obtain ⟨-, -, -, -, rfl⟩ := Record.commit_ok committed
    dsimp only at hs
    split at hs <;> cases hs
  | adopts seen idle adopted =>
    subst adopted
    cases hs
  | catchesUp seen ahead calm taken =>
    subst taken
    cases hs

end Waits

/-! ### Runs -/

/-- Once an announcement of a newer base has left a record stale, the record is not synced again below that
    base, unless something on the way made it forget; and whatever made it forget left it below the base. -/
theorem Passes.newer_version_reached {u : Setup} {n m : Node} {v₀ v w : Volume} {h h' : List Moment} {name : String}
    {notice : NewVersion} {σ : Site} (run : Passes ⟨u, .empty⟩ v₀ h n v)
    (ahead : (v.recordAt σ).base < notice.base)
    (stale : ((n.step (.message name (.newVersion notice)) v).2.recordAt σ).state = .stale)
    (later : Passes (n.step (.message name (.newVersion notice)) v).1
      (n.step (.message name (.newVersion notice)) v).2 h' m w)
    (room : ∀ x ∈ h', (x.volume.recordAt σ).base.toNat + 1 < UInt64.size) :
    ((w.recordAt σ).state = .synced → notice.base ≤ (w.recordAt σ).base ∨
      ∃ x ∈ h', x.Forgets σ notice.base) ∧
      ∀ x ∈ h', x.Forgets σ notice.base → (x.after.recordAt σ).base < notice.base ∧
        ((x.after.recordAt σ).state = .synced ∨ (x.after.recordAt σ).state = .dirty) := by
  obtain ⟨orderly, -⟩ := run.orderly (Node.orderly_start u v₀)
  have orderly' := orderly.event (.message name (.newVersion notice))
  have does : ∀ x ∈ h', x.Does σ (x.volume.recordAt σ) (x.after.recordAt σ) := fun x hx =>
    Moment.does ((later.orderly orderly').2 x hx) σ
  have below : ((n.step (.message name (.newVersion notice)) v).2.recordAt σ).base < notice.base := by
    have hearing := Moment.does (x := ⟨n, .message name (.newVersion notice), v⟩) orderly σ
    exact (hearing.base_of_stale stale) ▸ ahead
  refine ⟨fun synced => ?_, fun x hx forgets => (does x hx).forgets rfl forgets⟩
  rcases later.invariant (σ := σ)
    (I := fun h r => (∀ x ∈ h, (x.volume.recordAt σ).base.toNat + 1 < UInt64.size) →
      (∃ x ∈ h, x.Forgets σ notice.base) ∨ r.Waits notice.base)
    orderly' (fun _ => Or.inr (Or.inl ⟨stale, below⟩))
    (fun h x r r' ih hr hr' does room => by
      have hx := room x (List.mem_append_right _ List.mem_cons_self)
      rcases ih fun y hy => room y (List.mem_append_left _ hy) with ⟨y, hy, forgets⟩ | hw
      · exact Or.inl ⟨y, List.mem_append_left _ hy, forgets⟩
      · by_cases forgets : x.Forgets σ notice.base
        · exact Or.inl ⟨x, List.mem_append_right _ List.mem_cons_self, forgets⟩
        · exact Or.inr (does.waits hr (hr ▸ hx) hw forgets))
    room with forgets | ⟨hs, -⟩ | hle | ht
  · exact Or.inr forgets
  · rw [synced] at hs
    cases hs
  · exact Or.inl hle
  · rw [synced] at ht
    cases ht

/-! ### The sample -/

/-- The sample comes to be, and a peer's edit of it is being pulled. -/
def sampleBefore : List Node.Event := [.edit .created "a", .message "two" (.newVersion ⟨"a", 0, 1, 2⟩)]

def sampleBehind : Node × Volume := Node.run sampleBefore ⟨sampleSetup, .empty⟩ (sampleVolume [1, 2, 3, 4])

def sampleStale : Node × Volume := sampleBehind.1.step (.message "one" (.newVersion ⟨"a", 5, 0, 4⟩)) sampleBehind.2

/-- The content of a base in between is pulled. -/
def sampleBetween : List Node.Event :=
  [.message "two" (.newVersion ⟨"a", 3, 0, 2⟩), .message "two" (.fileChunk ⟨"a", 0, 0, [7, 8]⟩)]

/-- Ways to a synced record: a local edit and its commit, the content of a base in between, and the peer's edit. -/
def sampleExits : List (List Node.Event) :=
  [[.edit .written "a", .message "two" (.commit "a" ⟨0, 1, 1⟩)], sampleBetween,
    [.message "two" (.fileChunk ⟨"a", 1, 0, [7, 8]⟩)]]

theorem sampleStale_record : sampleStale.2.recordAt sampleSite = ⟨0, 0, .stale⟩ := by decide +kernel

/-- A newer version that left the record stale can be forgotten: the record is synced below it. -/
theorem newer_version_forgotten :
    ¬∀ (u : Setup) (n m : Node) (v₀ v w : Volume) (h h' : List Moment) (name : String) (notice : NewVersion)
      (σ : Site), Passes ⟨u, .empty⟩ v₀ h n v → (v.recordAt σ).base < notice.base →
      ((n.step (.message name (.newVersion notice)) v).2.recordAt σ).state = .stale →
      Passes (n.step (.message name (.newVersion notice)) v).1
        (n.step (.message name (.newVersion notice)) v).2 h' m w →
      (w.recordAt σ).state = .synced → notice.base ≤ (w.recordAt σ).base := by
  intro hall
  have run := Node.passes_run sampleBefore ⟨sampleSetup, .empty⟩ (sampleVolume [1, 2, 3, 4])
  have every : ∀ es ∈ sampleExits,
    ((Node.run es sampleStale.1 sampleStale.2).2.recordAt sampleSite).state = .synced →
      5 ≤ ((Node.run es sampleStale.1 sampleStale.2).2.recordAt sampleSite).base := fun es _ =>
    hall sampleSetup _ _ _ _ _ _ _ "one" ⟨"a", 5, 0, 4⟩ sampleSite run (by decide +kernel)
      (congrArg Record.state sampleStale_record) (Node.passes_run es sampleStale.1 sampleStale.2)
  revert every
  decide +kernel

example : sampleExits.map (fun es => (Node.run es sampleStale.1 sampleStale.2).2.recordAt sampleSite) =
    [⟨1, 0, .synced⟩, ⟨3, 0, .synced⟩, ⟨1, 0, .synced⟩] := by decide +kernel

theorem sample_newer_version :
    let later := Node.moments sampleBetween sampleStale.1 sampleStale.2
    (sampleBehind.2.recordAt sampleSite).base < 5 ∧ (sampleStale.2.recordAt sampleSite).state = .stale ∧
      (∀ x ∈ later, (x.volume.recordAt sampleSite).base.toNat + 1 < UInt64.size) ∧
      (∃ x ∈ later, x.Forgets sampleSite 5) ∧
      ∀ x ∈ later, x.Forgets sampleSite 5 → (x.after.recordAt sampleSite).base < 5 ∧
        ((x.after.recordAt sampleSite).state = .synced ∨ (x.after.recordAt sampleSite).state = .dirty) := by
  have ahead : (sampleBehind.2.recordAt sampleSite).base < 5 := by decide +kernel
  have stale : (sampleStale.2.recordAt sampleSite).state = .stale := congrArg Record.state sampleStale_record
  have room : ∀ x ∈ Node.moments sampleBetween sampleStale.1 sampleStale.2,
      (x.volume.recordAt sampleSite).base.toNat + 1 < UInt64.size := by
    have hall : ((Node.moments sampleBetween sampleStale.1 sampleStale.2).all fun x =>
        (x.volume.recordAt sampleSite).base.toNat + 1 < UInt64.size) = true := by decide +kernel
    intro x hx
    exact of_decide_eq_true (List.all_eq_true.mp hall x hx)
  have run := Node.passes_run sampleBefore ⟨sampleSetup, .empty⟩ (sampleVolume [1, 2, 3, 4])
  have later := Node.passes_run sampleBetween sampleStale.1 sampleStale.2
  have last : (Node.run sampleBetween sampleStale.1 sampleStale.2).2.recordAt sampleSite = ⟨3, 0, .synced⟩ := by
    decide +kernel
  obtain ⟨reached, below⟩ := Passes.newer_version_reached run
    (show (sampleBehind.2.recordAt sampleSite).base < (NewVersion.mk "a" 5 0 4).base from ahead) stale later room
  refine ⟨ahead, stale, room, ?_, below⟩
  rcases reached (congrArg Record.state last) with hle | forgets
  · rw [last] at hle
    exact absurd hle (by decide)
  · exact forgets

end TreeReplica
