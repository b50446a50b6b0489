import TreeReplica.LocalEdit
import TreeReplica.Replication

/-! How a record moves. An idle record has no local work to lose (`Record.Idle`), and the records that this
    node makes are idle as soon as they are synced or stale (`Record.Sound`). No move takes a record out of a
    terminal state, but for a deletion (`Record.Moves`). -/

namespace TreeReplica

/-- A counter that is not at its end counts on. -/
theorem toNat_succ {n : UInt64} (h : n.toNat + 1 < UInt64.size) : (n + 1).toNat = n.toNat + 1 := by
  rw [UInt64.toNat_add, UInt64.toNat_one]
  exact Nat.mod_eq_of_lt h

namespace Record

/-- No local work: nothing is pending, nothing clashes and nothing was deleted. -/
def Idle (r : Record) : Prop := r.client = 0 ∧ (r.state = .synced ∨ r.state = .stale)

/-- A record that is synced or stale has no local work. -/
def Sound (r : Record) : Prop := r.state = .synced ∨ r.state = .stale → r.client = 0

/-- What every change of a record keeps. -/
structure Moves (r r' : Record) : Prop where
  sound : r.Sound → r'.Sound
  conflict : r.state = .conflict → r'.state = .conflict ∨ r'.state = .deleted
  deleted : r.state = .deleted → r'.state = .deleted

theorem Moves.refl (r : Record) : r.Moves r := ⟨id, Or.inl, id⟩

theorem Moves.trans {r₁ r₂ r₃ : Record} (h₁ : r₁.Moves r₂) (h₂ : r₂.Moves r₃) : r₁.Moves r₃ where
  sound h := h₂.sound (h₁.sound h)
  conflict h := by
    rcases h₁.conflict h with hc | hd
    · exact h₂.conflict hc
    · exact Or.inr (h₂.deleted hd)
  deleted h := h₂.deleted (h₁.deleted h)

theorem sound_initial : initial.Sound := fun _ => rfl

theorem Idle.sound {r : Record} (h : r.Idle) : r.Sound := fun _ => h.1

theorem Idle.not_terminal {r : Record} (h : r.Idle) : r.state.terminal = false := by
  rcases h.2 with hs | hs <;> rw [hs] <;> rfl

/-- A record that neither waits for a commit nor rests in a terminal state is idle. -/
theorem idle_of_not_pending {r : Record} (hp : r.pending = false) (ht : r.state.terminal = false) : r.Idle := by
  simp only [pending, Bool.or_eq_false_iff, decide_eq_false_iff_not] at hp
  refine ⟨?_, ?_⟩
  · have h := hp.1
    rw [← UInt64.toNat_inj]
    simp only [GT.gt, UInt64.lt_iff_toNat_lt] at h
    simpa using h
  · cases hs : r.state with
    | synced => exact Or.inl rfl
    | stale => exact Or.inr rfl
    | dirty => exact absurd hs hp.2
    | conflict => simp [hs, RecordState.terminal] at ht
    | deleted => simp [hs, RecordState.terminal] at ht

/-! ### Local edits and commits -/

theorem moves_edit (r : Record) : r.Moves r.edit := by
  obtain ⟨base, client, state⟩ := r
  cases state <;> constructor <;> simp [edit, Sound]

theorem moves_delete (r : Record) : r.Moves r.delete := by
  constructor <;> simp [delete, Sound]

theorem moves_apply (e : LocalEdit) (fresh : Bool) (r : Record) : r.Moves (e.apply fresh r) := by
  cases e with
  | created =>
    unfold LocalEdit.apply create
    dsimp only
    split
    · exact .refl r
    · exact r.moves_edit
  | written => exact r.moves_edit
  | truncated => exact r.moves_edit
  | deleted => exact r.moves_delete

/-- A commit of some edits on the base of a record is applied. -/
theorem commit_of_le {r : Record} {c : Commit} (hs : r.state = .synced ∨ r.state = .dirty) (hb : c.base = r.base)
    (hn : r.base < c.next) (hc : c.client ≤ r.client) :
    r.commit c = .ok ⟨c.next, r.client - c.client, if r.client - c.client = 0 then .synced else .dirty⟩ := by
  unfold commit
  rw [if_neg (fun h => hs.elim h.1 h.2), if_neg (fun h => h hb), if_neg (UInt64.not_le.mpr hn),
    if_neg (UInt64.not_lt.mpr hc)]

/-- A commit that is applied is for the base of the record, and goes on from it with edits that the record has
    counted. -/
theorem commit_ok {r r' : Record} {c : Commit} (h : r.commit c = .ok r') :
    (r.state = .synced ∨ r.state = .dirty) ∧ c.base = r.base ∧ r.base < c.next ∧ c.client ≤ r.client ∧
      r' = ⟨c.next, r.client - c.client, if r.client - c.client = 0 then .synced else .dirty⟩ := by
  unfold commit at h
  split at h
  · cases h
  rename_i hstate
  split at h
  · cases h
  rename_i hbase
  split at h
  · cases h
  rename_i hnext
  split at h
  · cases h
  rename_i hclient
  refine ⟨?_, Decidable.not_not.mp hbase, UInt64.not_le.mp hnext, UInt64.not_lt.mp hclient, (Except.ok.inj h).symm⟩
  cases hr : r.state <;> simp_all

theorem moves_commit {r r' : Record} {c : Commit} (h : r.commit c = .ok r') : r.Moves r' := by
  obtain ⟨hs, -, -, -, rfl⟩ := commit_ok h
  refine ⟨fun _ hs => ?_, fun h => ?_, fun h => ?_⟩
  · dsimp only at hs ⊢
    split at hs
    · assumption
    · simp at hs
  · simp [h] at hs
  · simp [h] at hs

/-! ### Announcements and transfers -/

theorem observation_cases (r : Record) (remote : UInt64) :
    (r.state.terminal = true ∧ r.observation remote = .ignored) ∨
      (r.state.terminal = false ∧
        ((remote < r.base ∧ r.observation remote = .outdated) ∨
          (remote = r.base ∧ r.observation remote = .sameBase) ∨
          (r.base < remote ∧ r.pending = true ∧ r.observation remote = .conflict) ∨
          (r.base < remote ∧ r.Idle ∧ r.observation remote = .stale))) := by
  unfold observation
  cases ht : r.state.terminal with
  | true => exact Or.inl ⟨rfl, rfl⟩
  | false =>
    refine Or.inr ⟨rfl, ?_⟩
    by_cases hlt : remote < r.base
    · exact Or.inl ⟨hlt, by simp [hlt]⟩
    by_cases heq : remote = r.base
    · exact Or.inr (Or.inl ⟨heq, by simp [heq]⟩)
    have hgt : r.base < remote := by
      rw [UInt64.lt_iff_toNat_lt] at hlt ⊢
      rw [← UInt64.toNat_inj] at heq
      omega
    cases hp : r.pending with
    | true => exact Or.inr (Or.inr (Or.inl ⟨hgt, rfl, by simp [hlt, heq]⟩))
    | false => exact Or.inr (Or.inr (Or.inr ⟨hgt, idle_of_not_pending hp ht, by simp [hlt, heq]⟩))

/-- What is pulled is for the announced base. -/
theorem pull_of_plan {r : Record} {notice : NewVersion} {p : Pull} (h : r.plan notice = .pull p) :
    p = .catchUp notice.base ∨ p = .peerEdit notice.base := by
  unfold plan at h
  split at h
  · cases h
  · cases h
  · cases h
  · exact Or.inl (Plan.pull.inj h).symm
  · split at h
    · cases h
    · split at h
      · cases h
      · exact Or.inr (Plan.pull.inj h).symm

/-- An announcement leaves the record, makes it stale if it is idle, or makes it a conflict. -/
theorem announced_cases (r : Record) (notice : NewVersion) :
    r.announced notice = r ∨ (r.announced notice = { r with state := .stale } ∧ r.Idle ∧ r.base < notice.base) ∨
      (r.announced notice = { r with state := .conflict } ∧ r.state.terminal = false ∧ r.pending = true) := by
  unfold announced plan observe
  rcases r.observation_cases notice.base with ⟨-, h⟩ |
    ⟨ht, ⟨-, h⟩ | ⟨-, h⟩ | ⟨-, hp, h⟩ | ⟨hlt, hi, h⟩⟩
  · rw [h]
    exact Or.inl rfl
  · rw [h]
    exact Or.inl rfl
  · rw [h]
    dsimp only
    by_cases hc : notice.client = 0
    · rw [if_pos hc]
      exact Or.inl rfl
    · rw [if_neg hc]
      cases hp : r.pending with
      | true => exact Or.inr (Or.inr ⟨rfl, ht, rfl⟩)
      | false => exact Or.inl rfl
  · rw [h]
    exact Or.inr (Or.inr ⟨rfl, ht, hp⟩)
  · rw [h]
    exact Or.inr (Or.inl ⟨rfl, hi, hlt⟩)

/-- A synced record that has the announced base, or a later one, stays as it is. -/
theorem announced_of_synced {r : Record} {notice : NewVersion} (hc : r.client = 0) (hs : r.state = .synced)
    (hle : notice.base ≤ r.base) :
    r.announced notice = r ∧ ∀ p, r.plan notice = .pull p → p = .peerEdit r.base ∧ notice.base = r.base := by
  have hp : r.pending = false := by simp [pending, hc, hs]
  have above : ¬r.base < notice.base := by
    rw [UInt64.lt_iff_toNat_lt]
    rw [UInt64.le_iff_toNat_le] at hle
    omega
  unfold announced plan observe
  rcases r.observation_cases notice.base with ⟨ht, -⟩ | ⟨-, ⟨-, h⟩ | ⟨heq, h⟩ | ⟨hlt, -⟩ | ⟨hlt, -⟩⟩
  · rw [hs] at ht
    cases ht
  · rw [h]
    exact ⟨rfl, fun _ h => by cases h⟩
  · rw [h, hp]
    by_cases hz : notice.client = 0
    · simp [hz]
    · simp [hz, heq]
  · exact absurd hlt above
  · exact absurd hlt above

/-- Where the record is synced, only a peer's edits on its base are put in place, and then they are committed. -/
theorem settle_of_synced {t : Transfer} {r r' : Record} {replies : List Message} (hs : r.state = .synced)
    (h : t.settle r = .ok (r', replies)) :
    t.pull = .peerEdit r.base ∧ r' = r.adoptEdits ∧ replies = [.commit t.path ⟨r.base, r.base + 1, t.client⟩] := by
  unfold Transfer.settle at h
  split at h
  · rename_i base hp
    split at h
    · cases h
    · rename_i hn
      simp only [ne_eq, not_or, Decidable.not_not] at hn
      cases h
      rw [← hn.1] at hp
      exact ⟨hp, rfl, by rw [← hn.1]; rfl⟩
  · simp [hs] at h

theorem moves_announced (r : Record) (notice : NewVersion) : r.Moves (r.announced notice) := by
  rcases r.announced_cases notice with h | ⟨h, hi, -⟩ | ⟨h, ht, -⟩
  · rw [h]
    exact .refl r
  · rw [h]
    refine ⟨fun _ _ => hi.1, fun hc => ?_, fun hd => ?_⟩
    · rcases hi.2 with hs | hs <;> rw [hs] at hc <;> cases hc
    · rcases hi.2 with hs | hs <;> rw [hs] at hd <;> cases hd
  · rw [h]
    refine ⟨fun _ hs => ?_, fun _ => Or.inl rfl, fun hd => ?_⟩
    · simp at hs
    · rw [hd] at ht
      cases ht

/-- What is idle after an announcement was idle before. -/
theorem Idle.of_announced {r : Record} {notice : NewVersion} (h : (r.announced notice).Idle) : r.Idle := by
  rcases r.announced_cases notice with he | ⟨-, hi, -⟩ | ⟨he, -, -⟩
  · rwa [he] at h
  · exact hi
  · rw [he] at h
    have := h.2
    simp at this

/-- Content is put in place only where no local work is, and the record stays sound. -/
theorem idle_of_settle {t : Transfer} {r r' : Record} {replies : List Message} (hs : r.Sound)
    (h : t.settle r = .ok (r', replies)) : r.Idle ∧ r'.Idle := by
  unfold Transfer.settle at h
  split at h
  · split at h
    · cases h
    · rename_i hn
      simp only [ne_eq, not_or, Bool.not_eq_true] at hn
      cases h
      have hi := idle_of_not_pending hn.2.1 hn.2.2
      exact ⟨hi, hi.1, Or.inl rfl⟩
  · split at h
    · cases h
    · rename_i hn
      simp only [ne_eq, not_or, Decidable.not_not] at hn
      cases h
      exact ⟨⟨hs (Or.inr hn.1), Or.inr hn.1⟩, rfl, Or.inl rfl⟩

theorem Idle.moves {r r' : Record} (h : r.Idle) (h' : r'.Idle) : r.Moves r' := by
  refine ⟨fun _ => h'.sound, fun hc => ?_, fun hd => ?_⟩
  · have := h.not_terminal
    rw [hc] at this
    cases this
  · have := h.not_terminal
    rw [hd] at this
    cases this

/-! ### What is lacking -/

section Lacking
variable {r : Record} {notice : NewVersion}

/-- A record without local work pulls a later base, and is stale until it has caught up. -/
theorem plan_of_behind (calm : r.state.terminal = false) (clean : r.pending = false)
    (behind : r.base < notice.base) :
    r.plan notice = .pull (.catchUp notice.base) ∧ r.announced notice = { r with state := .stale } := by
  have observed : r.observation notice.base = .stale := by
    rcases r.observation_cases notice.base with ⟨ht, -⟩ |
      ⟨-, ⟨hgt, -⟩ | ⟨he, -⟩ | ⟨-, hp, -⟩ | ⟨-, -, h⟩⟩
    · rw [calm] at ht
      cases ht
    · exact absurd hgt (UInt64.not_lt.mpr (UInt64.le_of_lt behind))
    · exact absurd behind (he ▸ UInt64.lt_irrefl _)
    · rw [clean] at hp
      cases hp
    · exact h
  have plan : r.plan notice = .pull (.catchUp notice.base) := by
    unfold plan
    rw [observed]
  unfold announced observe
  rw [plan, observed]
  exact ⟨rfl, rfl⟩

/-- A record without local work pulls edits that were made on its base, and stays as it is until it has them. -/
theorem plan_of_edits (calm : r.state.terminal = false) (clean : r.pending = false) (level : r.base = notice.base)
    (edited : notice.client ≠ 0) : r.plan notice = .pull (.peerEdit notice.base) ∧ r.announced notice = r := by
  have observed : r.observation notice.base = .sameBase := by
    unfold observation
    simp [calm, level]
  have plan : r.plan notice = .pull (.peerEdit notice.base) := by
    unfold plan
    rw [observed]
    dsimp only
    rw [if_neg edited, if_neg (by simp [clean])]
  unfold announced observe
  rw [plan, observed]
  exact ⟨rfl, rfl⟩

/-- A record without local work that lacks an announced version pulls it, and settles with it. -/
theorem pulls (notice : NewVersion) (calm : r.state.terminal = false) (clean : r.pending = false)
    (lacks : r.base < notice.base ∨ (r.base = notice.base ∧ notice.client ≠ 0)) :
    ∃ p r' replies, r.plan notice = .pull p ∧
      (∀ t : Transfer, t.path = notice.path → t.pull = p → t.client = notice.client →
        t.settle (r.announced notice) = .ok (r', replies)) ∧
      ((r.base < notice.base ∧ r' = ⟨notice.base, 0, .synced⟩ ∧ replies = []) ∨
        (r.base = notice.base ∧ r' = ⟨notice.base + 1, 0, .synced⟩ ∧
          replies = [.commit notice.path ⟨notice.base, notice.base + 1, notice.client⟩])) := by
  rcases lacks with behind | ⟨level, edited⟩
  · obtain ⟨plan, stale⟩ := plan_of_behind calm clean behind
    refine ⟨_, _, _, plan, fun t _ hpull _ => ?_, Or.inl ⟨behind, rfl, rfl⟩⟩
    have hmax : max r.base notice.base = notice.base := if_pos (UInt64.le_of_lt behind)
    unfold Transfer.settle
    rw [stale, hpull]
    dsimp only
    rw [if_neg (by simp [UInt64.not_le.mpr behind]), catchUp, hmax]
  · obtain ⟨plan, same⟩ := plan_of_edits calm clean level edited
    refine ⟨_, _, _, plan, fun t hpath hpull hclient => ?_, Or.inr ⟨level, rfl, rfl⟩⟩
    have idle : r.client = 0 := (idle_of_not_pending clean calm).1
    unfold Transfer.settle
    rw [same, hpull]
    dsimp only
    rw [if_neg (by simp [level, clean, calm]), hpath, hclient, adoptEdits, level, idle]

end Lacking
end Record
end TreeReplica
