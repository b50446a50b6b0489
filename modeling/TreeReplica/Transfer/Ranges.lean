/-!
Sets of byte offsets, kept as ranges in increasing order that neither overlap nor touch. Main
statements: `mem_cover`, a covered set holds exactly what it held before and the new range;
`Apart.cover`, the ranges stay in order with a gap between them. -/

namespace TreeReplica

/-- Ranges from a start up to, and not with, an end. -/
abbrev Ranges := List (Nat × Nat)

namespace Ranges

/-- Whether an offset lies in one of the ranges. -/
def Holds (r : Ranges) (i : Nat) : Prop := ∃ p ∈ r, p.1 ≤ i ∧ i < p.2

/-- Adds the offsets from `start` up to `stop`. Ranges that it meets become one with it. -/
def cover (start stop : Nat) : Ranges → Ranges
  | [] => if start < stop then [(start, stop)] else []
  | (a, b) :: rest =>
    if stop ≤ start then (a, b) :: rest
    else if b < start then (a, b) :: cover start stop rest
    else if stop < a then (start, stop) :: (a, b) :: rest
    else cover (min start a) (max stop b) rest

/-- Whether the ranges are just the offsets below `size`. -/
def full (r : Ranges) (size : Nat) : Bool := size = 0 || r = [(0, size)]

/-- Every range is non-empty and lies behind the ones before it, with a gap. -/
def Apart : Ranges → Prop
  | [] => True
  | (a, b) :: rest => a < b ∧ (∀ p ∈ rest, b < p.1) ∧ Apart rest

theorem Apart.tail {p : Nat × Nat} {r : Ranges} (h : Apart (p :: r)) : Apart r := h.2.2

@[simp]
theorem not_holds_nil (i : Nat) : ¬Holds [] i := by simp [Holds]

theorem holds_cons {p : Nat × Nat} {r : Ranges} {i : Nat} :
    Holds (p :: r) i ↔ (p.1 ≤ i ∧ i < p.2) ∨ Holds r i := by
  simp [Holds]

theorem holds_of_full {r : Ranges} {size i : Nat} (h : full r size = true) (hi : i < size) : Holds r i := by
  simp only [full, Bool.or_eq_true, decide_eq_true_eq] at h
  rcases h with hz | rfl
  · omega
  · exact holds_cons.mpr (Or.inl ⟨Nat.zero_le i, hi⟩)

theorem mem_cover {start stop : Nat} {r : Ranges} (h : Apart r) (i : Nat) :
    Holds (cover start stop r) i ↔ Holds r i ∨ start ≤ i ∧ i < stop := by
  induction r generalizing start stop with
  | nil =>
    unfold cover
    split <;> simp [Holds]
    omega
  | cons p rest ih =>
    obtain ⟨a, b⟩ := p
    have hab : a < b := h.1
    unfold cover
    split
    · simp only [holds_cons]
      grind
    · split
      · simp only [holds_cons, ih h.tail, or_assoc]
      · split
        · simp only [holds_cons]
          grind
        · rw [ih h.tail, holds_cons]
          have : (min start a ≤ i ∧ i < max stop b) ↔ (a ≤ i ∧ i < b) ∨ (start ≤ i ∧ i < stop) := by
            omega
          rw [this]
          grind

/-- No range of a covered set starts before the old ranges and the new one do. -/
theorem lt_of_mem_cover {start stop bound : Nat} {r : Ranges} (hr : ∀ p ∈ r, bound < p.1)
    (hs : bound < start) : ∀ p ∈ cover start stop r, bound < p.1 := by
  induction r generalizing start stop with
  | nil =>
    unfold cover
    split <;> simp
    exact hs
  | cons q rest ih =>
    obtain ⟨a, b⟩ := q
    have ha : bound < a := hr (a, b) (by simp)
    have hrest : ∀ p ∈ rest, bound < p.1 := fun p hp => hr p (by simp [hp])
    unfold cover
    split
    · exact hr
    · split
      · intro p hp
        rcases List.mem_cons.mp hp with rfl | hp
        · exact ha
        · exact ih hrest hs p hp
      · split
        · intro p hp
          rcases List.mem_cons.mp hp with rfl | hp
          · exact hs
          · exact hr p hp
        · exact ih hrest (by omega)

theorem Apart.cover {start stop : Nat} {r : Ranges} (h : Apart r) : Apart (cover start stop r) := by
  induction r generalizing start stop with
  | nil =>
    unfold Ranges.cover
    split <;> simp_all [Apart]
  | cons p rest ih =>
    obtain ⟨a, b⟩ := p
    unfold Ranges.cover
    split
    · exact h
    · split
      · rename_i hb
        exact ⟨h.1, lt_of_mem_cover h.2.1 hb, ih h.tail⟩
      · split
        · rename_i ha
          have hab := h.1
          refine ⟨by omega, ?_, h⟩
          intro p hp
          rcases List.mem_cons.mp hp with rfl | hp
          · exact ha
          · have := h.2.1 p hp
            omega
        · exact ih h.tail

end Ranges

end TreeReplica
