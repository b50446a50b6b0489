import TreeReplica.Proofs.Transfer.Asking

/-! What has arrived of a file. Ranges that stay apart are known by the offsets that they hold
    (`Ranges.Apart.ext`), so the ranges after some arrivals depend on what has arrived alone, and neither on
    its order nor on its repetitions. An arrival takes two looks at the ranges (`Ranges.cover_eq_join`): one
    for the last range that starts at or before it, and one for those that start inside of it. The second need
    not be repeated when the end of the arrival has grown. -/

namespace TreeReplica

namespace Ranges
variable {r s : Ranges} {start stop i a b c d : Nat}

/-! ### Ranges by their offsets -/

theorem holds_append : Holds (r ++ s) i ↔ Holds r i ∨ Holds s i := by
  simp [Holds, or_and_right, exists_or]

theorem apart_iff_pairwise : Apart r ↔ (∀ p ∈ r, p.1 < p.2) ∧ r.Pairwise fun p q => p.2 < q.1 := by
  induction r with
  | nil => simp [Apart]
  | cons p rest ih =>
    rw [Apart, ih, List.pairwise_cons, List.forall_mem_cons]
    constructor
    · rintro ⟨hp, hbehind, hlt, hrest⟩
      exact ⟨⟨hp, hlt⟩, hbehind, hrest⟩
    · rintro ⟨⟨hp, hlt⟩, hbehind, hrest⟩
      exact ⟨hp, hbehind, hlt, hrest⟩

/-- The ranges behind the first one hold nothing up to its end. -/
theorem Apart.lt_of_holds (h : Apart ((a, b) :: r)) (hi : Holds r i) : b < i := by
  obtain ⟨p, hp, hle, -⟩ := hi
  have hbehind := h.2.1 p hp
  omega

/-- If all offsets of some ranges are among those of others, the first range does not start before the first of the
    others, and when both start together it does not end behind it. -/
theorem Apart.first_within (hr : Apart ((a, b) :: r)) (hs : Apart ((c, d) :: s))
    (h : ∀ i, Holds ((a, b) :: r) i → Holds ((c, d) :: s) i) : c ≤ a ∧ (a = c → b ≤ d) := by
  have hab : a < b := hr.1
  have hcd : c < d := hs.1
  constructor
  · rcases holds_cons.mp (h a (holds_cons.mpr (Or.inl ⟨Nat.le_refl a, hab⟩))) with ⟨hle, -⟩ | hlater
    · exact hle
    · have hlt := hs.lt_of_holds hlater
      omega
  · intro hstart
    refine Nat.le_of_not_lt fun hlt => ?_
    -- Otherwise the end of the shorter range would be an offset of the longer one.
    rcases holds_cons.mp (h d (holds_cons.mpr (Or.inl ⟨by dsimp only; omega, hlt⟩))) with ⟨-, hin⟩ | hlater
    · exact Nat.lt_irrefl d hin
    · exact Nat.lt_irrefl d (hs.lt_of_holds hlater)

theorem Apart.ext (hr : Apart r) (hs : Apart s) (h : ∀ i, Holds r i ↔ Holds s i) : r = s := by
  induction r generalizing s with
  | nil =>
    cases s with
    | nil => rfl
    | cons q s =>
      obtain ⟨p, hp, -⟩ := (h q.1).mpr (holds_cons.mpr (Or.inl ⟨Nat.le_refl _, hs.1⟩))
      cases hp
  | cons p r ih =>
    cases s with
    | nil =>
      obtain ⟨q, hq, -⟩ := (h p.1).mp (holds_cons.mpr (Or.inl ⟨Nat.le_refl _, hr.1⟩))
      cases hq
    | cons q s =>
      obtain ⟨a, b⟩ := p
      obtain ⟨c, d⟩ := q
      obtain ⟨hca, hbd⟩ := hr.first_within hs fun i => (h i).mp
      obtain ⟨hac, hdb⟩ := hs.first_within hr fun i => (h i).mpr
      obtain rfl : a = c := Nat.le_antisymm hac hca
      obtain rfl : b = d := Nat.le_antisymm (hbd rfl) (hdb rfl)
      have htail : ∀ i, Holds r i ↔ Holds s i := by
        intro i
        have hi := h i
        rw [holds_cons, holds_cons] at hi
        constructor
        · intro hold
          have hlt := hr.lt_of_holds hold
          exact (hi.mp (Or.inr hold)).resolve_left fun hin => by omega
        · intro hold
          have hlt := hs.lt_of_holds hold
          exact (hi.mpr (Or.inr hold)).resolve_left fun hin => by omega
      rw [ih hr.tail hs.tail htail]

/-! ### An arrival by two looks -/

/-- The last range that starts at an offset or before it. -/
def upTo? (r : Ranges) (i : Nat) : Option (Nat × Nat) := (r.filter fun p => p.1 ≤ i).getLast?

/-- An interval, together with the last range that starts no later when that one reaches it. -/
def reach (r : Ranges) (start stop : Nat) : Nat × Nat :=
  match r.upTo? start with
  | some (a, b) => if start ≤ b then (a, max stop b) else (start, stop)
  | none => (start, stop)

/-- The last end of an interval and of the ranges that start in it or right at its end. -/
def grown (r : Ranges) (start stop : Nat) : Nat :=
  ((r.filter fun p => start ≤ p.1 ∧ p.1 ≤ stop).map (·.2)).foldl max stop

/-- An interval in the place of the ranges that start in it or right at its end. -/
def absorb (r : Ranges) (start stop : Nat) : Ranges :=
  r.filter (fun p => p.1 < start) ++ (start, r.grown start stop) :: r.filter fun p => stop < p.1

/-- Adds the offsets from `start` up to `stop` by one look before the interval and one look into it. -/
def join (r : Ranges) (start stop : Nat) : Ranges :=
  if start = stop then r else r.absorb (r.reach start stop).1 (r.reach start stop).2

theorem lt_foldl_max {ends : List Nat} : i < ends.foldl max stop ↔ i < stop ∨ ∃ e ∈ ends, i < e := by
  induction ends generalizing stop with
  | nil => simp
  | cons e ends ih =>
    have hmax : i < max stop e ↔ i < stop ∨ i < e := by omega
    rw [List.foldl_cons, ih, hmax]
    simp [or_assoc]

theorem lt_grown : i < r.grown start stop ↔ i < stop ∨ ∃ p ∈ r, (start ≤ p.1 ∧ p.1 ≤ stop) ∧ i < p.2 := by
  simp only [grown, lt_foldl_max, List.mem_map, List.mem_filter, decide_eq_true_eq]
  refine or_congr_right ⟨?_, ?_⟩
  · rintro ⟨_, ⟨p, ⟨hp, hstarts⟩, rfl⟩, hlt⟩
    exact ⟨p, hp, hstarts, hlt⟩
  · rintro ⟨p, hp, hstarts, hlt⟩
    exact ⟨p.2, ⟨p, ⟨hp, hstarts⟩, rfl⟩, hlt⟩

theorem holds_absorb : Holds (r.absorb start stop) i ↔ Holds r i ∨ start ≤ i ∧ i < stop := by
  rw [absorb, holds_append, holds_cons, lt_grown]
  simp only [Holds, List.mem_filter, decide_eq_true_eq]
  constructor
  · rintro (⟨p, ⟨hp, -⟩, hin⟩ | ⟨hle, hlt | ⟨p, hp, hstarts, hlt⟩⟩ | ⟨p, ⟨hp, -⟩, hin⟩)
    · exact Or.inl ⟨p, hp, hin⟩
    · exact Or.inr ⟨hle, hlt⟩
    · by_cases hi : i < stop
      · exact Or.inr ⟨hle, hi⟩
      · exact Or.inl ⟨p, hp, by omega, hlt⟩
    · exact Or.inl ⟨p, hp, hin⟩
  · rintro (⟨p, hp, hle, hlt⟩ | ⟨hle, hlt⟩)
    · by_cases hbefore : p.1 < start
      · exact Or.inl ⟨p, ⟨hp, hbefore⟩, hle, hlt⟩
      · by_cases hbehind : stop < p.1
        · exact Or.inr (Or.inr ⟨p, ⟨hp, hbehind⟩, hle, hlt⟩)
        · exact Or.inr (Or.inl ⟨by omega, Or.inr ⟨p, hp, by omega, hlt⟩⟩)
    · exact Or.inr (Or.inl ⟨hle, Or.inl hlt⟩)

/-- Of two apart ranges, the one that starts first ends before the other starts. -/
theorem Apart.lt_start (h : Apart r) {p q : Nat × Nat} (hp : p ∈ r) (hq : q ∈ r) (hpq : p.1 < q.1) : p.2 < q.1 := by
  induction r with
  | nil => cases hp
  | cons first rest ih =>
    rcases List.mem_cons.mp hp with rfl | hp'
    · rcases List.mem_cons.mp hq with rfl | hq'
      · exact absurd hpq (Nat.lt_irrefl _)
      · exact h.2.1 q hq'
    · rcases List.mem_cons.mp hq with rfl | hq'
      · have hbehind := h.2.1 p hp'
        have hne := h.1
        omega
      · exact ih h.tail hp' hq'

/-- A range that is left behind the interval is behind its grown end too: what lets the end grow starts no
    later than the interval ends. -/
theorem Apart.absorb (h : Apart r) (hlt : start < stop) (hclear : ∀ p ∈ r, p.1 < start → p.2 < start) :
    Apart (r.absorb start stop) := by
  obtain ⟨hfull, hpairs⟩ := apart_iff_pairwise.mp h
  rw [apart_iff_pairwise, Ranges.absorb, List.pairwise_append, List.pairwise_cons]
  simp only [List.mem_append, List.mem_cons, List.mem_filter, decide_eq_true_eq]
  refine ⟨?_, hpairs.filter _, ⟨?_, hpairs.filter _⟩, ?_⟩
  · rintro p (⟨hp, -⟩ | rfl | ⟨hp, -⟩)
    · exact hfull p hp
    · exact lt_grown.mpr (Or.inl hlt)
    · exact hfull p hp
  · rintro p ⟨hp, hbehind⟩
    refine Nat.lt_of_not_le fun hle => ?_
    -- The end would have grown over the start of `p` by a range that starts before it.
    rcases lt_grown.mp (show p.1 - 1 < r.grown start stop by omega) with hin | ⟨q, hq, ⟨-, hstarts⟩, hin⟩
    · omega
    · have hends := h.lt_start hq hp (by omega)
      omega
  · rintro p ⟨hp, hbefore⟩ q (rfl | ⟨-, hbehind⟩)
    · exact hclear p hp hbefore
    · have hends := hclear p hp hbefore
      omega

theorem upTo?_eq_none (h : r.upTo? i = none) {p : Nat × Nat} (hp : p ∈ r) : i < p.1 := by
  rw [upTo?, List.getLast?_eq_none_iff, List.filter_eq_nil_iff] at h
  simpa using h p hp

theorem Apart.upTo?_eq_some (h : Apart r) (hlast : r.upTo? i = some (a, b)) :
    (a, b) ∈ r ∧ a ≤ i ∧ ∀ p ∈ r, p.1 ≤ i → p = (a, b) ∨ p.2 < a := by
  obtain ⟨front, hfront⟩ := List.getLast?_eq_some_iff.mp hlast
  have hmem : ∀ p, p ∈ front ++ [(a, b)] ↔ p ∈ r ∧ p.1 ≤ i := by
    intro p
    rw [← hfront]
    simp
  obtain ⟨hin, hle⟩ := (hmem (a, b)).mp (by simp)
  refine ⟨hin, hle, fun p hp hpi => ?_⟩
  have hpairs := (apart_iff_pairwise.mp h).2.filter fun p => p.1 ≤ i
  rw [hfront, List.pairwise_append] at hpairs
  rcases List.mem_append.mp ((hmem p).mpr ⟨hp, hpi⟩) with hp | hp
  · exact Or.inr (hpairs.2.2 p hp (a, b) (by simp))
  · exact Or.inl (List.mem_singleton.mp hp)

/-- The look before an interval: no range before the interval that it gives touches it, and with the ranges it
    holds the same offsets. -/
theorem Apart.reach (h : Apart r) (hlt : start < stop) (hreach : r.reach start stop = (a, b)) :
    a < b ∧ (∀ p ∈ r, p.1 < a → p.2 < a) ∧ ∀ i, (Holds r i ∨ a ≤ i ∧ i < b) ↔
    (Holds r i ∨ start ≤ i ∧ i < stop) := by
  unfold Ranges.reach at hreach
  split at hreach
  · rename_i c d hlast
    obtain ⟨hmem, hstart, hothers⟩ := h.upTo?_eq_some hlast
    have hcd := h.lt hmem
    dsimp only at hcd
    split at hreach
    · rename_i hmeets
      obtain ⟨rfl, rfl⟩ := Prod.mk.inj hreach
      refine ⟨by omega, fun p hp hpa => ?_, fun i => ⟨?_, ?_⟩⟩
      · rcases hothers p hp (by omega) with rfl | hends
        · exact absurd hpa (Nat.lt_irrefl _)
        · exact hends
      · rintro (hold | ⟨hle, hlt⟩)
        · exact Or.inl hold
        · by_cases hi : i < d
          · exact Or.inl ⟨(c, d), hmem, hle, hi⟩
          · exact Or.inr (by omega)
      · rintro (hold | hin)
        · exact Or.inl hold
        · exact Or.inr (by omega)
    · rename_i hapart
      obtain ⟨rfl, rfl⟩ := Prod.mk.inj hreach
      refine ⟨hlt, fun p hp hpa => ?_, fun i => Iff.rfl⟩
      rcases hothers p hp (by omega) with rfl | hends
      · dsimp only
        omega
      · omega
  · rename_i hnone
    obtain ⟨rfl, rfl⟩ := Prod.mk.inj hreach
    refine ⟨hlt, fun p hp hpa => ?_, fun i => Iff.rfl⟩
    have hbehind := upTo?_eq_none hnone hp
    omega

theorem cover_of_le (r : Ranges) (h : stop ≤ start) : r.cover start stop = r := by
  cases r with
  | nil => simp [cover, Nat.not_lt.mpr h]
  | cons p rest => simp [cover, h]

theorem cover_eq_join (h : Apart r) (hle : start ≤ stop) : r.cover start stop = r.join start stop := by
  rcases Nat.eq_or_lt_of_le hle with rfl | hlt
  · rw [join, if_pos rfl, cover_of_le r hle]
  · obtain ⟨hne, hclear, hsame⟩ := h.reach hlt (Prod.eta (r.reach start stop)).symm
    rw [join, if_neg (Nat.ne_of_lt hlt)]
    refine h.cover.ext (h.absorb hne hclear) fun i => ?_
    rw [mem_cover h, holds_absorb, hsame]

/-! ### Arrivals one after the other -/

/-- Adds intervals in their order. -/
def coverAll (r : Ranges) (intervals : List (Nat × Nat)) : Ranges := intervals.foldl (fun r p => r.cover p.1 p.2) r

theorem Apart.coverAll (h : Apart r) (intervals : List (Nat × Nat)) : Apart (r.coverAll intervals) := by
  induction intervals generalizing r with
  | nil => exact h
  | cons p rest ih => exact ih h.cover

theorem holds_coverAll (h : Apart r) (intervals : List (Nat × Nat)) :
    Holds (r.coverAll intervals) i ↔ Holds r i ∨ ∃ p ∈ intervals, p.1 ≤ i ∧ i < p.2 := by
  induction intervals generalizing r with
  | nil => simp [Ranges.coverAll]
  | cons p rest ih =>
    rw [Ranges.coverAll, List.foldl_cons, ← Ranges.coverAll, ih h.cover, mem_cover h]
    simp [or_assoc]

theorem apart_arrived (intervals : List (Nat × Nat)) : Apart (coverAll [] intervals) :=
  Apart.coverAll (r := []) trivial intervals

theorem holds_arrived (intervals : List (Nat × Nat)) :
    Holds (coverAll [] intervals) i ↔ ∃ p ∈ intervals, p.1 ≤ i ∧ i < p.2 := by
  rw [holds_coverAll (r := []) trivial]
  simp [Holds]

/-- What has arrived is known by its offsets, so intervals that make up the same offsets leave the same ranges. -/
theorem coverAll_congr {intervals others : List (Nat × Nat)}
    (h : ∀ i, (∃ p ∈ others, p.1 ≤ i ∧ i < p.2) ↔ ∃ p ∈ intervals, p.1 ≤ i ∧ i < p.2) :
    coverAll [] others = coverAll [] intervals :=
  (apart_arrived others).ext (apart_arrived intervals) fun i => by rw [holds_arrived, holds_arrived, h]

end Ranges

namespace Transfer

/-- Whatever intervals of a file have arrived, in whatever order and how often: the ranges of a transfer are
    non-empty and in order, with a gap between any two, they hold exactly the offsets of the intervals, only
    which intervals have arrived matters, one more is added by two looks, and the transfer is complete exactly
    if every offset has arrived. -/
theorem arrivals_exact (t : Transfer) (arrivals : List (Nat × Nat))
    (h : ∀ p ∈ arrivals, p.1 ≤ p.2 ∧ p.2 ≤ t.size.toNat) :
    Ranges.Apart (Ranges.coverAll [] arrivals) ∧
    (∀ i, Ranges.Holds (Ranges.coverAll [] arrivals) i ↔ ∃ p ∈ arrivals, p.1 ≤ i ∧ i < p.2) ∧
    (∀ others, (∀ p, p ∈ others ↔ p ∈ arrivals) → Ranges.coverAll [] others = Ranges.coverAll [] arrivals) ∧
    (∀ start stop, start ≤ stop → (Ranges.coverAll [] arrivals).cover start stop =
      (Ranges.coverAll [] arrivals).join start stop) ∧
    ({ t with received := Ranges.coverAll [] arrivals }.complete = true ↔
      ∀ i < t.size.toNat, ∃ p ∈ arrivals, p.1 ≤ i ∧ i < p.2) := by
  have hapart := Ranges.apart_arrived arrivals
  refine ⟨hapart, fun i => Ranges.holds_arrived arrivals, fun others hsame => Ranges.coverAll_congr fun i => ?_,
    fun start stop hle => Ranges.cover_eq_join hapart hle, ?_, ?_⟩
  · simp only [hsame]
  · intro hcomplete i hi
    exact (Ranges.holds_arrived arrivals).mp (Ranges.holds_of_full hcomplete hi)
  · intro hall
    refine Ranges.full_of_holds hapart fun i => ?_
    rw [Ranges.holds_arrived]
    refine ⟨?_, hall i⟩
    rintro ⟨p, hp, -, hlt⟩
    exact Nat.lt_of_lt_of_le hlt (h p hp).2

/-- A transfer of six bytes. -/
def sampleSix : Transfer := ⟨"a", .peerEdit 0, 1, 6, [], .empty, ⟨["r", Volume.stagingName "a" 1], 1⟩⟩

/-- The third arrival touches the first one, the fourth one bridges the gap that is left, and the last one is
    a repetition. -/
theorem sample_arrivals :
    (∀ p ∈ [(2, 3), (5, 6), (0, 2), (3, 5), (2, 3)], p.1 ≤ p.2 ∧ p.2 ≤ sampleSix.size.toNat) ∧
      Ranges.coverAll [] [(2, 3), (5, 6), (0, 2), (3, 5), (2, 3)] =
        Ranges.coverAll [] [(0, 2), (2, 3), (3, 5), (5, 6)] ∧
      Ranges.coverAll [] [(2, 3), (5, 6), (0, 2)] = [(0, 3), (5, 6)] ∧
      { sampleSix with received := Ranges.coverAll [] [(2, 3), (5, 6), (0, 2), (3, 5), (2, 3)] }.complete =
        true := by
  have inside : ∀ p ∈ [(2, 3), (5, 6), (0, 2), (3, 5), (2, 3)], p.1 ≤ p.2 ∧ p.2 ≤ sampleSix.size.toNat := by
    decide
  obtain ⟨-, -, same, -, whole⟩ := sampleSix.arrivals_exact _ inside
  refine ⟨inside, (same [(0, 2), (2, 3), (3, 5), (5, 6)] fun p => ?_).symm, by decide, whole.mpr (by decide)⟩
  simp only [List.mem_cons, List.not_mem_nil]
  grind

end Transfer

end TreeReplica
