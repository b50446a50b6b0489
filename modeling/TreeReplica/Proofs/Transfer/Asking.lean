import TreeReplica.Proofs.Transfer

/-! What a transfer waits for. Every offset below the announced size has arrived, or lies in one of the ranges
    that were asked for, which do not overlap (`Accounted`). This holds from the first requests on
    (`accounted_requests`), and every chunk keeps it (`Accounted.note`); so a transfer that waits for nothing
    is complete. -/

namespace TreeReplica

namespace Ranges
variable {r : Ranges} {size : Nat}

theorem Apart.lt (h : Apart r) {p : Nat × Nat} (hp : p ∈ r) : p.1 < p.2 := by
  induction r with
  | nil => cases hp
  | cons q rest ih =>
    rcases List.mem_cons.mp hp with rfl | hp
    · exact h.1
    · exact ih h.tail hp

theorem full_of_holds (h : Apart r) (hr : ∀ i, Holds r i ↔ i < size) : full r size = true := by
  unfold full
  rcases Nat.eq_zero_or_pos size with rfl | hpos
  · simp
  cases r with
  | nil =>
    obtain ⟨p, hp, -⟩ := (hr 0).mpr hpos
    cases hp
  | cons p rest =>
    obtain ⟨a, b⟩ := p
    obtain ⟨hab, hbehind, hrest⟩ := h
    have first : a = 0 := by
      obtain ⟨q, hq, hle, -⟩ := (hr 0).mpr hpos
      rcases List.mem_cons.mp hq with rfl | hq
      · exact Nat.le_zero.mp hle
      · have := hbehind q hq
        omega
    have last : b = size := by
      have hle : b - 1 < size := (hr (b - 1)).mp ⟨(a, b), List.mem_cons_self, by dsimp only; omega⟩
      refine Nat.le_antisymm (by omega) (Nat.le_of_not_lt fun hlt => ?_)
      obtain ⟨q, hq, hfrom, hto⟩ := (hr b).mpr hlt
      rcases List.mem_cons.mp hq with rfl | hq
      · exact absurd hto (Nat.lt_irrefl b)
      · have := hbehind q hq
        omega
    -- A second range would lie behind the size.
    have only : rest = [] := by
      rw [List.eq_nil_iff_forall_not_mem]
      intro q hq
      have hlt := hbehind q hq
      have := (hr q.1).mp ⟨q, List.mem_cons_of_mem _ hq, Nat.le_refl _, hrest.lt hq⟩
      omega
    rw [first, last, only]
    simp

end Ranges

namespace Transfer

/-! ### Spans -/

section Spans
variable {step size a z a' z' : Nat}

theorem mem_spans : (a, z) ∈ spans step size ↔ ∃ i < (size + step - 1) / step, a = i * step ∧
    z = min (i * step + step) size := by
  unfold spans
  simp only [List.mem_map, List.mem_range, Prod.mk.injEq]
  constructor
  · rintro ⟨i, hi, rfl, rfl⟩
    exact ⟨i, hi, rfl, rfl⟩
  · rintro ⟨i, hi, rfl, rfl⟩
    exact ⟨i, hi, rfl, rfl⟩

theorem start_lt_of_lt (hs : 0 < step) {i : Nat} (hi : i < (size + step - 1) / step) : i * step < size := by
  have : (i + 1) * step ≤ size + step - 1 := (Nat.le_div_iff_mul_le hs).mp hi
  rw [Nat.add_mul, Nat.one_mul] at this
  omega

theorem spans_lt (hs : 0 < step) (h : (a, z) ∈ spans step size) : a < z ∧ z ≤ size := by
  obtain ⟨i, hi, rfl, rfl⟩ := mem_spans.mp h
  have := start_lt_of_lt hs hi
  omega

theorem spans_apart (h : (a, z) ∈ spans step size) (h' : (a', z') ∈ spans step size) (hlt : a < a') : z ≤ a' := by
  obtain ⟨i, -, rfl, rfl⟩ := mem_spans.mp h
  obtain ⟨j, -, rfl, rfl⟩ := mem_spans.mp h'
  have hij : i + 1 ≤ j := Nat.lt_of_mul_lt_mul_right hlt
  have := Nat.mul_le_mul_right step hij
  rw [Nat.add_mul, Nat.one_mul] at this
  omega

theorem spans_unique (hs : 0 < step) (h : (a, z) ∈ spans step size) (h' : (a, z') ∈ spans step size) : z = z' := by
  obtain ⟨i, -, rfl, rfl⟩ := mem_spans.mp h
  obtain ⟨j, -, he, rfl⟩ := mem_spans.mp h'
  rw [Nat.eq_of_mul_eq_mul_right hs he]

theorem spans_cover (hs : 0 < step) {i : Nat} (hi : i < size) :
    ∃ a z, (a, z) ∈ spans step size ∧ a ≤ i ∧ i < z := by
  have hmod := Nat.div_add_mod' i step
  have hlt := Nat.mod_lt i hs
  refine ⟨_, _, mem_spans.mpr ⟨i / step, ?_, rfl, rfl⟩, by omega, by omega⟩
  rw [Nat.lt_iff_add_one_le, Nat.le_div_iff_mul_le hs, Nat.add_mul, Nat.one_mul]
  omega

end Spans

/-! ### What is awaited -/

/-- Every offset has arrived or is awaited, and no offset is awaited twice. -/
structure Accounted (t : Transfer) : Prop where
  apart : Ranges.Apart t.received
  inside : ∀ i, Ranges.Holds t.received i → i < t.size.toNat
  asked : ∀ a z, t.outstanding.get? a = some z → a < z ∧ z ≤ t.size.toNat
  disjoint : ∀ a z a' z', t.outstanding.get? a = some z → t.outstanding.get? a' = some z' → a < a' → z ≤ a'
  covered : ∀ i < t.size.toNat, Ranges.Holds t.received i ∨ ∃ a z, t.outstanding.get? a = some z ∧ a ≤ i ∧ i < z

section Asking
variable {t : Transfer} {chunk : FileChunk}

theorem Accounted.complete (acc : t.Accounted) (none : ∀ a, t.outstanding.get? a = none) : t.complete = true := by
  refine Ranges.full_of_holds acc.apart fun i => ⟨acc.inside i, fun hi => ?_⟩
  rcases acc.covered i hi with h | ⟨a, z, h, -⟩
  · exact h
  · rw [none a] at h
    cases h

theorem get?_asked (parts : List (Nat × Nat)) (t : Transfer) (a : Nat) :
    (∃ z, (a, z) ∈ parts ∧ (parts.foldl (fun t part => t.ask part.1 part.2) t).outstanding.get? a = some z) ∨
      (∀ z, (a, z) ∉ parts) ∧ (parts.foldl (fun t part => t.ask part.1 part.2) t).outstanding.get? a =
        t.outstanding.get? a := by
  induction parts generalizing t with
  | nil => exact Or.inr ⟨fun _ h => (by cases h), rfl⟩
  | cons part rest ih =>
    obtain ⟨start, stop⟩ := part
    rcases ih (t.ask start stop) with ⟨z, hz, h⟩ | ⟨hnot, h⟩
    · exact Or.inl ⟨z, List.mem_cons_of_mem _ hz, h⟩
    · have hask : (t.ask start stop).outstanding.get? a = if start = a then some stop else t.outstanding.get? a :=
        Table.get?_insert t.outstanding start a stop
      rw [hask] at h
      by_cases ha : start = a
      · subst ha
        exact Or.inl ⟨stop, List.mem_cons_self, by rw [List.foldl_cons, h, if_pos rfl]⟩
      · refine Or.inr ⟨fun z hz => ?_, by rw [List.foldl_cons, h, if_neg ha]⟩
        rcases List.mem_cons.mp hz with he | hz
        · exact ha (congrArg Prod.fst he).symm
        · exact hnot z hz

/-- A transfer that waits for nothing else waits for all that it asks for. -/
theorem get?_requests (empty : t.outstanding = .empty) (chunkSize : UInt32) (a z : Nat) :
    (t.requests chunkSize).2.outstanding.get? a = some z ↔ (a, z) ∈ spans (max chunkSize.toNat 1) t.size.toNat := by
  have hs : 0 < max chunkSize.toNat 1 := by omega
  have hnone : t.outstanding.get? a = none := by rw [empty]; rfl
  have fold : (t.requests chunkSize).2 =
      (spans (max chunkSize.toNat 1) t.size.toNat).foldl (fun t part => t.ask part.1 part.2) t := rfl
  rw [fold]
  rcases get?_asked (spans (max chunkSize.toNat 1) t.size.toNat) t a with ⟨z', hz, h⟩ | ⟨hnot, h⟩ <;> rw [h]
  · constructor
    · intro he
      cases he
      exact hz
    · intro hz'
      rw [spans_unique hs hz' hz]
  · rw [hnone]
    exact ⟨fun he => (by cases he), fun hz => absurd hz (hnot z)⟩

theorem accounted_requests (empty : t.outstanding = .empty) (fresh : t.received = []) (chunkSize : UInt32) :
    (t.requests chunkSize).2.Accounted := by
  have hs : 0 < max chunkSize.toNat 1 := by omega
  have iff := get?_requests empty chunkSize
  obtain ⟨outstanding, h⟩ := t.requests_snd chunkSize
  have hsize : (t.requests chunkSize).2.size = t.size := by rw [h]
  have hreceived : (t.requests chunkSize).2.received = [] := by rw [h, fresh]
  refine ⟨by rw [hreceived]; trivial, fun i hi => ?_, fun a z ha => ?_, fun a z a' z' ha ha' => ?_,
    fun i hi => Or.inr ?_⟩
  · rw [hreceived] at hi
    exact absurd hi (Ranges.not_holds_nil i)
  · rw [hsize]
    exact spans_lt hs ((iff a z).mp ha)
  · exact spans_apart ((iff a z).mp ha) ((iff a' z').mp ha')
  · rw [hsize] at hi
    obtain ⟨a, z, hspan, hin⟩ := spans_cover hs hi
    exact ⟨a, z, (iff a z).mpr hspan, hin⟩

/-- Each range that is awaited has its request. -/
theorem requested (empty : t.outstanding = .empty) {chunkSize : UInt32} {a z : Nat}
    (h : (t.requests chunkSize).2.outstanding.get? a = some z) : t.requestFor a z ∈ (t.requests chunkSize).1 :=
  List.mem_map.mpr ⟨(a, z), (get?_requests empty chunkSize a z).mp h, rfl⟩

/-! ### Chunks -/

theorem start_le_stopOf (chunk : FileChunk) : chunk.offset.toNat ≤ stopOf chunk := by
  have := chunk.offset.toNat_lt_size
  unfold stopOf
  omega

/-- A chunk answers nothing that is awaited, or a request, or the first part of one. -/
theorem note_cases (t : Transfer) (hd : chunk.data ≠ []) :
    (t.outstanding.get? chunk.offset.toNat = none ∧
        t.note chunk = (none, { t with received := t.received.cover chunk.offset.toNat (stopOf chunk) })) ∨
      ∃ requested, t.outstanding.get? chunk.offset.toNat = some requested ∧
        ((requested ≤ stopOf chunk ∧ t.note chunk = (none, { t with
            received := t.received.cover chunk.offset.toNat (stopOf chunk)
            outstanding := t.outstanding.erase chunk.offset.toNat })) ∨
          stopOf chunk < requested ∧ t.note chunk = (some (t.requestFor (stopOf chunk) requested), { t with
            received := t.received.cover chunk.offset.toNat (stopOf chunk)
            outstanding := (t.outstanding.erase chunk.offset.toNat).insert (stopOf chunk) requested })) := by
  unfold note
  dsimp only
  cases hget : t.outstanding.get? chunk.offset.toNat with
  | none => exact Or.inl ⟨rfl, rfl⟩
  | some requested =>
    refine Or.inr ⟨requested, rfl, ?_⟩
    by_cases hstop : requested ≤ stopOf chunk
    · exact Or.inl ⟨hstop, by dsimp only; rw [if_pos (Or.inr hstop)]⟩
    · exact Or.inr ⟨Nat.lt_of_not_le hstop, by dsimp only; rw [if_neg (by simp [hd, hstop])]; rfl⟩

/-- What is awaited after a chunk was awaited before, at another place, or it is the rest that is asked for now. -/
theorem awaited_note (hd : chunk.data ≠ []) {a z : Nat} (h : (t.note chunk).2.outstanding.get? a = some z) :
    (a ≠ chunk.offset.toNat ∧ t.outstanding.get? a = some z) ∨ (t.note chunk).1 = some (t.requestFor a z) := by
  rcases t.note_cases hd with ⟨hnone, hn⟩ | ⟨requested, hsome, ⟨-, hn⟩ | ⟨-, hn⟩⟩ <;>
    rw [hn] at h ⊢ <;> dsimp only at h ⊢
  · refine Or.inl ⟨fun ha => ?_, h⟩
    rw [ha, hnone] at h
    cases h
  · rw [Table.get?_erase] at h
    split at h
    · cases h
    · rename_i ha
      exact Or.inl ⟨Ne.symm ha, h⟩
  · rw [Table.get?_insert, Table.get?_erase] at h
    split at h
    · rename_i ha
      cases h
      exact Or.inr (by rw [ha])
    · split at h
      · cases h
      · rename_i ha
        exact Or.inl ⟨Ne.symm ha, h⟩

/-- A piece of the announced content, with the announced edit count, is taken. -/
theorem fault?_of_piece {bytes : Bytes} (hs : t.size.toNat = bytes.length) (hc : chunk.client = t.client)
    (hd : chunk.data ≠ []) (hp : chunk.data <+: bytes.drop chunk.offset.toNat) :
    t.fault? chunk = none ∧ stopOf chunk ≤ t.size.toNat := by
  have hlen := hp.length_le
  have hpos := List.length_pos_iff.mpr hd
  rw [List.length_drop] at hlen
  have hle : stopOf chunk ≤ t.size.toNat := by
    unfold stopOf
    omega
  unfold fault?
  rw [if_neg (by simp [hc]), if_neg (by omega)]
  exact ⟨rfl, hle⟩

theorem requestFor_note (t : Transfer) (chunk : FileChunk) (a z : Nat) :
    (t.note chunk).2.requestFor a z = t.requestFor a z := by
  unfold requestFor
  rw [path_note, client_note]

theorem Accounted.arrive (acc : t.Accounted) {a b : Nat} (hb : b ≤ t.size.toNat) :
    { t with received := t.received.cover a b }.Accounted := by
  have holds : ∀ i, Ranges.Holds (t.received.cover a b) i ↔ Ranges.Holds t.received i ∨ a ≤ i ∧ i < b :=
    Ranges.mem_cover acc.apart
  refine ⟨acc.apart.cover, fun i hi => ?_, acc.asked, acc.disjoint, fun i hi => ?_⟩
  · rcases (holds i).mp hi with hi | hi
    · exact acc.inside i hi
    · exact Nat.lt_of_lt_of_le hi.2 hb
  · exact (acc.covered i hi).imp (fun h => (holds i).mpr (Or.inl h)) id

/-- A range that has arrived need not be awaited. -/
theorem Accounted.answered (acc : t.Accounted) {a z : Nat} (h : t.outstanding.get? a = some z)
    (arrived : ∀ i, a ≤ i → i < z → Ranges.Holds t.received i) :
    { t with outstanding := t.outstanding.erase a }.Accounted := by
  have get : ∀ {a' z'}, (t.outstanding.erase a).get? a' = some z' → t.outstanding.get? a' = some z' := by
    intro a' z' h
    rw [Table.get?_erase] at h
    split at h
    · cases h
    · exact h
  refine ⟨acc.apart, acc.inside, fun a z h => acc.asked a z (get h),
    fun a z a' z' h h' => acc.disjoint a z a' z' (get h) (get h'), fun i hi => ?_⟩
  rcases acc.covered i hi with hin | ⟨a', z', h', hin⟩
  · exact Or.inl hin
  · by_cases ha : a = a'
    · rw [← ha, h] at h'
      cases h'
      exact Or.inl (arrived i (ha ▸ hin.1) hin.2)
    · exact Or.inr ⟨a', z', by rw [Table.get?_erase, if_neg ha, h'], hin⟩

/-- Of a range whose first part has arrived, the rest is awaited. -/
theorem Accounted.shortened (acc : t.Accounted) {a b z : Nat} (h : t.outstanding.get? a = some z)
    (hab : a ≤ b) (hbz : b < z) (arrived : ∀ i, a ≤ i → i < b → Ranges.Holds t.received i) :
    { t with outstanding := (t.outstanding.erase a).insert b z }.Accounted := by
  -- The rest of the range takes no place that is awaited already.
  have free : ∀ {a' z'}, t.outstanding.get? a' = some z' → a' ≠ a → a' < a ∧ z' ≤ a ∨ z ≤ a' := by
    intro a' z' h' hne
    rcases Nat.lt_or_gt_of_ne hne with hlt | hgt
    · exact Or.inl ⟨hlt, acc.disjoint _ _ _ _ h' h hlt⟩
    · exact Or.inr (acc.disjoint _ _ _ _ h h' hgt)
  have get : ∀ {a' z'}, ((t.outstanding.erase a).insert b z).get? a' = some z' →
      (a' = b ∧ z' = z) ∨ (a' ≠ a ∧ t.outstanding.get? a' = some z') := by
    intro a' z' h
    rw [Table.get?_insert, Table.get?_erase] at h
    split at h
    · rename_i ha
      cases h
      exact Or.inl ⟨ha.symm, rfl⟩
    · split at h
      · cases h
      · rename_i ha
        exact Or.inr ⟨Ne.symm ha, h⟩
  refine ⟨acc.apart, acc.inside, fun a' z' h' => ?_, fun a₁ z₁ a₂ z₂ h₁ h₂ hlt => ?_, fun i hi => ?_⟩
  · rcases get h' with ⟨rfl, rfl⟩ | ⟨-, h'⟩
    · exact ⟨hbz, (acc.asked _ _ h).2⟩
    · exact acc.asked a' z' h'
  · rcases get h₁ with ⟨ha, hz⟩ | ⟨hne, hold⟩ <;> rcases get h₂ with ⟨ha', hz'⟩ | ⟨hne', hold'⟩
    · omega
    · have := free hold' hne'
      omega
    · have := free hold hne
      omega
    · exact acc.disjoint a₁ z₁ a₂ z₂ hold hold' hlt
  · rcases acc.covered i hi with hin | ⟨a', z', h', hin⟩
    · exact Or.inl hin
    · by_cases ha : a = a'
      · rw [← ha, h] at h'
        cases h'
        by_cases hbefore : i < b
        · exact Or.inl (arrived i (ha ▸ hin.1) hbefore)
        · exact Or.inr ⟨b, z, by rw [Table.get?_insert, if_pos rfl], Nat.le_of_not_lt hbefore, hin.2⟩
      · have := free h' (Ne.symm ha)
        refine Or.inr ⟨a', z', ?_, hin⟩
        rw [Table.get?_insert, if_neg (by omega), Table.get?_erase, if_neg ha, h']

theorem Accounted.note (acc : t.Accounted) (hd : chunk.data ≠ []) (hs : stopOf chunk ≤ t.size.toNat) :
    (t.note chunk).2.Accounted := by
  have after := acc.arrive (a := chunk.offset.toNat) hs
  have arrived : ∀ i, chunk.offset.toNat ≤ i → i < stopOf chunk →
      Ranges.Holds (t.received.cover chunk.offset.toNat (stopOf chunk)) i := fun i ha hb =>
    (Ranges.mem_cover acc.apart i).mpr (Or.inr ⟨ha, hb⟩)
  rcases t.note_cases hd with ⟨-, hn⟩ | ⟨requested, hsome, ⟨hstop, hn⟩ | ⟨hstop, hn⟩⟩ <;> rw [hn]
  · exact after
  · exact after.answered hsome fun i ha hz => arrived i ha (Nat.lt_of_lt_of_le hz hstop)
  · exact after.shortened hsome (start_le_stopOf chunk) hstop arrived

end Asking

end Transfer

end TreeReplica
