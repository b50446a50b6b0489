import Mathlib.Algebra.BigOperators.Group.List.Basic
import Mathlib.Algebra.GroupWithZero.Nat
import Mathlib.Data.List.Nodup
import TreeReplica.Proofs.Transfer.Asking

/-! A transfer whose requests are answered one by one, in any order. The requests that are not answered are
    the ranges that it awaits, and none of these has arrived (`Awaits`). An answer, however short, takes its
    request away and asks for the rest of its range (`Awaits.note`), so every answer leaves fewer bytes to ask
    for, and the transfer is complete as soon as no request is left (`Awaits.complete_iff`). -/

namespace TreeReplica
namespace Transfer

/-- The requests that are not answered yet ask for the ranges that are awaited, each once, and of these
    nothing has arrived. -/
structure Awaits (t : Transfer) (asked : List ChunkRequest) : Prop where
  accounted : t.Accounted
  missing : ∀ a z, t.outstanding.get? a = some z → ∀ i, a ≤ i → i < z → ¬Ranges.Holds t.received i
  narrow : ∀ a z, t.outstanding.get? a = some z → z - a < UInt32.size
  requests : ∀ request, request ∈ asked ↔ ∃ a z, t.outstanding.get? a = some z ∧ request = t.requestFor a z
  once : asked.Nodup

/-- How many bytes some requests ask for. -/
def bytesAsked (asked : List ChunkRequest) : Nat := (asked.map (·.size.toNat)).sum

theorem bytesAsked_perm {asked asked' : List ChunkRequest} (h : asked.Perm asked') :
    bytesAsked asked = bytesAsked asked' :=
  (h.map _).sum_eq

theorem bytesAsked_append (asked asked' : List ChunkRequest) :
    bytesAsked (asked ++ asked') = bytesAsked asked + bytesAsked asked' := by
  unfold bytesAsked
  rw [List.map_append, List.sum_append]

section Awaits
variable {t : Transfer} {asked : List ChunkRequest} {request : ChunkRequest} {chunk : FileChunk} {a z a' z' : Nat}

/-! ### Requests -/

theorem toNat_offset (ha : a < UInt64.size) : (t.requestFor a z).offset.toNat = a := UInt64.toNat_ofNat_of_lt' ha

theorem toNat_size (hz : z - a < UInt32.size) : (t.requestFor a z).size.toNat = z - a :=
  UInt32.toNat_ofNat_of_lt' hz

theorem requestFor_start (ha : a < UInt64.size) (ha' : a' < UInt64.size)
    (h : t.requestFor a z = t.requestFor a' z') : a = a' := by
  rw [← toNat_offset (t := t) (z := z) ha, h, toNat_offset ha']

/-- A request that is not answered asks for a range that is awaited. -/
theorem Awaits.range (h : t.Awaits asked) (hr : request ∈ asked) :
    ∃ a z, t.outstanding.get? a = some z ∧ request = t.requestFor a z ∧ a < z ∧ z ≤ t.size.toNat ∧
    request.offset.toNat = a ∧
      request.size.toNat = z - a := by
  obtain ⟨a, z, hget, rfl⟩ := (h.requests request).mp hr
  obtain ⟨hlt, hle⟩ := h.accounted.asked a z hget
  have hsize := t.size.toNat_lt_size
  exact ⟨a, z, hget, rfl, hlt, hle, toNat_offset (by omega), toNat_size (h.narrow a z hget)⟩

/-- No two requests ask for the same offset. -/
theorem Awaits.eq_of_offset (h : t.Awaits asked) {request' : ChunkRequest} (hr : request ∈ asked)
    (hr' : request' ∈ asked) (he : request.offset = request'.offset) : request = request' := by
  obtain ⟨a, z, hget, rfl, -, -, ha, -⟩ := h.range hr
  obtain ⟨a', z', hget', rfl, -, -, ha', -⟩ := h.range hr'
  have same : a = a' := by rw [← ha, he, ha']
  subst same
  rw [Option.some.inj (hget.symm.trans hget')]

theorem Awaits.start_lt (h : t.Awaits asked) (hget : t.outstanding.get? a = some z) : a < UInt64.size := by
  obtain ⟨hlt, hle⟩ := h.accounted.asked a z hget
  have hsize := t.size.toNat_lt_size
  omega

theorem Awaits.complete_iff (h : t.Awaits asked) : t.complete = true ↔ asked = [] := by
  constructor
  · intro hc
    rw [List.eq_nil_iff_forall_not_mem]
    intro request hr
    obtain ⟨a, z, hget, -, hlt, hle, -⟩ := h.range hr
    exact h.missing a z hget a (Nat.le_refl a) hlt (Ranges.holds_of_full hc (Nat.lt_of_lt_of_le hlt hle))
  · rintro rfl
    refine h.accounted.complete fun a => ?_
    cases hget : t.outstanding.get? a with
    | none => rfl
    | some z => exact absurd ((h.requests _).mpr ⟨a, z, hget, rfl⟩) List.not_mem_nil

/-- The order of the requests does not matter. -/
theorem Awaits.perm {asked' : List ChunkRequest} (h : t.Awaits asked) (hp : asked.Perm asked') : t.Awaits asked' :=
  { h with
    requests := fun request => by rw [← hp.mem_iff, h.requests]
    once := hp.nodup_iff.mp h.once }

/-- Every request asks for some byte. -/
theorem Awaits.length_le (h : t.Awaits asked) {part : List ChunkRequest} (hpart : part ⊆ asked) :
    part.length ≤ bytesAsked part := by
  unfold bytesAsked
  rw [← List.length_map (·.size.toNat)]
  refine List.length_le_sum_of_one_le _ fun n hn => ?_
  obtain ⟨request, hr, rfl⟩ := List.mem_map.mp hn
  obtain ⟨a, z, -, -, hlt, -, -, hsize⟩ := h.range (hpart hr)
  omega

/-! ### The first requests -/

theorem requestFor_requests (t : Transfer) (chunkSize : UInt32) (a z : Nat) :
    (t.requests chunkSize).2.requestFor a z = t.requestFor a z := by
  obtain ⟨outstanding, h⟩ := t.requests_snd chunkSize
  rw [h]
  rfl

theorem span_narrow {chunkSize : UInt32} {size : Nat} (h : (a, z) ∈ spans (max chunkSize.toNat 1) size) :
    z - a < UInt32.size := by
  obtain ⟨i, -, rfl, rfl⟩ := mem_spans.mp h
  have := chunkSize.toNat_lt_size
  have hone : 1 < UInt32.size := by decide
  omega

theorem sum_spans {step size : Nat} (hs : 0 < step) :
    ((spans step size).map fun part => part.2 - part.1).sum = size := by
  -- The first spans reach as far as their number tells.
  have reach : ∀ n ≤ (size + step - 1) / step,
      ((List.range n).map fun i => min (i * step + step) size - i * step).sum = min (n * step) size := by
    intro n hn
    induction n with
    | zero => simp
    | succ n ih =>
      have hstart := start_lt_of_lt hs (Nat.lt_of_succ_le hn)
      rw [List.range_succ, List.map_append, List.sum_append, ih (Nat.le_of_succ_le hn), Nat.add_mul, Nat.one_mul]
      simp only [List.map_cons, List.map_nil, List.sum_cons, List.sum_nil]
      omega
  have hall : size ≤ (size + step - 1) / step * step := by
    have := Nat.div_add_mod' (size + step - 1) step
    have := Nat.mod_lt (size + step - 1) hs
    omega
  unfold spans
  rw [List.map_map]
  exact (reach _ (Nat.le_refl _)).trans (Nat.min_eq_right hall)

theorem bytesAsked_requests (t : Transfer) (chunkSize : UInt32) :
    bytesAsked (t.requests chunkSize).1 = t.size.toNat := by
  have hsum : ((spans (max chunkSize.toNat 1) t.size.toNat).map fun part => part.2 - part.1).sum = t.size.toNat :=
    sum_spans (by omega)
  have sizes : (t.requests chunkSize).1.map (·.size.toNat) =
      (spans (max chunkSize.toNat 1) t.size.toNat).map fun part => part.2 - part.1 := by
    unfold requests
    rw [List.map_map]
    exact List.map_congr_left fun part hpart => toNat_size (span_narrow hpart)
  rw [bytesAsked, sizes, hsum]

/-- A transfer that begins awaits all that it asks for. -/
theorem awaits_requests (empty : t.outstanding = .empty) (fresh : t.received = []) (chunkSize : UInt32) :
    (t.requests chunkSize).2.Awaits (t.requests chunkSize).1 := by
  have hs : 0 < max chunkSize.toNat 1 := by omega
  have iff := get?_requests empty chunkSize
  have acc := accounted_requests empty fresh chunkSize
  have hreceived : (t.requests chunkSize).2.received = [] := by
    obtain ⟨outstanding, h⟩ := t.requests_snd chunkSize
    rw [h, fresh]
  refine ⟨acc, fun a z _ i _ _ hi => ?_, fun a z hget => span_narrow ((iff a z).mp hget), fun request => ?_, ?_⟩
  · rw [hreceived] at hi
    obtain ⟨p, hp, -⟩ := hi
    cases hp
  · constructor
    · intro hr
      obtain ⟨⟨a, z⟩, hspan, rfl⟩ := List.mem_map.mp hr
      exact ⟨a, z, (iff a z).mpr hspan, (t.requestFor_requests chunkSize a z).symm⟩
    · rintro ⟨a, z, hget, rfl⟩
      rw [requestFor_requests]
      exact requested empty hget
  · refine (List.Nodup.map_on ?_ ?_)
    · rintro ⟨a, z⟩ hspan ⟨a', z'⟩ hspan' he
      have hsize := t.size.toNat_lt_size
      have hlt := spans_lt hs hspan
      have hlt' := spans_lt hs hspan'
      obtain rfl := requestFor_start (by omega) (by omega) he
      rw [spans_unique hs hspan hspan']
    · refine List.Nodup.map (fun i j he => ?_) List.nodup_range
      exact Nat.eq_of_mul_eq_mul_right hs (Prod.mk.inj he).1

/-! ### Answers -/

theorem Awaits.elsewhere (h : t.Awaits asked) (hget : t.outstanding.get? a = some z)
    (hget' : t.outstanding.get? a' = some z') (hne : a' ≠ a) : z' ≤ a ∨ z ≤ a' := by
  rcases Nat.lt_or_gt_of_ne hne with hlt | hgt
  · exact Or.inl (h.accounted.disjoint a' z' a z hget' hget hlt)
  · exact Or.inr (h.accounted.disjoint a z a' z' hget hget' hgt)

theorem Awaits.mem_erase (h : t.Awaits asked) (hget : t.outstanding.get? a = some z) (request : ChunkRequest) :
    request ∈ asked.erase (t.requestFor a z) ↔
      ∃ a' z', a' ≠ a ∧ t.outstanding.get? a' = some z' ∧ request = t.requestFor a' z' := by
  rw [h.once.mem_erase_iff, h.requests]
  constructor
  · rintro ⟨hne, a', z', hget', rfl⟩
    refine ⟨a', z', ?_, hget', rfl⟩
    rintro rfl
    exact hne (by rw [Option.some.inj (hget'.symm.trans hget)])
  · rintro ⟨a', z', hne, hget', rfl⟩
    exact ⟨fun he => hne (requestFor_start (h.start_lt hget') (h.start_lt hget) he), a', z', hget', rfl⟩

/-- A range that has arrived is not asked for any more. -/
theorem Awaits.answered (h : t.Awaits asked) (hget : t.outstanding.get? a = some z)
    (acc : { t with received := t.received.cover a z, outstanding := t.outstanding.erase a }.Accounted) :
    { t with received := t.received.cover a z, outstanding := t.outstanding.erase a }.Awaits
      (asked.erase (t.requestFor a z)) := by
  have get : ∀ {a' z'}, (t.outstanding.erase a).get? a' = some z' ↔ a' ≠ a ∧ t.outstanding.get? a' = some z' := by
    intro a' z'
    rw [Table.get?_erase]
    split
    · rename_i he
      exact ⟨fun h => (by cases h), fun h => absurd he.symm h.1⟩
    · rename_i he
      exact ⟨fun h => ⟨Ne.symm he, h⟩, And.right⟩
  refine ⟨acc, fun a' z' hget' i hi hi' held => ?_,
    fun a' z' hget' => h.narrow a' z' (get.mp hget').2, fun request => ?_, h.once.erase _⟩
  · obtain ⟨hne, old⟩ := get.mp hget'
    rcases (Ranges.mem_cover h.accounted.apart i).mp held with before | hin
    · exact h.missing a' z' old i hi hi' before
    · have := h.elsewhere hget old hne
      omega
  · rw [h.mem_erase hget]
    constructor
    · rintro ⟨a', z', hne, hget', rfl⟩
      exact ⟨a', z', get.mpr ⟨hne, hget'⟩, rfl⟩
    · rintro ⟨a', z', hget', rfl⟩
      exact ⟨a', z', (get.mp hget').1, (get.mp hget').2, rfl⟩

/-- Of a range whose first part has arrived the rest is asked for again. -/
theorem Awaits.shortened (h : t.Awaits asked) (hget : t.outstanding.get? a = some z) {b : Nat} (hab : a < b)
    (hbz : b < z) (acc : { t with
      received := t.received.cover a b, outstanding := (t.outstanding.erase a).insert b z }.Accounted) :
    { t with received := t.received.cover a b, outstanding := (t.outstanding.erase a).insert b z }.Awaits
      (asked.erase (t.requestFor a z) ++ [t.requestFor b z]) := by
  -- The rest of the range takes no place that is awaited already.
  have free : ∀ {a' z'}, t.outstanding.get? a' = some z' → a' ≠ a → a' ≠ b := by
    intro a' z' old hne he
    have := h.accounted.asked _ _ old
    have := h.elsewhere hget old hne
    omega
  have get : ∀ {a' z'}, ((t.outstanding.erase a).insert b z).get? a' = some z' ↔
      (a' = b ∧ z' = z) ∨ (a' ≠ a ∧ t.outstanding.get? a' = some z') := by
    intro a' z'
    rw [Table.get?_insert, Table.get?_erase]
    split
    · rename_i he
      subst he
      constructor
      · intro h
        cases h
        exact Or.inl ⟨rfl, rfl⟩
      · rintro (⟨-, rfl⟩ | ⟨hne, old⟩)
        · rfl
        · exact absurd rfl (free old hne)
    · rename_i hne
      split
      · rename_i he
        exact ⟨fun h => (by cases h), fun h => by omega⟩
      · rename_i he
        exact ⟨fun h => Or.inr ⟨Ne.symm he, h⟩, fun h => h.elim (fun h => absurd h.1.symm hne) And.right⟩
  have narrow := h.narrow a z hget
  have hz := h.accounted.asked a z hget
  have hsize := t.size.toNat_lt_size
  refine ⟨acc, fun a' z' hget' i hi hi' held => ?_, fun a' z' hget' => ?_, fun request => ?_, ?_⟩
  · rcases (Ranges.mem_cover h.accounted.apart i).mp held with before | hin <;>
      rcases get.mp hget' with ⟨rfl, rfl⟩ | ⟨hne, old⟩
    · exact h.missing a z' hget i (by omega) hi' before
    · exact h.missing a' z' old i hi hi' before
    · omega
    · have := h.elsewhere hget old hne
      omega
  · rcases get.mp hget' with ⟨rfl, rfl⟩ | ⟨-, old⟩
    · omega
    · exact h.narrow a' z' old
  · rw [List.mem_append, List.mem_singleton, h.mem_erase hget]
    constructor
    · rintro (⟨a', z', hne, hget', rfl⟩ | rfl)
      · exact ⟨a', z', get.mpr (Or.inr ⟨hne, hget'⟩), rfl⟩
      · exact ⟨b, z, get.mpr (Or.inl ⟨rfl, rfl⟩), rfl⟩
    · rintro ⟨a', z', hget', rfl⟩
      rcases get.mp hget' with ⟨rfl, rfl⟩ | ⟨hne, old⟩
      · exact Or.inr rfl
      · exact Or.inl ⟨a', z', hne, old, rfl⟩
  · refine List.nodup_append.mpr ⟨h.once.erase _, List.nodup_singleton _, fun request hmem rest hrest he => ?_⟩
    obtain ⟨a', z', hne, old, rfl⟩ := (h.mem_erase hget request).mp hmem
    rw [List.mem_singleton.mp hrest] at he
    exact free old hne (requestFor_start (h.start_lt old) (by omega) he)

/-- An answer to a request takes the request away, and what it does not answer is asked for again. -/
theorem Awaits.note (h : t.Awaits asked) (hr : request ∈ asked) (offset : chunk.offset = request.offset)
    (hd : chunk.data ≠ []) (short : chunk.data.length ≤ request.size.toNat) :
    (t.note chunk).2.Awaits (asked.erase request ++ (t.note chunk).1.toList) ∧
      bytesAsked (asked.erase request ++ (t.note chunk).1.toList) + chunk.data.length = bytesAsked asked := by
  obtain ⟨a, z, hget, rfl, hlt, hle, hoffset, hsize⟩ := h.range hr
  rw [← offset] at hoffset
  have hpos := List.length_pos_iff.mpr hd
  have hbound := t.size.toNat_lt_size
  have hstop : stopOf chunk = a + chunk.data.length := by
    unfold stopOf
    omega
  have acc := h.accounted.note hd (by omega)
  have sum : (z - a) + bytesAsked (asked.erase (t.requestFor a z)) = bytesAsked asked := by
    rw [← hsize]
    exact List.sum_map_erase (fun request : ChunkRequest => request.size.toNat) hr
  rcases t.note_cases hd with ⟨hnone, -⟩ | ⟨requested, hsome, ⟨hfull, hn⟩ | ⟨hshort, hn⟩⟩
  · rw [hoffset, hget] at hnone
    cases hnone
  · rw [hoffset, hget] at hsome
    cases hsome
    have hz : stopOf chunk = z := by omega
    rw [hoffset, hz] at hn
    rw [hn] at acc ⊢
    rw [Option.toList_none, List.append_nil]
    exact ⟨h.answered hget acc, by omega⟩
  · rw [hoffset, hget] at hsome
    cases hsome
    rw [hoffset] at hn
    rw [hn] at acc ⊢
    have rest : bytesAsked (asked.erase (t.requestFor a z) ++ [t.requestFor (stopOf chunk) z]) =
        bytesAsked (asked.erase (t.requestFor a z)) + (z - stopOf chunk) := by
      have := h.narrow a z hget
      rw [← toNat_size (t := t) (a := stopOf chunk) (z := z) (by omega)]
      simp [bytesAsked]
    rw [Option.toList_some, rest]
    exact ⟨h.shortened hget (by omega) hshort acc, by omega⟩

end Awaits
end Transfer
end TreeReplica
