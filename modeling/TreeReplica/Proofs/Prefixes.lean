import Mathlib.Algebra.BigOperators.Ring.Finset
import Mathlib.Data.List.GetD
import TreeReplica.Proofs.Varint

/-! Length prefixes, byte by byte. The bytes of a buffer alone say whether it begins with the prefix of a
    number (`Varint.Spells`) or with bytes that no prefix begins with (`Varint.Broken`), and reading it finds
    out just that (`Varint.prefixes_exact`). -/

namespace TreeReplica

namespace Varint
variable {n k : Nat} {v : UInt64} {last tenth : UInt8} {buffer leading nine more : Bytes}

/-- The first `k` bytes of a buffer are a prefix of the number `n`: all of them but the last go on, and their
    groups, byte `i` counting for `128 ^ i`, make up the number, which is one of 64 bits. -/
structure Spells (buffer : Bytes) (k n : Nat) : Prop where
  length : 1 ≤ k ∧ k ≤ 10 ∧ k ≤ buffer.length
  goes : ∀ i < k - 1, continues (buffer.getD i 0) = true
  ends : continues (buffer.getD (k - 1) 0) = false
  sum : n = ∑ i ∈ Finset.range k, group (buffer.getD i 0) * Nat.pow 128 i
  fits : n < Nat.pow 2 64

/-- Nine bytes of a buffer go on, and the tenth is too large for the one bit that is left of 64, or it goes on
    as well and is not the last byte. -/
structure Broken (buffer : Bytes) : Prop where
  goes : ∀ i < 9, continues (buffer.getD i 0) = true
  tenth : 1 < group (buffer.getD 9 0) ∨
    group (buffer.getD 9 0) ≤ 1 ∧ continues (buffer.getD 9 0) = true ∧ 11 ≤ buffer.length

/-! ### Places of bytes -/

theorem value_eq_sum (bytes : Bytes) :
    value bytes = ∑ i ∈ Finset.range bytes.length, group (bytes.getD i 0) * Nat.pow 128 i := by
  induction bytes with
  | nil => simp [value]
  | cons b rest ih =>
    have hshift : ∀ i, group ((b :: rest).getD (i + 1) 0) * Nat.pow 128 (i + 1) =
        128 * (group (rest.getD i 0) * Nat.pow 128 i) := by
      intro i
      have hpow : Nat.pow 128 (i + 1) = Nat.pow 128 i * 128 := rfl
      rw [List.getD_cons_succ, hpow, ← Nat.mul_assoc, Nat.mul_comm]
    have hfirst : group ((b :: rest).getD 0 0) * Nat.pow 128 0 = group b := Nat.mul_one _
    rw [List.length_cons, Finset.sum_range_succ', Finset.sum_congr rfl fun i _ => hshift i,
      ← Finset.mul_sum, ← ih, value, hfirst, Nat.add_comm]

theorem getD_leading {i : Nat} (hi : i < leading.length) : (leading ++ more).getD i 0 = leading.getD i 0 :=
  List.getD_append _ _ _ _ hi

theorem getD_last : (leading ++ last :: more).getD leading.length 0 = last := by
  simp

/-- Bytes that go on, place by place or one by one. -/
theorem forall_getD_continues : (∀ i < leading.length, continues ((leading ++ more).getD i 0) = true) ↔
    ∀ b ∈ leading, continues b = true := by
  constructor
  · intro h b hb
    obtain ⟨i, hi, rfl⟩ := List.mem_iff_getElem.mp hb
    have hgo := h i hi
    rwa [getD_leading hi, List.getD_eq_getElem _ _ hi] at hgo
  · intro h i hi
    rw [getD_leading hi, List.getD_eq_getElem _ _ hi]
    exact h _ (List.getElem_mem hi)

/-- A buffer that has a byte at a place, cut there. -/
theorem exists_cut (h : k < buffer.length) :
    ∃ leading last more, buffer = leading ++ last :: more ∧ leading.length = k := by
  refine ⟨buffer.take k, buffer[k], buffer.drop (k + 1), ?_, List.length_take_of_le (Nat.le_of_lt h)⟩
  rw [List.getElem_cons_drop, List.take_append_drop]

theorem sum_append : ∑ i ∈ Finset.range (leading.length + 1),
    group ((leading ++ last :: more).getD i 0) * Nat.pow 128 i =
    value (leading ++ [last]) := by
  rw [value_eq_sum, List.length_append, List.length_singleton]
  refine Finset.sum_congr rfl fun i hi => ?_
  rw [List.append_cons, getD_leading (by simpa using hi)]

theorem spells_append_iff : Spells (leading ++ last :: more) (leading.length + 1) n ↔ leading.length < maxLength ∧
    (∀ b ∈ leading, continues b = true) ∧ continues last = false ∧
    n = value (leading ++ [last]) ∧ n < UInt64.size := by
  constructor
  · intro h
    have hends := h.ends
    rw [Nat.add_sub_cancel, getD_last] at hends
    exact ⟨h.length.2.1, forall_getD_continues.mp h.goes, hends, h.sum.trans sum_append, h.fits⟩
  · rintro ⟨hshort, hgo, hends, hvalue, hfits⟩
    refine ⟨⟨Nat.le_add_left 1 _, hshort, by simp⟩, forall_getD_continues.mpr hgo, ?_,
      hvalue.trans sum_append.symm, hfits⟩
    rwa [Nat.add_sub_cancel, getD_last]

theorem broken_append_iff (hnine : nine.length = 9) :
    Broken (nine ++ tenth :: more) ↔ (∀ b ∈ nine, continues b = true) ∧
    (1 < group tenth ∨ group tenth ≤ 1 ∧ continues tenth = true ∧ more ≠ []) := by
  have htenth : (nine ++ tenth :: more).getD 9 0 = tenth := by rw [← hnine, getD_last]
  have hmore : 11 ≤ (nine ++ tenth :: more).length ↔ more ≠ [] := by
    rw [← List.length_pos_iff, List.length_append, List.length_cons, hnine]
    omega
  constructor
  · intro h
    have hcases := h.tenth
    rw [htenth, hmore] at hcases
    exact ⟨forall_getD_continues.mp (by rw [hnine]; exact h.goes), hcases⟩
  · rintro ⟨hgo, hcases⟩
    refine ⟨by rw [← hnine]; exact forall_getD_continues.mpr hgo, ?_⟩
    rwa [htenth, hmore]

/-- A tenth byte that is too large or goes on is there. -/
theorem Broken.lt_length (h : Broken buffer) : 9 < buffer.length := by
  refine Nat.lt_of_not_le fun hle => ?_
  have habsent : buffer.getD 9 0 = 0 := List.getD_eq_default _ _ hle
  have htenth := h.tenth
  rw [habsent] at htenth
  rcases htenth with hbig | ⟨-, hgo, -⟩
  · exact absurd hbig (by decide)
  · exact absurd hgo (by decide)

/-! ### Reading -/

theorem decode_complete_iff : decode buffer = .complete v k ↔ Spells buffer k v.toNat := by
  constructor
  · intro h
    cases decode_eq_iff.mp h with
    | complete more goes ends short fits =>
      have hvalue := UInt64.toNat_ofNat_of_lt' fits
      exact spells_append_iff.mpr ⟨short, goes, ends, hvalue, by rwa [hvalue]⟩
  · intro h
    obtain ⟨hpos, -, hle⟩ := h.length
    obtain ⟨leading, last, more, rfl, hlength⟩ := exists_cut (Nat.lt_of_lt_of_le (Nat.sub_one_lt_of_lt hpos) hle)
    obtain rfl : k = leading.length + 1 := by omega
    obtain ⟨hshort, hgo, hends, hvalue, hfits⟩ := spells_append_iff.mp h
    rw [decode_complete hgo hends hshort (by rwa [← hvalue]), ← hvalue, UInt64.ofNat_toNat]

theorem decode_refused_iff : (∃ e read, decode buffer = .refused e read) ↔ Broken buffer := by
  constructor
  · rintro ⟨e, read, h⟩
    cases decode_eq_iff.mp h with
    | overflow more goes length big => exact (broken_append_iff length).mpr ⟨goes, Or.inl big⟩
    | tooLong eleventh more goes length tenthGoes small =>
      exact (broken_append_iff length).mpr ⟨goes, Or.inr ⟨small, tenthGoes, nofun⟩⟩
  · intro h
    obtain ⟨nine, tenth, more, rfl, hnine⟩ := exists_cut h.lt_length
    obtain ⟨hgo, hbig | ⟨hsmall, htenth, hmore⟩⟩ := (broken_append_iff hnine).mp h
    · exact ⟨_, _, decode_overflow hgo hnine hbig more⟩
    · obtain ⟨eleventh, more, rfl⟩ := List.exists_cons_of_ne_nil hmore
      exact ⟨_, _, decode_tooLong hgo hnine htenth hsmall eleventh more⟩

theorem decode_incomplete_iff : decode buffer = .incomplete ↔ (∀ k n, ¬Spells buffer k n) ∧ ¬Broken buffer := by
  constructor
  · intro h
    refine ⟨fun k n hspells => ?_, fun hbroken => ?_⟩
    · have hnumber : (UInt64.ofNat n).toNat = n := UInt64.toNat_ofNat_of_lt' hspells.fits
      rw [decode_complete_iff.mpr (hnumber.symm ▸ hspells)] at h
      cases h
    · obtain ⟨e, read, hrefused⟩ := decode_refused_iff.mpr hbroken
      rw [hrefused] at h
      cases h
  · rintro ⟨hspells, hbroken⟩
    cases h : decode buffer with
    | incomplete => rfl
    | refused e read => exact absurd (decode_refused_iff.mp ⟨e, read, h⟩) hbroken
    | complete v k => exact absurd (decode_complete_iff.mp h) (hspells k v.toNat)

/-- No bytes that read as a number are as short as its prefix, but for the prefix itself. -/
theorem eq_encode_or_longer (h : decode buffer = .complete v k) :
    buffer = encode v ∨ encodedLength v < buffer.length := by
  cases decode_eq_iff.mp h with
  | @complete leading last more goes ends short fits =>
    have hnumber : (UInt64.ofNat (value (leading ++ [last]))).toNat = value (leading ++ [last]) :=
      UInt64.toNat_ofNat_of_lt' fits
    have hlength : (leading ++ [last] ++ more).length = (leading ++ [last]).length + more.length :=
      List.length_append
    rw [encode, encodedLength, hnumber, List.append_cons, hlength]
    rcases eq_encodeNat_or_longer goes ends with heq | hlt
    · cases more with
      | nil => exact Or.inl (by rw [List.append_nil, ← heq])
      | cons b rest =>
        have hshort : lengthNat (value (leading ++ [last])) = (leading ++ [last]).length := by
          rw [← length_encodeNat, ← heq]
        rw [hshort, List.length_cons]
        exact Or.inr (by omega)
    · exact Or.inr (Nat.lt_add_right _ hlt)

/-- Reading the front of a buffer gives a number exactly if the front spells it, and it is refused exactly if
    it is broken; in all other cases more bytes are awaited. The prefix of a number reads as the number
    whatever follows it, has the length that is counted for it, at most ten bytes, and is the shortest of all
    bytes that read as the number. -/
theorem prefixes_exact :
    (∀ buffer v k, decode buffer = .complete v k ↔ Spells buffer k v.toNat) ∧
    (∀ buffer, (∃ e read, decode buffer = .refused e read) ↔ Broken buffer) ∧
    (∀ buffer, decode buffer = .incomplete ↔ (∀ k n, ¬Spells buffer k n) ∧ ¬Broken buffer) ∧
    ∀ n : UInt64, (∀ more, decode (encode n ++ more) = .complete n (encodedLength n)) ∧
      (encode n).length = encodedLength n ∧ encodedLength n ≤ 10 ∧
      ∀ bytes k, decode bytes = .complete n k → bytes = encode n ∨ encodedLength n < bytes.length := by
  refine ⟨fun buffer v k => decode_complete_iff, fun buffer => decode_refused_iff,
    fun buffer => decode_incomplete_iff, fun n => ?_⟩
  refine ⟨fun more => ?_, length_encode n, encodedLength_le n, fun bytes k => eq_encode_or_longer⟩
  rw [decode_encode, length_encode]

/-- Zero in two bytes, a group too large for its place, and ten bytes that go on with and without an eleventh. -/
theorem sample_prefixes :
    decode [0x80, 0x00, 0xff] = .complete 0 2 ∧ encodedLength 0 < 2 ∧ Broken (List.replicate 9 0xff ++ [0x02]) ∧
      Broken (List.replicate 11 0x81) ∧ ¬Broken (List.replicate 10 0x81) := by
  obtain ⟨numbers, refused, awaited, own⟩ := prefixes_exact
  have spelled : ∀ more, decode ([0x80, 0x00] ++ more) = .complete 0 2 := fun more =>
    (numbers _ 0 2).mpr ⟨⟨by decide, by decide, by simp⟩, by simp [continues], by simp [continues],
      by simp [Finset.sum_range_succ, group], by decide⟩
  have longer := ((own 0).2.2.2 [0x80, 0x00] 2 (spelled [])).resolve_left (by simp [encode, encodeNat])
  exact ⟨spelled [0xff], longer, (refused _).mp ⟨_, _, rfl⟩, (refused _).mp ⟨_, _, rfl⟩, ((awaited _).mp rfl).2⟩

end Varint

end TreeReplica
