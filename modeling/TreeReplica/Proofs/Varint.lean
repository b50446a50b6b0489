import TreeReplica.Wire.Varint

/-! What the front of a buffer says about a length prefix. `Varint.Reads` describes the outcomes by the bytes
    alone, and the decoder finds just the one that applies (`Varint.decode_eq_iff`). The prefix of a number
    reads back, whatever stands behind it (`Varint.decode_encode`), and every other prefix of it is longer
    (`Varint.eq_encodeNat_or_longer`). -/

namespace TreeReplica

namespace Varint
variable {n k : Nat} {b last tenth : UInt8} {buffer leading nine more : Bytes} {d : Decoder}

/-! ### Groups -/

theorem pow_groups (k : Nat) : Nat.pow 128 k = Nat.pow 2 (7 * k) := (Nat.pow_mul 2 7 k).symm

theorem group_lt (b : UInt8) : group b < 128 := Nat.mod_lt _ (by decide)

theorem Decoder.toNat_shift (hplace : d.groups < maxLength) : d.shift.toNat % 64 = 7 * d.groups := by
  have hplace : d.groups < 10 := hplace
  have hsize : 7 * d.groups < UInt64.size := Nat.lt_trans (show 7 * d.groups < 64 by omega) (by decide)
  rw [shift, UInt64.toNat_ofNat_of_lt' hsize]
  omega

theorem toNat_ofNat_group (b : UInt8) : (UInt64.ofNat (group b)).toNat = group b :=
  UInt64.toNat_ofNat_of_lt' (Nat.lt_trans (group_lt b) (by decide))

/-- A group shifted to its place is its value there, as far as 64 bits hold it. -/
theorem Decoder.toNat_shifted (b : UInt8) (hplace : d.groups < maxLength) :
    (UInt64.ofNat (group b) <<< d.shift).toNat = group b * Nat.pow 128 d.groups % UInt64.size := by
  rw [UInt64.toNat_shiftLeft, toNat_ofNat_group, toNat_shift hplace, Nat.shiftLeft_eq, pow_groups]
  rfl

theorem Decoder.shifted_eq (hplace : d.groups < maxLength) (hfit : group b * Nat.pow 128 d.groups < UInt64.size) :
    UInt64.ofNat (group b) <<< d.shift = .ofNat (group b * Nat.pow 128 d.groups) := by
  rw [← UInt64.toNat_inj, toNat_shifted b hplace, Nat.mod_eq_of_lt hfit, UInt64.toNat_ofNat_of_lt' hfit]

/-- Shifted to its place and back, a group is the same just if 64 bits hold its value at its place. -/
theorem Decoder.shifted_back_iff (b : UInt8) (hplace : d.groups < maxLength) :
    UInt64.ofNat (group b) <<< d.shift >>> d.shift = .ofNat (group b) ↔
      group b * Nat.pow 128 d.groups < UInt64.size := by
  rw [← UInt64.toNat_inj, UInt64.toNat_shiftRight, toNat_shifted b hplace, toNat_ofNat_group, toNat_shift hplace,
    Nat.shiftRight_eq_div_pow]
  show group b * Nat.pow 128 d.groups % UInt64.size / Nat.pow 2 (7 * d.groups) = group b ↔ _
  rw [← pow_groups]
  constructor
  · intro hback
    calc group b * Nat.pow 128 d.groups
        = group b * Nat.pow 128 d.groups % UInt64.size / Nat.pow 128 d.groups * Nat.pow 128 d.groups := by
          rw [hback]
      _ ≤ group b * Nat.pow 128 d.groups % UInt64.size := Nat.div_mul_le_self _ _
      _ < UInt64.size := Nat.mod_lt _ (by decide)
  · intro hfit
    have hpos : 0 < Nat.pow 128 d.groups := Nat.pow_pos (by decide)
    rw [Nat.mod_eq_of_lt hfit, Nat.mul_div_cancel _ hpos]

/-- Joining a group to the groups before it adds its value at its place. -/
theorem or_group {value : Nat} (h : value < Nat.pow 128 k) (n : Nat) :
    value ||| n * Nat.pow 128 k = value + n * Nat.pow 128 k := by
  rw [pow_groups] at h ⊢
  calc value ||| n * Nat.pow 2 (7 * k) = Nat.pow 2 (7 * k) * n ||| value := by rw [Nat.or_comm, Nat.mul_comm]
    _ = Nat.pow 2 (7 * k) * n + value := (Nat.two_pow_add_eq_or_of_lt h n).symm
    _ = value + n * Nat.pow 2 (7 * k) := by rw [Nat.add_comm, Nat.mul_comm]

theorem continues_iff : continues b = true ↔ 128 ≤ b.toNat := by
  simp [continues, UInt8.le_iff_toNat_le]

/-- A byte that ends a prefix is its group. -/
theorem ofNat_group (h : continues b = false) : UInt8.ofNat (group b) = b := by
  have hlt : ¬128 ≤ b.toNat := fun hle => by simp [continues_iff.mpr hle] at h
  rw [group, Nat.mod_eq_of_lt (by omega), UInt8.ofNat_toNat]

/-- A byte with which a prefix goes on is its group and the continuation bit. -/
theorem ofNat_group_add (h : continues b = true) : UInt8.ofNat (group b + 128) = b := by
  have hle := continues_iff.mp h
  have hlt := b.toNat_lt
  rw [group, show b.toNat % 128 + 128 = b.toNat by omega, UInt8.ofNat_toNat]

theorem group_last (h : n < 128) : group (.ofNat n) = n ∧ continues (.ofNat n) = false := by
  have hb : (UInt8.ofNat n).toNat = n := UInt8.toNat_ofNat_of_lt' (by simp only [UInt8.size]; omega)
  refine ⟨by rw [group, hb, Nat.mod_eq_of_lt h], ?_⟩
  simp only [continues, ge_iff_le, UInt8.le_iff_toNat_le, hb, decide_eq_false_iff_not]
  exact Nat.not_le.mpr h

theorem group_more (n : Nat) : group (.ofNat (n % 128 + 128)) = n % 128 ∧
    continues (.ofNat (n % 128 + 128)) = true := by
  have hb : (UInt8.ofNat (n % 128 + 128)).toNat = n % 128 + 128 :=
    UInt8.toNat_ofNat_of_lt' (by simp only [UInt8.size]; omega)
  refine ⟨by rw [group, hb]; omega, ?_⟩
  simp only [continues, ge_iff_le, UInt8.le_iff_toNat_le, hb, decide_eq_true_eq]
  exact Nat.le_add_left 128 _

/-! ### Decoders -/

/-- A decoder has completed a group with each byte, and its value is that of the groups. -/
structure Decoder.Sound (d : Decoder) : Prop where
  pushed : d.pushed = d.groups
  value : d.value.toNat < Nat.pow 128 d.groups

theorem sound_start : Decoder.start.Sound := ⟨rfl, by decide⟩

/-- The decoder after one more byte. -/
def Decoder.next (d : Decoder) (b : UInt8) : Decoder :=
  ⟨d.pushed + 1, d.groups + 1, d.value ||| .ofNat (group b * Nat.pow 128 d.groups)⟩

theorem Decoder.Sound.toNat_next (h : d.Sound) (hfit : group b * Nat.pow 128 d.groups < UInt64.size) :
    (d.next b).value.toNat = d.value.toNat + group b * Nat.pow 128 d.groups := by
  show (d.value ||| .ofNat _).toNat = _
  rw [UInt64.toNat_or, UInt64.toNat_ofNat_of_lt' hfit, or_group h.value]

theorem Decoder.Sound.next (h : d.Sound) (hfit : group b * Nat.pow 128 d.groups < UInt64.size) :
    (d.next b).Sound where
  pushed := congrArg (· + 1) h.pushed
  value := by
    have hvalue := h.value
    rw [h.toNat_next hfit]
    show _ < Nat.pow 128 d.groups * 128
    have hmul := Nat.mul_le_mul_right (Nat.pow 128 d.groups) (Nat.le_of_lt_succ (group_lt b))
    omega

theorem Decoder.Sound.push (h : d.Sound) (hplace : d.groups < maxLength)
    (hfit : group b * Nat.pow 128 d.groups < UInt64.size) :
    d.push b = if continues b then (.ok none, d.next b)
    else (.ok (some (d.next b).value), { d.next b with groups := d.groups }) := by
  have hpushed : ¬ d.pushed + 1 > maxLength := by
    rw [h.pushed]
    omega
  have hback := (Decoder.shifted_back_iff b hplace).mpr hfit
  simp only [Decoder.push, if_neg hpushed, Decoder.next, ← Decoder.shifted_eq hplace hfit]
  exact if_neg (not_not_intro hback)

theorem Decoder.Sound.push_overflow (h : d.Sound) (hplace : d.groups < maxLength)
    (hbig : UInt64.size ≤ group b * Nat.pow 128 d.groups) :
    (d.push b).1 = .error (.malformed .lengthOverflow) := by
  have hpushed : ¬ d.pushed + 1 > maxLength := by
    rw [h.pushed]
    omega
  have hback := mt (Decoder.shifted_back_iff b hplace).mp (Nat.not_lt.mpr hbig)
  simp only [Decoder.push, if_neg hpushed]
  exact congrArg Prod.fst (if_pos hback)

theorem Decoder.Sound.push_tooLong (h : d.Sound) (hplace : d.groups = maxLength) :
    (d.push b).1 = .error (.malformed .lengthTooLong) := by
  have hpushed : d.pushed + 1 > maxLength := by
    rw [h.pushed]
    omega
  simp only [Decoder.push, if_pos hpushed]

/-! ### Numbers -/

/-- The number that the groups of some bytes make up, least significant group first. -/
def value : Bytes → Nat
  | [] => 0
  | b :: rest => group b + 128 * value rest

theorem value_concat (leading : Bytes) (last : UInt8) :
    value (leading ++ [last]) = value leading + group last * Nat.pow 128 leading.length := by
  induction leading with
  | nil => simp [value]
  | cons b rest ih =>
    have hpow : Nat.pow 128 (b :: rest).length = Nat.pow 128 rest.length * 128 := rfl
    rw [List.cons_append, value, value, ih, hpow, ← Nat.mul_assoc]
    omega

theorem value_lt (bytes : Bytes) : value bytes < Nat.pow 128 bytes.length := by
  induction bytes with
  | nil => simp [value]
  | cons b rest ih =>
    have hgroup := group_lt b
    have hpow : Nat.pow 128 (b :: rest).length = Nat.pow 128 rest.length * 128 := rfl
    rw [value, hpow]
    omega

/-- A group fits into 64 bits at each of the first nine places. -/
theorem group_fits (b : UInt8) (hk : k < 9) : group b * Nat.pow 128 k < UInt64.size := by
  have hpow : Nat.pow 128 k ≤ Nat.pow 128 8 := Nat.pow_le_pow_right (by decide) (by omega)
  calc group b * Nat.pow 128 k ≤ 127 * Nat.pow 128 8 := Nat.mul_le_mul (Nat.le_of_lt_succ (group_lt b)) hpow
    _ < UInt64.size := by decide

/-- At the tenth place only one bit of a group is left. -/
theorem group_fits_tenth : group b * Nat.pow 128 9 < UInt64.size ↔ group b ≤ 1 := by
  have hsize : UInt64.size = 2 * Nat.pow 128 9 := by decide
  rw [hsize, Nat.mul_lt_mul_right (by decide)]
  omega

/-- Up to ten groups fit into 64 bits unless they are ten and the last one is too large. -/
theorem value_fits (h : leading.length < maxLength) :
    value (leading ++ [last]) < UInt64.size ↔ leading.length = 9 → group last ≤ 1 := by
  rw [value_concat, ← group_fits_tenth]
  have hlt := value_lt leading
  by_cases hnine : leading.length = 9
  · have hsize : UInt64.size = 2 * Nat.pow 128 9 := by decide
    simp only [hnine, forall_const]
    rw [hnine] at hlt
    refine ⟨fun hfits => by omega, fun hfits => ?_⟩
    have hle := Nat.mul_le_mul_right (Nat.pow 128 9) (group_fits_tenth.mp hfits)
    omega
  · have hpow : Nat.pow 128 (leading.length + 1) ≤ Nat.pow 128 9 :=
      Nat.pow_le_pow_right (by decide) (by simp only [maxLength] at h; omega)
    have hwhole := value_lt (leading ++ [last])
    have hsize : Nat.pow 128 9 < UInt64.size := by decide
    rw [value_concat, List.length_append, List.length_singleton] at hwhole
    exact ⟨fun _ he => absurd he hnine, fun _ => by omega⟩

/-- The prefix of a number is a row of bytes that go on and one that does not, and its groups make up the number. -/
theorem encodeNat_eq (n : Nat) : ∃ leading last, encodeNat n = leading ++ [last] ∧
    (∀ b ∈ leading, continues b = true) ∧
    continues last = false ∧ value (leading ++ [last]) = n := by
  induction n using encodeNat.induct with
  | case1 n hlast =>
    obtain ⟨hgroup, hends⟩ := group_last hlast
    exact ⟨[], .ofNat n, by rw [encodeNat, if_pos hlast]; rfl, nofun, hends, by simp [value, hgroup]⟩
  | case2 n hmore ih =>
    obtain ⟨hgroup, hgoes⟩ := group_more n
    obtain ⟨leading, last, heq, hgo, hends, hvalue⟩ := ih
    refine ⟨.ofNat (n % 128 + 128) :: leading, last, by rw [encodeNat, if_neg hmore, heq]; rfl, ?_, hends, ?_⟩
    · exact List.forall_mem_cons.mpr ⟨hgoes, hgo⟩
    · rw [List.cons_append, value, hgroup, hvalue]
      omega

theorem length_encodeNat (n : Nat) : (encodeNat n).length = lengthNat n := by
  induction n using encodeNat.induct with
  | case1 n hlast => rw [encodeNat, lengthNat, if_pos hlast, if_pos hlast, List.length_singleton]
  | case2 n hmore ih => rw [encodeNat, lengthNat, if_neg hmore, if_neg hmore, List.length_cons, ih]

@[simp]
theorem length_encode (n : UInt64) : (encode n).length = encodedLength n := length_encodeNat _

theorem lengthNat_le (h : n < Nat.pow 128 (k + 1)) : lengthNat n ≤ k + 1 := by
  induction k generalizing n with
  | zero =>
    have hlast : n < 128 := h
    have hone : lengthNat n = 1 := by rw [lengthNat, if_pos hlast]
    exact Nat.le_of_eq hone
  | succ k ih =>
    rw [lengthNat]
    split
    · omega
    · have hrest : n / 128 < Nat.pow 128 (k + 1) := Nat.div_lt_of_lt_mul (by rwa [Nat.mul_comm])
      exact Nat.succ_le_succ (ih hrest)

theorem encodedLength_le (n : UInt64) : encodedLength n ≤ maxLength :=
  lengthNat_le (k := 9) (Nat.lt_trans n.toNat_lt (by decide))

/-- Any other row of bytes that makes up a number is longer than its prefix. -/
theorem eq_encodeNat_or_longer (hgo : ∀ b ∈ leading, continues b = true) (hends : continues last = false) :
    leading ++ [last] = encodeNat (value (leading ++ [last])) ∨
    lengthNat (value (leading ++ [last])) < (leading ++ [last]).length := by
  induction leading with
  | nil =>
    have hvalue : value [last] = group last := by simp [value]
    rw [List.nil_append, hvalue, encodeNat, if_pos (group_lt last), ofNat_group hends]
    exact Or.inl rfl
  | cons b rest ih =>
    obtain ⟨hb, hrest⟩ := List.forall_mem_cons.mp hgo
    have hgroup := group_lt b
    have hlength : (rest ++ [last]).length = rest.length + 1 := by simp
    have hvalue : value (b :: rest ++ [last]) = group b + 128 * value (rest ++ [last]) := rfl
    rw [hvalue, encodeNat, lengthNat, List.cons_append, List.length_cons]
    split
    · exact Or.inr (by omega)
    · have hmod : (group b + 128 * value (rest ++ [last])) % 128 = group b := by omega
      have hdiv : (group b + 128 * value (rest ++ [last])) / 128 = value (rest ++ [last]) := by omega
      rw [hmod, hdiv, ofNat_group_add hb]
      rcases ih hrest with heq | hlt
      · exact Or.inl (congrArg (b :: ·) heq)
      · exact Or.inr (Nat.succ_lt_succ hlt)

/-! ### Fronts of buffers -/

/-- What the front of a buffer reads as: a prefix that is whole, one that is refused at its tenth byte or at
    the one behind it, or the beginning of one. -/
inductive Reads : Bytes → Front → Prop
  | complete {leading : Bytes} {last : UInt8} (more : Bytes) (goes : ∀ b ∈ leading, continues b = true)
      (ends : continues last = false) (short : leading.length < maxLength)
      (fits : value (leading ++ [last]) < UInt64.size) :
      Reads (leading ++ last :: more) (.complete (.ofNat (value (leading ++ [last]))) (leading.length + 1))
  | overflow {nine : Bytes} {tenth : UInt8} (more : Bytes) (goes : ∀ b ∈ nine, continues b = true)
      (length : nine.length = 9) (big : 1 < group tenth) :
      Reads (nine ++ tenth :: more) (.refused (.malformed .lengthOverflow) 10)
  | tooLong {nine : Bytes} {tenth : UInt8} (eleventh : UInt8) (more : Bytes) (goes : ∀ b ∈ nine, continues b = true)
      (length : nine.length = 9) (tenthGoes : continues tenth = true) (small : group tenth ≤ 1) :
      Reads (nine ++ tenth :: eleventh :: more) (.refused (.malformed .lengthTooLong) 11)
  | incomplete {buffer : Bytes} (goes : ∀ b ∈ buffer, continues b = true) (short : buffer.length < maxLength) :
      Reads buffer .incomplete
  | incompleteTen {nine : Bytes} {tenth : UInt8} (goes : ∀ b ∈ nine, continues b = true) (length : nine.length = 9)
      (tenthGoes : continues tenth = true) (small : group tenth ≤ 1) : Reads (nine ++ [tenth]) .incomplete

theorem scan_refused {e : Fault} (h : (d.push b).1 = .error e) (read : Nat) (more : Bytes) :
    scan d read (b :: more) = .refused e (read + 1) := by
  obtain ⟨d', hpush⟩ : ∃ d', d.push b = (.error e, d') := ⟨_, Prod.ext h rfl⟩
  rw [scan, hpush]

/-- A decoder that takes bytes that go on has taken their groups. -/
theorem scan_leading (h : d.Sound) (hgo : ∀ b ∈ leading, continues b = true)
    (hplace : d.groups + leading.length < maxLength) (read : Nat) (more : Bytes) :
    ∃ d' : Decoder, d'.Sound ∧ d'.groups = d.groups + leading.length ∧
      d'.value.toNat = d.value.toNat + value leading * Nat.pow 128 d.groups ∧
      scan d read (leading ++ more) = scan d' (read + leading.length) more := by
  induction leading generalizing d read with
  | nil => exact ⟨d, h, rfl, by simp [value], rfl⟩
  | cons b rest ih =>
    obtain ⟨hb, hrest⟩ := List.forall_mem_cons.mp hgo
    rw [List.length_cons] at hplace
    have hfit := group_fits b (show d.groups < 9 by simp only [maxLength] at hplace; omega)
    have hgroups : (d.next b).groups = d.groups + 1 := rfl
    obtain ⟨d', hd', hplace', hvalue, hscan⟩ := ih (h.next hfit) hrest (by omega) (read + 1)
    refine ⟨d', hd', by rw [hplace', hgroups, List.length_cons]; omega, ?_, ?_⟩
    · have hpow : Nat.pow 128 (d.groups + 1) = 128 * Nat.pow 128 d.groups := Nat.mul_comm _ _
      rw [hvalue, h.toNat_next hfit, hgroups, hpow, value, Nat.add_mul, ← Nat.mul_assoc, Nat.mul_comm (value rest)]
      omega
    · rw [List.cons_append, scan, h.push (by omega) hfit, hb]
      simp only [↓reduceIte]
      rw [hscan, List.length_cons, Nat.add_assoc, Nat.add_comm 1]

theorem decode_leading (hgo : ∀ b ∈ leading, continues b = true)
    (hplace : leading.length < maxLength) (more : Bytes) :
    ∃ d : Decoder, d.Sound ∧ d.groups = leading.length ∧ d.value.toNat = value leading ∧
      decode (leading ++ more) = scan d leading.length more := by
  obtain ⟨d, hd, hgroups, hvalue, hscan⟩ :=
    scan_leading sound_start hgo (by simpa [Decoder.start] using hplace) 0 more
  have hone : Decoder.start.value.toNat + value leading * Nat.pow 128 Decoder.start.groups = value leading := by
    show 0 + value leading * 1 = value leading
    omega
  rw [Nat.zero_add] at hscan
  exact ⟨d, hd, hgroups.trans (Nat.zero_add _), hvalue.trans hone, hscan⟩

theorem decode_complete (hgo : ∀ b ∈ leading, continues b = true) (hends : continues last = false)
    (hshort : leading.length < maxLength) (hfits : value (leading ++ [last]) < UInt64.size) (more : Bytes) :
    decode (leading ++ last :: more) = .complete (.ofNat (value (leading ++ [last]))) (leading.length + 1) := by
  obtain ⟨d, hd, hgroups, hvalue, hdecode⟩ := decode_leading hgo hshort (last :: more)
  rw [value_concat] at hfits ⊢
  have hfit : group last * Nat.pow 128 d.groups < UInt64.size := by
    rw [hgroups]
    omega
  have hnumber : (d.next last).value = .ofNat (value leading + group last * Nat.pow 128 leading.length) := by
    rw [← UInt64.toNat_inj, hd.toNat_next hfit, hvalue, hgroups, UInt64.toNat_ofNat_of_lt' hfits]
  rw [hdecode, scan, hd.push (by omega) hfit, hends]
  simp [hnumber]

theorem decode_overflow (hgo : ∀ b ∈ nine, continues b = true) (hnine : nine.length = 9)
    (hbig : 1 < group tenth) (more : Bytes) :
    decode (nine ++ tenth :: more) = .refused (.malformed .lengthOverflow) 10 := by
  obtain ⟨d, hd, hgroups, -, hdecode⟩ := decode_leading hgo (by rw [hnine]; decide) (tenth :: more)
  have hlarge : UInt64.size ≤ group tenth * Nat.pow 128 d.groups := by
    rw [hgroups, hnine]
    exact Nat.le_of_not_lt fun hlt => absurd (group_fits_tenth.mp hlt) (by omega)
  rw [hdecode, scan_refused (hd.push_overflow (by rw [hgroups, hnine]; decide) hlarge), hnine]

/-- Ten bytes that go on leave a decoder that takes no more. -/
theorem decode_ten (hgo : ∀ b ∈ nine, continues b = true) (hnine : nine.length = 9)
    (htenth : continues tenth = true) (hsmall : group tenth ≤ 1) (more : Bytes) :
    ∃ d : Decoder, d.Sound ∧ d.groups = maxLength ∧ decode (nine ++ tenth :: more) = scan d 10 more := by
  obtain ⟨d, hd, hgroups, -, hdecode⟩ := decode_leading hgo (by rw [hnine]; decide) (tenth :: more)
  rw [hnine] at hgroups
  have hfit : group tenth * Nat.pow 128 d.groups < UInt64.size := by
    rw [hgroups]
    exact group_fits_tenth.mpr hsmall
  refine ⟨d.next tenth, hd.next hfit, by show d.groups + 1 = _; rw [hgroups]; rfl, ?_⟩
  rw [hdecode, scan, hd.push (by rw [hgroups]; decide) hfit, htenth, hnine]
  rfl

theorem decode_tooLong (hgo : ∀ b ∈ nine, continues b = true) (hnine : nine.length = 9)
    (htenth : continues tenth = true) (hsmall : group tenth ≤ 1) (b : UInt8) (more : Bytes) :
    decode (nine ++ tenth :: b :: more) = .refused (.malformed .lengthTooLong) 11 := by
  obtain ⟨d, hd, hgroups, hdecode⟩ := decode_ten hgo hnine htenth hsmall (b :: more)
  rw [hdecode, scan_refused (hd.push_tooLong hgroups)]

theorem decode_of_reads {front : Front} (h : Reads buffer front) : decode buffer = front := by
  cases h with
  | complete more goes ends short fits => exact decode_complete goes ends short fits more
  | overflow more goes length big => exact decode_overflow goes length big more
  | tooLong eleventh more goes length tenthGoes small =>
    exact decode_tooLong goes length tenthGoes small eleventh more
  | incomplete goes short =>
    obtain ⟨d, -, -, -, hdecode⟩ := decode_leading goes short []
    rw [List.append_nil] at hdecode
    exact hdecode
  | incompleteTen goes length tenthGoes small =>
    obtain ⟨d, -, -, hdecode⟩ := decode_ten goes length tenthGoes small []
    exact hdecode

/-- The bytes that go on at the front of a buffer, as far as they are among the first `n`. -/
theorem exists_leading (n : Nat) (buffer : Bytes) : ∃ leading rest, buffer = leading ++ rest ∧
    (∀ b ∈ leading, continues b = true) ∧ leading.length ≤ n ∧
    (leading.length = n ∨ rest = [] ∨ ∃ last more, rest = last :: more ∧ continues last = false) := by
  induction n generalizing buffer with
  | zero => exact ⟨[], buffer, rfl, nofun, Nat.le_refl 0, Or.inl rfl⟩
  | succ n ih =>
    cases buffer with
    | nil => exact ⟨[], [], rfl, nofun, Nat.zero_le _, Or.inr (Or.inl rfl)⟩
    | cons b tail =>
      cases hb : continues b with
      | false => exact ⟨[], b :: tail, rfl, nofun, Nat.zero_le _, Or.inr (Or.inr ⟨b, tail, rfl, hb⟩)⟩
      | true =>
        obtain ⟨leading, rest, rfl, hgo, hle, hrest⟩ := ih tail
        exact ⟨b :: leading, rest, rfl, List.forall_mem_cons.mpr ⟨hb, hgo⟩, Nat.succ_le_succ hle,
          hrest.imp_left (congrArg Nat.succ)⟩

theorem exists_reads (buffer : Bytes) : ∃ front, Reads buffer front := by
  obtain ⟨leading, rest, rfl, hgo, hle, hrest⟩ := exists_leading 9 buffer
  have hshort : leading.length < maxLength := Nat.lt_succ_of_le hle
  cases rest with
  | nil =>
    rw [List.append_nil]
    exact ⟨_, .incomplete hgo hshort⟩
  | cons b more =>
    cases hb : continues b with
    | false =>
      by_cases hfits : value (leading ++ [b]) < UInt64.size
      · exact ⟨_, .complete more hgo hb hshort hfits⟩
      · rw [value_fits hshort, Classical.not_imp, Nat.not_le] at hfits
        exact ⟨_, .overflow more hgo hfits.1 hfits.2⟩
    | true =>
      have hnine : leading.length = 9 := by
        rcases hrest with hnine | hnil | ⟨last, more', heq, hends⟩
        · exact hnine
        · cases hnil
        · cases heq
          rw [hb] at hends
          cases hends
      by_cases hsmall : group b ≤ 1
      · cases more with
        | nil => exact ⟨_, .incompleteTen hgo hnine hb hsmall⟩
        | cons eleventh more => exact ⟨_, .tooLong eleventh more hgo hnine hb hsmall⟩
      · exact ⟨_, .overflow more hgo hnine (Nat.lt_of_not_le hsmall)⟩

theorem decode_eq_iff {front : Front} : decode buffer = front ↔ Reads buffer front := by
  constructor
  · rintro rfl
    obtain ⟨front, h⟩ := exists_reads buffer
    rwa [decode_of_reads h]
  · exact decode_of_reads

/-- A prefix that is refused breaks the protocol. -/
theorem category_of_decode {e : Fault} (h : decode buffer = .refused e k) : e.category = .protocol := by
  cases decode_eq_iff.mp h <;> rfl

/-- A number is read from its prefix, and nothing behind it. -/
theorem decode_encode (n : UInt64) (more : Bytes) : decode (encode n ++ more) = .complete n (encode n).length := by
  obtain ⟨leading, last, heq, hgo, hends, hvalue⟩ := encodeNat_eq n.toNat
  have hshort := encodedLength_le n
  have hlength : (encode n).length = leading.length + 1 := by
    rw [encode, heq, List.length_append, List.length_singleton]
  rw [← length_encode, hlength] at hshort
  rw [hlength, encode, heq, List.append_assoc, List.singleton_append,
    decode_complete hgo hends hshort (by rw [hvalue]; exact n.toNat_lt), hvalue, UInt64.ofNat_toNat]

end Varint

end TreeReplica
