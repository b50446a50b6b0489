import TreeReplica.Record.Codec

/-! Stored records. A record settles every byte of its stored form but the reserved one
    (`Record.encode_of_decode`), and the reserved one has no say in what the bytes stand for
    (`Record.decode_set_reserved`). So bytes stand for a record exactly if they are its stored form up to that
    byte (`Record.decode_eq_ok_iff`). -/

namespace TreeReplica

theorem RecordState.exists_ofTag?_iff {b : UInt8} : (∃ s, ofTag? b = some s) ↔ b ≤ 4 := by
  constructor
  · rintro ⟨s, h⟩
    rw [← tag_of_ofTag? h]
    cases s <;> decide
  · intro h
    have hle : b.toNat ≤ 4 := UInt8.le_iff_toNat_le.mp h
    have htags : b = synced.tag ∨ b = dirty.tag ∨ b = stale.tag ∨ b = conflict.tag ∨ b = deleted.tag := by
      simp only [← UInt8.toNat_inj, tag, UInt8.reduceToNat]
      omega
    rcases htags with rfl | rfl | rfl | rfl | rfl <;> exact ⟨_, ofTag?_tag _⟩

/-- A word of some bytes is written with these bytes. -/
theorem Bytes.littleBytes_ofNat {bytes : Bytes} (h : bytes.length = 8) :
    littleBytes 8 (UInt64.ofNat (littleValue bytes)).toNat = bytes := by
  have hlt : littleValue bytes < UInt64.size := by simpa [h] using littleValue_lt bytes
  have hback := littleBytes_littleValue bytes
  rwa [h, ← UInt64.toNat_ofNat_of_lt' hlt] at hback

namespace Record
variable {r : Record} {a b bytes : Bytes}

/-- Where the reserved byte stands. -/
def reservedAt : Nat := 7

/-- What bytes need for being a stored record. -/
structure Stored (bytes : Bytes) : Prop where
  size : bytes.length = 24
  magic : magic <+: bytes
  format : Bytes.littleValue ((bytes.drop 4).take 2) = 1
  state : ∃ tag, bytes[6]? = some tag ∧ tag ≤ 4

/-! ### Reading -/

theorem decode_cases (h : decode bytes = .ok r) : bytes.length = storedSize ∧ bytes.take 4 = magic ∧
    Bytes.littleValue ((bytes.drop 4).take 2) = format ∧ RecordState.ofTag? (bytes.getD 6 0) = some r.state ∧
    r.base = .ofNat (Bytes.littleValue ((bytes.drop 8).take 8)) ∧
    r.client = .ofNat (Bytes.littleValue (bytes.drop 16)) := by
  unfold decode at h
  split at h
  · cases h
  rename_i hsize
  split at h
  · cases h
  rename_i hmagic
  split at h
  · cases h
  rename_i hformat
  dsimp only at h
  split at h
  · cases h
  rename_i hstate
  cases h
  exact ⟨Decidable.not_not.mp hsize, Decidable.not_not.mp hmagic, Decidable.not_not.mp hformat, hstate, rfl, rfl⟩

theorem stored_of_decode (h : decode bytes = .ok r) : Stored bytes := by
  obtain ⟨hsize, hmagic, hformat, hstate, -⟩ := decode_cases h
  refine ⟨hsize, ?_, hformat, bytes.getD 6 0, ?_, RecordState.exists_ofTag?_iff.mp ⟨_, hstate⟩⟩
  · rw [← hmagic]
    exact List.take_prefix 4 bytes
  · have hlt : 6 < bytes.length := by simp [hsize, storedSize]
    simp [List.getElem?_eq_getElem hlt]

theorem Stored.exists_record (h : Stored bytes) : ∃ r, decode bytes = .ok r := by
  obtain ⟨tag, htag, hle⟩ := h.state
  obtain ⟨s, hs⟩ := RecordState.exists_ofTag?_iff.mpr hle
  have hsize : bytes.length = storedSize := h.size
  have hmagic : bytes.take 4 = Record.magic := (List.prefix_iff_eq_take.mp h.magic).symm
  have hformat : Bytes.littleValue ((bytes.drop 4).take 2) = Record.format := h.format
  have hget : bytes.getD 6 0 = tag := by simp [htag]
  rw [decode, if_neg (not_not_intro hsize), if_neg (not_not_intro hmagic), if_neg (not_not_intro hformat)]
  simp only [hget, hs]
  exact ⟨_, rfl⟩

/-! ### The reserved byte -/

theorem decode_set_reserved (bytes : Bytes) (x : UInt8) : decode (bytes.set reservedAt x) = decode bytes := by
  have htake : (bytes.set 7 x).take 4 = bytes.take 4 := List.take_set_of_le (by decide)
  have hformat : ((bytes.set 7 x).drop 4).take 2 = (bytes.drop 4).take 2 := by
    rw [List.take_drop, List.take_drop, List.take_set_of_le (by decide)]
  have hstate : (bytes.set 7 x).getD 6 0 = bytes.getD 6 0 := by
    rw [List.getD_eq_getElem?_getD, List.getD_eq_getElem?_getD, List.getElem?_set_ne (by decide)]
  have hbase : (bytes.set 7 x).drop 8 = bytes.drop 8 := List.drop_set_of_lt (by decide)
  have hclient : (bytes.set 7 x).drop 16 = bytes.drop 16 := List.drop_set_of_lt (by decide)
  rw [decode, decode, reservedAt, List.length_set, htake, hformat, hstate, hbase, hclient]

/-- Bytes of the right size, cut into the fields of a record, with the reserved byte cleared. -/
theorem set_reserved_eq_fields (h : bytes.length = storedSize) : bytes.set reservedAt 0 =
    bytes.take 4 ++ (bytes.drop 4).take 2 ++ [bytes.getD 6 0, 0] ++ (bytes.drop 8).take 8 ++ bytes.drop 16 := by
  have hsize : 7 < bytes.length := by simp [h, storedSize]
  have hget : bytes.getD 6 0 = bytes[6] := by simp [List.getElem?_eq_getElem (show 6 < bytes.length by omega)]
  have hhead : bytes.take 7 = bytes.take 4 ++ (bytes.drop 4).take 2 ++ [bytes.getD 6 0] := by
    rw [← List.take_add, hget]
    exact (List.take_append_getElem _).symm
  have htail : bytes.drop 8 = (bytes.drop 8).take 8 ++ bytes.drop 16 := by
    have hcut := (List.take_append_drop 8 (bytes.drop 8)).symm
    rwa [List.drop_drop] at hcut
  calc bytes.set reservedAt 0 = bytes.take 7 ++ 0 :: bytes.drop 8 := by
        rw [reservedAt, List.set_eq_take_append_cons_drop, if_pos hsize]
    _ = bytes.take 4 ++ (bytes.drop 4).take 2 ++ [bytes.getD 6 0] ++
      0 :: ((bytes.drop 8).take 8 ++ bytes.drop 16) := by
        rw [hhead, ← htail]
    _ = _ := by simp only [List.append_assoc, List.cons_append, List.nil_append]

theorem encode_of_decode (h : decode bytes = .ok r) : r.encode = bytes.set reservedAt 0 := by
  obtain ⟨hsize, hmagic, hformat, hstate, hbase, hclient⟩ := decode_cases h
  have hwords : ((bytes.drop 4).take 2).length = 2 ∧ ((bytes.drop 8).take 8).length = 8 ∧
      (bytes.drop 16).length = 8 := by
    simp [hsize, storedSize]
  have hpair := Bytes.littleBytes_littleValue ((bytes.drop 4).take 2)
  rw [hwords.1, hformat] at hpair
  rw [set_reserved_eq_fields hsize, encode, hmagic, hpair, RecordState.tag_of_ofTag? hstate, hbase, hclient,
    Bytes.littleBytes_ofNat hwords.2.1, Bytes.littleBytes_ofNat hwords.2.2]

theorem decode_eq_ok_iff : decode bytes = .ok r ↔ bytes.set reservedAt 0 = r.encode := by
  constructor
  · intro h
    exact (encode_of_decode h).symm
  · intro h
    rw [← decode_set_reserved bytes 0, h, decode_encode]

/-- Bytes that are the same with the reserved byte cleared differ at most in that byte. -/
theorem set_reserved_inj : a.set reservedAt 0 = b.set reservedAt 0 ↔
    a.length = b.length ∧ ∀ i, i ≠ reservedAt → a[i]? = b[i]? := by
  constructor
  · intro h
    refine ⟨by simpa using congrArg List.length h, fun i hi => ?_⟩
    rw [← List.getElem?_set_ne hi.symm, h, List.getElem?_set_ne hi.symm]
  · rintro ⟨hlen, hsame⟩
    refine List.ext_getElem? fun i => ?_
    rw [List.getElem?_set, List.getElem?_set, hlen]
    split
    · rfl
    · rename_i hi
      exact hsame i (Ne.symm hi)

/-- Every record reads back from its stored form. Bytes are a stored record exactly if their size, their
    magic, their format and their state say so; then the record that they stand for is stored with the same
    bytes, the reserved one cleared. So bytes stand for the same record exactly if they differ at most in the
    reserved byte. -/
theorem stored_forms :
    (∀ r, decode (encode r) = .ok r) ∧
    (∀ bytes, (∃ r, decode bytes = .ok r) ↔ Stored bytes) ∧
    (∀ bytes r, decode bytes = .ok r → encode r = bytes.set 7 0) ∧
    ∀ a b r, decode a = .ok r → (decode b = .ok r ↔ a.length = b.length ∧ ∀ i, i ≠ 7 → a[i]? = b[i]?) := by
  refine ⟨decode_encode, fun bytes => ⟨fun ⟨r, h⟩ => stored_of_decode h, Stored.exists_record⟩,
    fun bytes r => encode_of_decode, ?_⟩
  intro a b r ha
  rw [decode_eq_ok_iff, ← decode_eq_ok_iff.mp ha, eq_comm]
  exact set_reserved_inj

/-- The reserved byte of a record, set to some other value and cleared again. -/
theorem sample_reserved_byte :
    decode [0x54, 0x53, 0x56, 0x52, 1, 0, 3, 0xff, 2, 1, 0, 0, 0, 0, 0, 0, 7, 0, 0, 0, 0, 0, 0, 0x80] =
        .ok ⟨0x0102, 0x8000000000000007, .conflict⟩ ∧
      encode ⟨0x0102, 0x8000000000000007, .conflict⟩ =
        [0x54, 0x53, 0x56, 0x52, 1, 0, 3, 0, 2, 1, 0, 0, 0, 0, 0, 0, 7, 0, 0, 0, 0, 0, 0, 0x80] := by
  obtain ⟨back, -, again, same⟩ := stored_forms
  have read := (same _ [0x54, 0x53, 0x56, 0x52, 1, 0, 3, 0xff, 2, 1, 0, 0, 0, 0, 0, 0, 7, 0, 0, 0, 0, 0, 0, 0x80] _
    (back ⟨0x0102, 0x8000000000000007, .conflict⟩)).mpr (set_reserved_inj.mp (by decide))
  exact ⟨read, again _ _ read⟩

end Record

end TreeReplica
