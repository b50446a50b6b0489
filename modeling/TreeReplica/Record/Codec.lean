import TreeReplica.Record

/-!
Stored form of a version record: 24 bytes, words least significant byte first.

    magic:4 | format:2 | state:1 | reserved:1 | base:8 | client:8

Main statements: `decode_encode`, a stored record reads back; `length_encode`, it has 24 bytes. -/

namespace TreeReplica

/-- Why bytes are not a stored record. -/
inductive RecordFault
  | size (got : Nat)
  | magic
  | format (got : Nat)
  | state (got : UInt8)
  deriving DecidableEq, Repr

namespace Record

/-- The four letters that open a stored record. -/
def magic : Bytes := [0x54, 0x53, 0x56, 0x52]

/-- The format number that this library reads and writes. -/
def format : Nat := 1

def storedSize : Nat := 24

def encode (r : Record) : Bytes :=
  magic ++ Bytes.littleBytes 2 format ++ [r.state.tag, 0] ++
    Bytes.littleBytes 8 r.base.toNat ++ Bytes.littleBytes 8 r.client.toNat

/-- Reads a stored record; the reserved byte may hold anything. -/
def decode (bytes : Bytes) : Except RecordFault Record :=
  if bytes.length ≠ storedSize then .error (.size bytes.length)
  else if bytes.take 4 ≠ magic then .error .magic
  else if Bytes.littleValue ((bytes.drop 4).take 2) ≠ format then
    .error (.format (Bytes.littleValue ((bytes.drop 4).take 2)))
  else
    let tag := bytes.getD 6 0
    match RecordState.ofTag? tag with
    | none => .error (.state tag)
    | some state =>
      .ok ⟨.ofNat (Bytes.littleValue ((bytes.drop 8).take 8)), .ofNat (Bytes.littleValue (bytes.drop 16)), state⟩

end Record

namespace RecordFault

def message : RecordFault → String
  | size got => s!"record is {got} bytes, expected {Record.storedSize}"
  | magic => "bad record magic"
  | format got => s!"unsupported record format {got}"
  | state got => s!"unknown state {got}"

end RecordFault

namespace Record

@[simp]
theorem length_encode (r : Record) : r.encode.length = storedSize := by
  simp [encode, magic, storedSize]

/-- An empty file holds no record. -/
theorem ne_nil_of_decode {bytes : Bytes} {r : Record} (h : decode bytes = .ok r) : bytes ≠ [] := by
  rintro rfl
  cases h

theorem decode_encode (r : Record) : decode r.encode = .ok r := by
  have hb : r.base.toNat % Nat.pow 256 8 = r.base.toNat := Nat.mod_eq_of_lt r.base.toNat_lt
  have hc : r.client.toNat % Nat.pow 256 8 = r.client.toNat := Nat.mod_eq_of_lt r.client.toNat_lt
  have hd : (Bytes.littleBytes 8 r.base.toNat ++ Bytes.littleBytes 8 r.client.toNat).take 8 =
      Bytes.littleBytes 8 r.base.toNat := by
    rw [List.take_append_of_le_length (by simp), List.take_of_length_le (by simp)]
  have he : (Bytes.littleBytes 8 r.base.toNat ++ Bytes.littleBytes 8 r.client.toNat).drop 8 =
      Bytes.littleBytes 8 r.client.toNat := by
    rw [List.drop_append_of_le_length (by simp), List.drop_of_length_le (by simp), List.nil_append]
  have hf : Bytes.littleValue (Bytes.littleBytes 2 format) = format := by decide
  unfold decode
  rw [if_neg (by simp), if_neg (by simp [encode, magic]),
    if_neg (by simp [encode, magic, Bytes.littleBytes, Bytes.littleValue, format])]
  have ht : r.encode.getD 6 0 = r.state.tag := by simp [encode, magic, Bytes.littleBytes]
  have h8 : r.encode.drop 8 =
      Bytes.littleBytes 8 r.base.toNat ++ Bytes.littleBytes 8 r.client.toNat := by
    simp [encode, magic, Bytes.littleBytes]
  have h16 : r.encode.drop 16 = Bytes.littleBytes 8 r.client.toNat := by
    rw [show 16 = 8 + 8 from rfl, ← List.drop_drop, h8, he]
  simp only [ht, RecordState.ofTag?_tag, h8, h16, hd, Bytes.littleValue_littleBytes, hb, hc,
    UInt64.ofNat_toNat]

end Record

end TreeReplica
