import TreeReplica.Proofs.Message
import TreeReplica.Wire.Payload

/-! Payloads and what is read from them. Each reader of a field succeeds on exactly the bytes that the field
    is written as (`Payload.run_readText_eq_ok`, `Payload.run_readBlob_eq_ok`), and so does the reader of a
    whole message, except for the flag of an answer to an authentication, where every byte but 0 means the
    same. -/

namespace TreeReplica

/-! ### Readers -/

namespace Reader
variable {α β : Type} {x : Reader α} {f : α → Reader β} {input left rest : Bytes} {a : α} {b : β}

theorem run_bind_of_ok (h : x.run input = .ok (a, left)) : (x >>= f).run input = (f a).run left := by
  rw [StateT.run_bind, h]
  rfl

theorem run_bind_eq_ok : (x >>= f).run input = .ok (b, rest) ↔
    ∃ a left, x.run input = .ok (a, left) ∧ (f a).run left = .ok (b, rest) := by
  constructor
  · intro h
    rw [StateT.run_bind] at h
    cases hx : x.run input with
    | error e =>
      rw [hx] at h
      cases h
    | ok p =>
      rw [hx] at h
      exact ⟨p.1, p.2, rfl, h⟩
  · rintro ⟨a, left, hx, hf⟩
    rwa [run_bind_of_ok hx]

theorem run_pure_eq_ok {a' : α} : (pure a : Reader α).run input = .ok (a', rest) ↔ a = a' ∧ input = rest := by
  rw [StateT.run_pure]
  simp [pure, Except.pure]

/-- A reader that refuses a payload says how the payload breaks the protocol. -/
def Blames (x : Reader α) : Prop := ∀ input e, x.run input = .error e → e.category = .protocol

theorem blames_pure (a : α) : Blames (pure a) := fun _ _ h => by cases h

theorem blames_throw {e : Fault} (h : e.category = .protocol) : Blames (throw e : Reader α) := fun _ _ he => by
  cases he
  exact h

theorem Blames.bind (hx : Blames x) (hf : ∀ a, Blames (f a)) : Blames (x >>= f) := fun input e h => by
  rw [StateT.run_bind] at h
  cases hr : x.run input with
  | error e' =>
    rw [hr] at h
    cases h
    exact hx input _ hr
  | ok p =>
    rw [hr] at h
    exact hf p.1 p.2 e h

end Reader

/-! ### Words -/

namespace Payload
variable {field : Field} {input rest bytes : Bytes} {n : Nat} {s : String}

@[simp]
theorem length_word16 (n : UInt16) : (word16 n).length = 2 := Bytes.length_bigBytes _ _

@[simp]
theorem length_word32 (n : UInt32) : (word32 n).length = 4 := Bytes.length_bigBytes _ _

@[simp]
theorem length_word64 (n : UInt64) : (word64 n).length = 8 := Bytes.length_bigBytes _ _

@[simp]
theorem toWord16_word16 (n : UInt16) : toWord16 (word16 n) = n := by
  rw [toWord16, word16, Bytes.bigValue_bigBytes, Nat.mod_eq_of_lt n.toNat_lt, UInt16.ofNat_toNat]

@[simp]
theorem toWord32_word32 (n : UInt32) : toWord32 (word32 n) = n := by
  rw [toWord32, word32, Bytes.bigValue_bigBytes, Nat.mod_eq_of_lt n.toNat_lt, UInt32.ofNat_toNat]

@[simp]
theorem toWord64_word64 (n : UInt64) : toWord64 (word64 n) = n := by
  rw [toWord64, word64, Bytes.bigValue_bigBytes, Nat.mod_eq_of_lt n.toNat_lt, UInt64.ofNat_toNat]

/-- Bytes are the word of their value. -/
theorem bigBytes_of_length (h : bytes.length = n) {value : Nat} (hv : value = Bytes.bigValue bytes) :
    Bytes.bigBytes n value = bytes := by
  rw [← h, hv, Bytes.bigBytes_bigValue]

theorem bigValue_lt_of_length (h : bytes.length = n) : Bytes.bigValue bytes < Nat.pow 256 n :=
  h ▸ Bytes.bigValue_lt bytes

theorem word16_toWord16 (h : bytes.length = 2) : word16 (toWord16 bytes) = bytes :=
  bigBytes_of_length h (UInt16.toNat_ofNat_of_lt' (bigValue_lt_of_length h))

theorem word32_toWord32 (h : bytes.length = 4) : word32 (toWord32 bytes) = bytes :=
  bigBytes_of_length h (UInt32.toNat_ofNat_of_lt' (bigValue_lt_of_length h))

theorem word64_toWord64 (h : bytes.length = 8) : word64 (toWord64 bytes) = bytes :=
  bigBytes_of_length h (UInt64.toNat_ofNat_of_lt' (bigValue_lt_of_length h))

theorem take_word64 (n : UInt64) (bytes : Bytes) : (word64 n ++ bytes).take 8 = word64 n :=
  List.take_left' (length_word64 n)

theorem drop_word64 (n : UInt64) (bytes : Bytes) : (word64 n ++ bytes).drop 8 = bytes :=
  List.drop_left' (length_word64 n)

theorem drop_words64 (m n : UInt64) (bytes : Bytes) : (word64 m ++ (word64 n ++ bytes)).drop 16 = bytes := by
  rw [← List.append_assoc]
  exact List.drop_left' (by simp)

/-- Bytes begin with the word that is read from their front. -/
theorem word64_append_drop (h : 8 ≤ bytes.length) : word64 (toWord64 (bytes.take 8)) ++ bytes.drop 8 = bytes := by
  rw [word64_toWord64 (List.length_take_of_le h), List.take_append_drop]

theorem words64_append_drop (h : 16 ≤ bytes.length) :
    word64 (toWord64 (bytes.take 8)) ++ (word64 (toWord64 ((bytes.drop 8).take 8)) ++ bytes.drop 16) = bytes := by
  have hrest : 8 ≤ (bytes.drop 8).length := by
    rw [List.length_drop]
    omega
  have hnext := word64_append_drop hrest
  rw [List.drop_drop] at hnext
  rw [hnext, word64_append_drop (by omega)]

/-! ### Fields -/

theorem run_take_eq_ok : (take field n).run input = .ok (bytes, rest) ↔ bytes.length = n ∧
    input = bytes ++ rest := by
  show (if _ then _ else _) = _ ↔ _
  split
  · rename_i h
    constructor
    · nofun
    · rintro ⟨hlen, rfl⟩
      rw [List.length_append] at h
      omega
  · rename_i h
    simp only [Except.ok.injEq, Prod.mk.injEq]
    constructor
    · rintro ⟨rfl, rfl⟩
      exact ⟨List.length_take_of_le (by omega), (List.take_append_drop _ _).symm⟩
    · rintro ⟨rfl, rfl⟩
      exact ⟨List.take_left, List.drop_left⟩

theorem run_take (h : bytes.length = n) : (take field n).run (bytes ++ rest) = .ok (bytes, rest) :=
  run_take_eq_ok.mpr ⟨h, rfl⟩

/-- Words that stand together are read in one piece. -/
theorem run_take_words (a b : UInt64) {last : Bytes} (h : last.length + 16 = n) (rest : Bytes) :
    (take field n).run (word64 a ++ (word64 b ++ (last ++ rest))) = .ok (word64 a ++ (word64 b ++ last), rest) := by
  rw [← List.append_assoc (word64 b), ← List.append_assoc (word64 a)]
  refine run_take ?_
  simp only [List.length_append, length_word64]
  omega

@[simp]
theorem length_text (s : String) : (text s).length = 2 + (Text.fit s).utf8ByteSize := by
  simp only [text, List.length_append, Bytes.length_bigBytes, Bytes.length_ofText]

@[simp]
theorem length_blob (data : Bytes) : (blob data).length = 4 + data.length := by
  simp only [blob, List.length_append, Bytes.length_bigBytes]

theorem text_of_le (h : s.utf8ByteSize ≤ Text.limit) :
    text s = Bytes.bigBytes 2 s.utf8ByteSize ++ Bytes.ofText s := by
  rw [text, Text.fit_of_le h]

/-- A text is read from exactly the bytes that it is written as. -/
theorem run_readText_eq_ok : (readText field).run input = .ok (s, rest) ↔ s.utf8ByteSize ≤ Text.limit ∧
    input = text s ++ rest := by
  constructor
  · intro h
    obtain ⟨length, left, hl, htext⟩ := Reader.run_bind_eq_ok.mp h
    obtain ⟨hlength, rfl⟩ := run_take_eq_ok.mp hl
    obtain ⟨bytes, left', hb, hdecoded⟩ := Reader.run_bind_eq_ok.mp htext
    obtain ⟨hbytes, rfl⟩ := run_take_eq_ok.mp hb
    split at hdecoded
    · rename_i s' hs
      obtain ⟨rfl, rfl⟩ := Reader.run_pure_eq_ok.mp hdecoded
      obtain rfl := Bytes.ofText_of_text? hs
      rw [Bytes.length_ofText] at hbytes
      have hsize : s'.utf8ByteSize ≤ Text.limit := Nat.le_of_lt_succ (hbytes ▸ bigValue_lt_of_length hlength)
      exact ⟨hsize, by rw [text_of_le hsize, bigBytes_of_length hlength hbytes, List.append_assoc]⟩
    · cases hdecoded
  · rintro ⟨hsize, rfl⟩
    have hvalue : Bytes.bigValue (Bytes.bigBytes 2 s.utf8ByteSize) = s.utf8ByteSize := by
      rw [Bytes.bigValue_bigBytes]
      exact Nat.mod_eq_of_lt (Nat.lt_succ_of_le hsize)
    rw [text_of_le hsize, List.append_assoc, readText,
      Reader.run_bind_of_ok (run_take (Bytes.length_bigBytes _ _)), hvalue,
      Reader.run_bind_of_ok (run_take (Bytes.length_ofText s)), Bytes.text?_ofText]
    rfl

/-- A blob is read from exactly the bytes that it is written as. -/
theorem run_readBlob_eq_ok :
    (readBlob field).run input = .ok (bytes, rest) ↔ bytes.length < UInt32.size ∧ input = blob bytes ++ rest := by
  constructor
  · intro h
    obtain ⟨length, left, hl, hblob⟩ := Reader.run_bind_eq_ok.mp h
    obtain ⟨hlength, rfl⟩ := run_take_eq_ok.mp hl
    obtain ⟨hbytes, rfl⟩ := run_take_eq_ok.mp hblob
    exact ⟨hbytes ▸ bigValue_lt_of_length hlength,
      by rw [blob, bigBytes_of_length hlength hbytes, List.append_assoc]⟩
  · rintro ⟨hsize, rfl⟩
    have hvalue : Bytes.bigValue (Bytes.bigBytes 4 bytes.length) = bytes.length := by
      rw [Bytes.bigValue_bigBytes]
      exact Nat.mod_eq_of_lt hsize
    rw [blob, List.append_assoc, readBlob, Reader.run_bind_of_ok (run_take (Bytes.length_bigBytes _ _)), hvalue]
    exact run_take rfl

theorem blames_take (field : Field) (n : Nat) : Reader.Blames (take field n) := fun input e h => by
  have hrun : (if input.length < n then .error (.malformed (.truncated field n input.length))
    else .ok (input.take n, input.drop n) : Except Fault (Bytes × Bytes)) = .error e := h
  split at hrun <;> cases hrun
  rfl

theorem blames_readText (field : Field) : Reader.Blames (readText field) :=
  (blames_take field 2).bind fun _ => (blames_take field _).bind fun _ => by
    split
    · exact Reader.blames_pure _
    · exact Reader.blames_throw rfl

theorem blames_readBlob (field : Field) : Reader.Blames (readBlob field) :=
  (blames_take field 4).bind fun _ => blames_take field _

end Payload

/-! ### Messages -/

namespace Message
open Payload
variable {m : Message} {k : Kind} {payload input rest : Bytes}

/-- A message that can be carried is read from the fields that it is written as. -/
theorem run_readFields (h : m.Carried) (rest : Bytes) :
    (readFields m.kind).run (m.fields ++ rest) = .ok (m, rest) := by
  have text {field : Field} {s : String} {left : Bytes} (hs : s ∈ m.texts) :
      (readText field).run (text s ++ left) = .ok (s, left) :=
    run_readText_eq_ok.mpr ⟨h.texts s hs, rfl⟩
  have blob {field : Field} {b left : Bytes} (hb : b ∈ m.blobs) :
      (readBlob field).run (blob b ++ left) = .ok (b, left) :=
    run_readBlob_eq_ok.mpr ⟨h.blobs b hb, rfl⟩
  cases m with
  | quit => rfl
  | hello version =>
    rw [kind, readFields, fields, Reader.run_bind_of_ok (run_take (length_word16 version)), toWord16_word16]
    rfl
  | ping nonce | pong nonce =>
    rw [kind, readFields, fields, Reader.run_bind_of_ok (run_take (length_word64 nonce)), toWord64_word64]
    rfl
  | keyExchange key | keyExchangeReply key =>
    rw [kind, readFields, fields, Reader.run_bind_of_ok (blob (by simp [blobs]))]
    rfl
  | auth peer proof =>
    rw [kind, readFields, fields, List.append_assoc, Reader.run_bind_of_ok (text (by simp [texts])),
      Reader.run_bind_of_ok (blob (by simp [blobs]))]
    rfl
  | authResult accepted => cases accepted <;> rfl
  | subscribe path | unsubscribe path =>
    rw [kind, readFields, fields, Reader.run_bind_of_ok (text (by simp [texts]))]
    rfl
  | newVersion notice =>
    rw [kind, readFields, fields, List.append_assoc, List.append_assoc, List.append_assoc,
      Reader.run_bind_of_ok (text (by simp [texts])), Reader.run_bind_of_ok (run_take_words _ _ (by simp) rest)]
    simp only [take_word64, drop_word64, drop_words64, toWord64_word64]
    rfl
  | requestChunk request =>
    rw [kind, readFields, fields, List.append_assoc, List.append_assoc, List.append_assoc,
      Reader.run_bind_of_ok (text (by simp [texts])), Reader.run_bind_of_ok (run_take_words _ _ (by simp) rest)]
    simp only [take_word64, drop_word64, drop_words64, toWord64_word64, toWord32_word32]
    rfl
  | fileChunk chunk =>
    rw [kind, readFields, fields, List.append_assoc, List.append_assoc, List.append_assoc,
      Reader.run_bind_of_ok (text (by simp [texts])), ← List.append_assoc (word64 chunk.client),
      Reader.run_bind_of_ok (run_take (by simp)), Reader.run_bind_of_ok (blob (by simp [blobs])),
      take_word64, drop_word64, toWord64_word64, toWord64_word64]
    rfl
  | commit path c =>
    rw [kind, readFields, fields, List.append_assoc, List.append_assoc, List.append_assoc,
      Reader.run_bind_of_ok (text (by simp [texts])), Reader.run_bind_of_ok (run_take_words _ _ (by simp) rest)]
    simp only [take_word64, drop_word64, drop_words64, toWord64_word64]
    rfl
  | nack n =>
    rw [kind, readFields, fields, List.append_assoc, List.append_assoc,
      Reader.run_bind_of_ok (run_take (length_word16 _)), toWord16_word16, NackCode.ofCode?_code]
    dsimp only
    rw [Reader.run_bind_of_ok (text (by simp [texts])), Reader.run_bind_of_ok (text (by simp [texts]))]
    rfl

/-- Bytes stand for the fields of a message: they are what the fields are written as, or the flag of an accepted
    authentication in another spelling. -/
def Spelled (m : Message) (bytes : Bytes) : Prop :=
  bytes = m.fields ∨ m = .authResult true ∧ ∃ flag, flag ≠ 0 ∧ flag ≠ 1 ∧ bytes = [flag]

/-- What is read as a message stands for it. -/
theorem spelled_of_readFields (h : (readFields k).run input = .ok (m, rest)) :
    m.kind = k ∧ m.Carried ∧ ∃ bytes, m.Spelled bytes ∧ input = bytes ++ rest := by
  cases k with
  | quit =>
    obtain ⟨rfl, rfl⟩ := Reader.run_pure_eq_ok.mp h
    exact ⟨rfl, ⟨by simp [texts], by simp [blobs]⟩, [], Or.inl rfl, rfl⟩
  | hello =>
    obtain ⟨b, left, hb, hm⟩ := Reader.run_bind_eq_ok.mp h
    obtain ⟨hlen, rfl⟩ := run_take_eq_ok.mp hb
    obtain ⟨rfl, rfl⟩ := Reader.run_pure_eq_ok.mp hm
    exact ⟨rfl, ⟨by simp [texts], by simp [blobs]⟩, b, Or.inl (word16_toWord16 hlen).symm, rfl⟩
  | ping | pong =>
    obtain ⟨b, left, hb, hm⟩ := Reader.run_bind_eq_ok.mp h
    obtain ⟨hlen, rfl⟩ := run_take_eq_ok.mp hb
    obtain ⟨rfl, rfl⟩ := Reader.run_pure_eq_ok.mp hm
    exact ⟨rfl, ⟨by simp [texts], by simp [blobs]⟩, b, Or.inl (word64_toWord64 hlen).symm, rfl⟩
  | keyExchange | keyExchangeReply =>
    obtain ⟨key, left, hk, hm⟩ := Reader.run_bind_eq_ok.mp h
    obtain ⟨hkey, rfl⟩ := run_readBlob_eq_ok.mp hk
    obtain ⟨rfl, rfl⟩ := Reader.run_pure_eq_ok.mp hm
    exact ⟨rfl, ⟨by simp [texts], by simpa [blobs] using hkey⟩, _, Or.inl rfl, rfl⟩
  | auth =>
    obtain ⟨peer, left, hp, h'⟩ := Reader.run_bind_eq_ok.mp h
    obtain ⟨hpeer, rfl⟩ := run_readText_eq_ok.mp hp
    obtain ⟨proof, left, hb, hm⟩ := Reader.run_bind_eq_ok.mp h'
    obtain ⟨hproof, rfl⟩ := run_readBlob_eq_ok.mp hb
    obtain ⟨rfl, rfl⟩ := Reader.run_pure_eq_ok.mp hm
    exact ⟨rfl, ⟨by simpa [texts] using hpeer, by simpa [blobs] using hproof⟩, _, Or.inl rfl,
      (List.append_assoc _ _ _).symm⟩
  | authResult =>
    obtain ⟨b, left, hb, hm⟩ := Reader.run_bind_eq_ok.mp h
    obtain ⟨hlen, rfl⟩ := run_take_eq_ok.mp hb
    obtain ⟨flag, rfl⟩ := List.length_eq_one_iff.mp hlen
    obtain ⟨rfl, rfl⟩ := Reader.run_pure_eq_ok.mp hm
    refine ⟨rfl, ⟨by simp [texts], by simp [blobs]⟩, [flag], ?_, rfl⟩
    by_cases h0 : flag = 0
    · exact Or.inl (by simp [fields, h0])
    · by_cases h1 : flag = 1
      · exact Or.inl (by simp [fields, h1])
      · exact Or.inr ⟨by simp [h0], flag, h0, h1, rfl⟩
  | subscribe | unsubscribe =>
    obtain ⟨path, left, hp, hm⟩ := Reader.run_bind_eq_ok.mp h
    obtain ⟨hpath, rfl⟩ := run_readText_eq_ok.mp hp
    obtain ⟨rfl, rfl⟩ := Reader.run_pure_eq_ok.mp hm
    exact ⟨rfl, ⟨by simpa [texts] using hpath, by simp [blobs]⟩, _, Or.inl rfl, rfl⟩
  | newVersion | commit =>
    obtain ⟨path, left, hp, h'⟩ := Reader.run_bind_eq_ok.mp h
    obtain ⟨hpath, rfl⟩ := run_readText_eq_ok.mp hp
    obtain ⟨b, left, hb, hm⟩ := Reader.run_bind_eq_ok.mp h'
    obtain ⟨hlen, rfl⟩ := run_take_eq_ok.mp hb
    obtain ⟨rfl, rfl⟩ := Reader.run_pure_eq_ok.mp hm
    refine ⟨rfl, ⟨by simpa [texts] using hpath, by simp [blobs]⟩, text path ++ b, Or.inl ?_,
      (List.append_assoc _ _ _).symm⟩
    have hlast : (b.drop 16).length = 8 := by rw [List.length_drop, hlen]
    rw [fields, word64_toWord64 hlast, List.append_assoc, List.append_assoc, words64_append_drop (by omega)]
  | requestChunk =>
    obtain ⟨path, left, hp, h'⟩ := Reader.run_bind_eq_ok.mp h
    obtain ⟨hpath, rfl⟩ := run_readText_eq_ok.mp hp
    obtain ⟨b, left, hb, hm⟩ := Reader.run_bind_eq_ok.mp h'
    obtain ⟨hlen, rfl⟩ := run_take_eq_ok.mp hb
    obtain ⟨rfl, rfl⟩ := Reader.run_pure_eq_ok.mp hm
    refine ⟨rfl, ⟨by simpa [texts] using hpath, by simp [blobs]⟩, text path ++ b, Or.inl ?_,
      (List.append_assoc _ _ _).symm⟩
    have hlast : (b.drop 16).length = 4 := by rw [List.length_drop, hlen]
    rw [fields, word32_toWord32 hlast, List.append_assoc, List.append_assoc, words64_append_drop (by omega)]
  | fileChunk =>
    obtain ⟨path, left, hp, h'⟩ := Reader.run_bind_eq_ok.mp h
    obtain ⟨hpath, rfl⟩ := run_readText_eq_ok.mp hp
    obtain ⟨b, left, hb, h''⟩ := Reader.run_bind_eq_ok.mp h'
    obtain ⟨hlen, rfl⟩ := run_take_eq_ok.mp hb
    obtain ⟨data, left, hd, hm⟩ := Reader.run_bind_eq_ok.mp h''
    obtain ⟨hdata, rfl⟩ := run_readBlob_eq_ok.mp hd
    obtain ⟨rfl, rfl⟩ := Reader.run_pure_eq_ok.mp hm
    refine ⟨rfl, ⟨by simpa [texts] using hpath, by simpa [blobs] using hdata⟩,
      text path ++ b ++ blob data, Or.inl ?_, by simp⟩
    have hlast : (b.drop 8).length = 8 := by rw [List.length_drop, hlen]
    dsimp only [fields]
    rw [word64_toWord64 hlast, List.append_assoc (text path) (word64 _), word64_append_drop (by omega)]
  | nack =>
    obtain ⟨b, left, hb, h'⟩ := Reader.run_bind_eq_ok.mp h
    obtain ⟨hlen, rfl⟩ := run_take_eq_ok.mp hb
    split at h'
    · cases h'
    · rename_i code hcode
      obtain ⟨path, left, hp, h''⟩ := Reader.run_bind_eq_ok.mp h'
      obtain ⟨hpath, rfl⟩ := run_readText_eq_ok.mp hp
      obtain ⟨s, left, hs, hm⟩ := Reader.run_bind_eq_ok.mp h''
      obtain ⟨htext, rfl⟩ := run_readText_eq_ok.mp hs
      obtain ⟨rfl, rfl⟩ := Reader.run_pure_eq_ok.mp hm
      refine ⟨rfl, ⟨by simp [texts, hpath, htext], by simp [blobs]⟩, b ++ text path ++ text s, Or.inl ?_, by simp⟩
      rw [fields, NackCode.code_of_ofCode? hcode, word16_toWord16 hlen]

/-- Bytes that stand for a message are read as the message. -/
theorem Spelled.run_readFields {bytes : Bytes} (h : m.Spelled bytes) (hm : m.Carried) (rest : Bytes) :
    (readFields m.kind).run (bytes ++ rest) = .ok (m, rest) := by
  rcases h with rfl | ⟨rfl, flag, h0, -, rfl⟩
  · exact Message.run_readFields hm rest
  · exact Reader.run_bind_eq_ok.mpr ⟨[flag], rest, run_take rfl, Reader.run_pure_eq_ok.mpr ⟨by simp [h0], rfl⟩⟩

theorem blames_readFields (k : Kind) : Reader.Blames (readFields k) := by
  cases k with
  | quit => exact Reader.blames_pure _
  | hello | ping | pong | authResult => exact (blames_take _ _).bind fun _ => Reader.blames_pure _
  | keyExchange | keyExchangeReply => exact (blames_readBlob _).bind fun _ => Reader.blames_pure _
  | auth => exact (blames_readText _).bind fun _ => (blames_readBlob _).bind fun _ => Reader.blames_pure _
  | subscribe | unsubscribe => exact (blames_readText _).bind fun _ => Reader.blames_pure _
  | newVersion | requestChunk | commit =>
    exact (blames_readText _).bind fun _ => (blames_take _ _).bind fun _ => Reader.blames_pure _
  | fileChunk =>
    exact (blames_readText _).bind fun _ => (blames_take _ _).bind fun _ =>
      (blames_readBlob _).bind fun _ => Reader.blames_pure _
  | nack =>
    refine (blames_take _ _).bind fun code => ?_
    split
    · exact Reader.blames_throw rfl
    · exact (blames_readText _).bind fun _ => (blames_readText _).bind fun _ => Reader.blames_pure _

/-! ### Payloads -/

/-- A payload that is no message breaks the protocol. -/
theorem category_of_decode {e : Fault} (h : decode payload = .error e) : e.category = .protocol := by
  unfold decode at h
  split at h
  · cases h
    rfl
  · split at h
    · cases h
      rfl
    · rename_i kind hkind
      split at h
      · rename_i e' hr
        cases h
        exact blames_readFields kind _ _ hr
      · cases h
      · cases h
        rfl

/-- A payload is accepted as a message if and only if it is the kind's byte and then bytes that stand for the
    message. -/
theorem decode_eq_ok_iff : decode payload = .ok m ↔ m.Carried ∧ ∃ bytes, m.Spelled bytes ∧
    payload = m.kind.tag :: bytes := by
  constructor
  · intro h
    unfold decode at h
    split at h
    · cases h
    · split at h
      · cases h
      · rename_i kind hkind
        split at h
        · cases h
        · rename_i m' hr
          cases h
          obtain ⟨rfl, hcarried, bytes, hspelled, rfl⟩ := spelled_of_readFields hr
          exact ⟨hcarried, bytes, hspelled, by rw [Kind.tag_of_ofTag? hkind, List.append_nil]⟩
        · cases h
  · rintro ⟨hcarried, bytes, hspelled, rfl⟩
    have hr := hspelled.run_readFields hcarried []
    rw [List.append_nil] at hr
    simp only [decode, Kind.ofTag?_tag, hr]

/-- A payload that is accepted is refused with anything behind it. -/
theorem decode_append {more : Bytes} (h : decode payload = .ok m) (hmore : more ≠ []) :
    decode (payload ++ more) = .error (.malformed (.trailing m.kind more.length)) := by
  obtain ⟨hcarried, bytes, hspelled, rfl⟩ := decode_eq_ok_iff.mp h
  obtain ⟨first, others, rfl⟩ := List.exists_cons_of_ne_nil hmore
  simp only [List.cons_append, decode, Kind.ofTag?_tag, hspelled.run_readFields hcarried]

theorem text_fit (s : String) : text (Text.fit s) = text s := by rw [text, text, Text.fit_fit]

/-- A message is written as its texts are cut. -/
theorem encode_fitted (m : Message) : m.fitted.encode = m.encode := by
  cases m <;> simp [fitted, encode, fields, kind, Nack.fitted, text_fit]

/-- A message reads back with its texts cut. -/
theorem decode_encode (h : ∀ blob ∈ m.blobs, blob.length < UInt32.size) : decode m.encode = .ok m.fitted := by
  rw [← encode_fitted]
  exact decode_eq_ok_iff.mpr ⟨carried_fitted h, _, Or.inl rfl, rfl⟩

/-- A payload that is accepted is what its message is written as, unless it is an answer to an authentication
    whose flag is neither 0 nor 1: that is accepted like the flag 1. So no other payload is accepted as the
    same message, unless both are such answers, and no proper beginning and no proper extension of an accepted
    payload is accepted as any message. -/
theorem accepted_as_written (accepted : decode payload = .ok m) :
    (m.encode = payload ∨ ∃ flag, flag ≠ 0 ∧ flag ≠ 1 ∧ payload = [Kind.authResult.tag, flag] ∧
      m = .authResult true ∧ m.encode = [Kind.authResult.tag, 1]) ∧
    (∀ flag, flag ≠ 0 → decode [Kind.authResult.tag, flag] = .ok (.authResult true)) ∧
    (∀ other, decode other = .ok m → m.kind ≠ .authResult → other = payload) ∧
    (∀ more, more ≠ [] → decode (payload ++ more) = .error (.malformed (.trailing m.kind more.length))) ∧
    ∀ front more, payload = front ++ more → more ≠ [] → ∃ e, decode front = .error e := by
  have written : ∀ {p}, decode p = .ok m → m.kind ≠ .authResult → p = m.encode := fun {p} hp hkind => by
    obtain ⟨-, bytes, rfl | ⟨rfl, -⟩, rfl⟩ := decode_eq_ok_iff.mp hp
    · rfl
    · exact absurd rfl hkind
  refine ⟨?_, fun flag h0 => ?_, fun other hother hkind => ?_, fun more => decode_append accepted,
    fun front more hp hmore => ?_⟩
  · obtain ⟨-, bytes, rfl | ⟨rfl, flag, h0, h1, rfl⟩, rfl⟩ := decode_eq_ok_iff.mp accepted
    · exact Or.inl rfl
    · exact Or.inr ⟨flag, h0, h1, rfl, rfl, rfl⟩
  · refine decode_eq_ok_iff.mpr ⟨⟨by simp [texts], by simp [blobs]⟩, [flag], ?_, rfl⟩
    by_cases h1 : flag = 1
    · exact Or.inl (by rw [h1]; rfl)
    · exact Or.inr ⟨rfl, flag, h0, h1, rfl⟩
  · rw [written hother hkind, written accepted hkind]
  · cases hf : decode front with
    | error e => exact ⟨e, rfl⟩
    | ok m' =>
      have hlonger := decode_append hf hmore
      rw [← hp, accepted] at hlonger
      cases hlonger

/-- The payload of a subscription to everything below `ü`. -/
def samplePayload : Bytes := [9, 0, 2, 195, 188]

theorem sample_accepted :
    (decode samplePayload = .ok (.subscribe "ü") ∧
      (∀ other, decode other = .ok (.subscribe "ü") → other = samplePayload) ∧
      decode (samplePayload ++ [0]) = .error (.malformed (.trailing .subscribe 1)) ∧
      ∃ e, decode (samplePayload.take 4) = .error e) ∧
    decode [8, 7] = .ok (.authResult true) ∧ (Message.authResult true).encode = [8, 1] := by
  have subscription : decode samplePayload = .ok (.subscribe "ü") := rfl
  have flag : decode [8, 7] = .ok (.authResult true) := rfl
  obtain ⟨-, -, unique, extended, cut⟩ := accepted_as_written subscription
  obtain ⟨written | ⟨_, -, -, -, -, hflag⟩, -⟩ := accepted_as_written flag
  · exact absurd written (by decide)
  · exact ⟨⟨subscription, fun other h => unique other h (by decide), extended [0] (by decide),
      cut _ [188] rfl (by decide)⟩, flag, hflag⟩

end Message
end TreeReplica
