import TreeReplica.Proofs.Frame
import TreeReplica.Proofs.Payload

/-! Streams of frames, however they arrive. A receiver that appends every part of a stream to a buffer, and
    takes what is whole, has taken after some parts what it would take from their bytes at once
    (`Frame.Intake.Follows.feeds`), and that is what reading the stream gives (`Frame.readAll_eq`). The frames
    of messages give the messages back, and nothing of what follows (`Frame.taken_encodeAll`). -/

namespace TreeReplica

namespace Frame

/-- Messages stand frame by frame at the front of a buffer, and `left` is behind them. -/
inductive Taken (limit : UInt64) : Bytes → List Message → Bytes → Prop
  | none {buffer : Bytes} : Taken limit buffer [] buffer
  | next {buffer rest left : Bytes} {m : Message} {ms : List Message} :
    take limit buffer = .frame (.ok m) rest → Taken limit rest ms left → Taken limit buffer (m :: ms) left

/-- Reading a stream gives some messages one by one, and `left` has not been read then. -/
inductive Received (limit : UInt64) : Bytes → List Message → Bytes → Prop
  | none {stream : Bytes} : Received limit stream [] stream
  | next {stream rest left : Bytes} {m : Message} {ms : List Message} :
    read limit stream = (.ok m, rest) → Received limit rest ms left → Received limit stream (m :: ms) left

variable {limit : UInt64} {buffer stream left : Bytes} {ms : List Message} {e : Fault}

/-! ### Taking all frames -/

theorem Taken.received (h : Taken limit buffer ms left) : Received limit buffer ms left := by
  induction h with
  | none => exact .none
  | next hf _ ih => exact .next (read_of_frame hf) ih

theorem Taken.takeAll_eq (h : Taken limit buffer ms left) :
    takeAll limit buffer = (ms ++ (takeAll limit left).1, (takeAll limit left).2) := by
  induction h with
  | none => rfl
  | next hf _ ih => rw [takeAll_of_message hf, ih, List.cons_append]

theorem Received.readAll_eq (h : Received limit stream ms left) :
    readAll limit stream = (ms ++ (readAll limit left).1, (readAll limit left).2) := by
  induction h with
  | none => rfl
  | next hr _ ih => rw [readAll_of_message hr, ih, List.cons_append]

/-- The frames that stand at the front stand there whatever follows. -/
theorem Taken.append (h : Taken limit buffer ms left) (more : Bytes) :
    Taken limit (buffer ++ more) ms (left ++ more) := by
  induction h with
  | none => exact .none
  | next hf _ ih => exact .next (take_append_of_frame hf more) ih

theorem Taken.trans {ms' : List Message} {left' : Bytes} (h : Taken limit buffer ms left)
    (h' : Taken limit left ms' left') :
    Taken limit buffer (ms ++ ms') left' := by
  induction h with
  | none => exact h'
  | next hf _ ih => exact .next hf (ih h')

/-- A receiver that nothing stopped has taken all that is whole. -/
theorem taken_of_takeAll (h : (takeAll limit buffer).2.1 = none) :
    Taken limit buffer (takeAll limit buffer).1 (takeAll limit buffer).2.2 ∧
      take limit (takeAll limit buffer).2.2 = .incomplete := by
  induction buffer using takeAll.induct limit with
  | case1 buffer hf =>
    rw [takeAll_of_incomplete hf]
    exact ⟨.none, hf⟩
  | case2 buffer e hf =>
    rw [takeAll_of_refused hf] at h
    cases h
  | case3 buffer e rest hf =>
    rw [takeAll_of_error hf] at h
    cases h
  | case4 buffer m rest hf _ _ _ _ ih =>
    rw [takeAll_of_message hf] at h ⊢
    exact ⟨.next hf (ih h).1, (ih h).2⟩

/-- What is taken from a buffer does not depend on what follows. Taking goes on from what was left, if nothing
    stopped it. -/
theorem takeAll_append (limit : UInt64) (buffer more : Bytes) :
    takeAll limit (buffer ++ more) =
      match takeAll limit buffer with
      | (ms, some e, left) => (ms, some e, left ++ more)
      | (ms, none, left) => (ms ++ (takeAll limit (left ++ more)).1, (takeAll limit (left ++ more)).2) := by
  induction buffer using takeAll.induct limit with
  | case1 buffer hf => rw [takeAll_of_incomplete hf]; rfl
  | case2 buffer e hf => rw [takeAll_of_refused hf, takeAll_of_refused (take_append_of_refused hf more)]
  | case3 buffer e rest hf => rw [takeAll_of_error hf, takeAll_of_error (take_append_of_frame hf more)]
  | case4 buffer m rest hf _ _ _ _ ih =>
    -- Taking from the rest may be stopped in its turn, at the same frame with and without the new bytes.
    rw [takeAll_of_message hf, takeAll_of_message (take_append_of_frame hf more), ih]
    rcases takeAll limit rest with ⟨ms, e | e, left⟩ <;> rfl

/-- Reading a stream to its end gives what is taken from it, and an end that nothing else explains. -/
theorem readAll_eq (limit : UInt64) (stream : Bytes) : (readAll limit stream).1 = (takeAll limit stream).1 ∧
    (readAll limit stream).2.1 = (takeAll limit stream).2.1.getD .connectionClosed := by
  induction stream using takeAll.induct limit with
  | case1 stream hf =>
    rw [takeAll_of_incomplete hf, readAll_of_error (read_of_incomplete hf)]
    exact ⟨rfl, rfl⟩
  | case2 stream e hf =>
    rw [takeAll_of_refused hf, readAll_of_error (Prod.ext (read_of_refused hf) rfl)]
    exact ⟨rfl, rfl⟩
  | case3 stream e rest hf =>
    rw [takeAll_of_error hf, readAll_of_error (read_of_frame hf)]
    exact ⟨rfl, rfl⟩
  | case4 stream m rest hf _ _ _ _ ih =>
    rw [takeAll_of_message hf, readAll_of_message (read_of_frame hf)]
    exact ⟨congrArg (m :: ·) ih.1, ih.2⟩

theorem category_of_take (limit : UInt64) (buffer : Bytes) :
    match take limit buffer with
    | .refused e | .frame (.error e) _ => e.category = .protocol
    | _ => True := by
  unfold take
  cases hd : Varint.decode buffer with
  | incomplete => trivial
  | refused e n => exact Varint.category_of_decode hd
  | complete size n =>
    dsimp only
    by_cases hlarge : size > limit
    · simp only [if_pos hlarge, Fault.category]
    · by_cases hshort : ((buffer.drop n).take size.toNat).length < size.toNat
      · simp only [if_neg hlarge, if_pos hshort]
      · rw [if_neg hlarge, if_neg hshort]
        cases hm : Message.decode ((buffer.drop n).take size.toNat) with
        | error e => exact Message.category_of_decode hm
        | ok m => trivial

/-- What stops a receiver breaks the protocol; it is not the end of the stream. -/
theorem category_of_takeAll (h : (takeAll limit buffer).2.1 = some e) : e.category = .protocol := by
  induction buffer using takeAll.induct limit with
  | case1 buffer hf =>
    rw [takeAll_of_incomplete hf] at h
    cases h
  | case2 buffer e hf =>
    rw [takeAll_of_refused hf] at h
    cases h
    have hcategory := category_of_take limit buffer
    rwa [hf] at hcategory
  | case3 buffer e rest hf =>
    rw [takeAll_of_error hf] at h
    cases h
    have hcategory := category_of_take limit buffer
    rwa [hf] at hcategory
  | case4 buffer m rest hf _ _ _ _ ih =>
    rw [takeAll_of_message hf] at h
    exact ih h

/-! ### Parts of a stream -/

/-- A receiver that appends what arrives to a buffer: the messages it has taken, and what stopped it. -/
structure Intake where
  messages : List Message
  refusal : Option Fault
  buffer : Bytes
  deriving DecidableEq, Repr

namespace Intake

def start : Intake := ⟨[], none, []⟩

/-- Some more bytes have arrived: all whole frames are taken from the buffer. A receiver that was stopped
    takes nothing. -/
def feed (limit : UInt64) (r : Intake) (part : Bytes) : Intake :=
  match r.refusal with
  | some _ => r
  | none =>
    let (ms, e, left) := takeAll limit (r.buffer ++ part)
    ⟨r.messages ++ ms, e, left⟩

/-- What a receiver has taken from a stream so far is what it would take from the same bytes at once. -/
structure Follows (limit : UInt64) (stream : Bytes) (r : Intake) : Prop where
  messages : (takeAll limit stream).1 = r.messages
  refusal : (takeAll limit stream).2.1 = r.refusal
  buffer : r.refusal = none → (takeAll limit stream).2.2 = r.buffer

theorem follows_start (limit : UInt64) : Follows limit [] start := by
  have hnil : takeAll limit [] = ([], none, []) := takeAll_of_incomplete rfl
  exact ⟨by rw [hnil]; rfl, by rw [hnil]; rfl, fun _ => by rw [hnil]; rfl⟩

theorem Follows.feed {r : Intake} (h : r.Follows limit stream) (part : Bytes) :
    (r.feed limit part).Follows limit (stream ++ part) := by
  obtain ⟨messages, refusal, buffer⟩ := r
  obtain ⟨hmessages, hrefusal, hbuffer⟩ := h
  rw [Intake.feed]
  cases refusal with
  | some e =>
    -- What is left in the buffer differs from here on, as nothing is appended to it any more.
    have hall : takeAll limit stream = (messages, some e, (takeAll limit stream).2.2) :=
      Prod.ext hmessages (Prod.ext hrefusal rfl)
    have happend := takeAll_append limit stream part
    rw [hall] at happend
    exact ⟨by rw [happend], by rw [happend], nofun⟩
  | none =>
    have hall : takeAll limit stream = (messages, none, buffer) :=
      Prod.ext hmessages (Prod.ext hrefusal (hbuffer rfl))
    have happend := takeAll_append limit stream part
    rw [hall] at happend
    exact ⟨by rw [happend], by rw [happend], fun _ => by rw [happend]⟩

/-- Induction over the parts that arrive. -/
theorem Follows.feeds {r : Intake} (h : r.Follows limit stream) (parts : List Bytes) :
    (parts.foldl (Intake.feed limit) r).Follows limit (stream ++ parts.flatten) := by
  induction parts generalizing r stream with
  | nil =>
    rw [List.flatten_nil, List.append_nil]
    exact h
  | cons part parts ih =>
    rw [List.flatten_cons, ← List.append_assoc]
    exact ih (h.feed part)

end Intake

/-- A stream that arrives in parts, cut anywhere, gives the messages that reading it at once gives. What stops
    the receiver is what ends the reading, unless the stream itself just ends. No byte is taken as long as no
    frame is whole, and a receiver that nothing has stopped is left with the bytes behind the last whole
    frame, where reading finds the stream closed. -/
theorem parts_as_stream (limit : UInt64) (parts : List Bytes) :
    let got := parts.foldl (Intake.feed limit) .start
    ((readAll limit parts.flatten).1 = got.messages ∧
      (readAll limit parts.flatten).2.1 = got.refusal.getD .connectionClosed ∧
      got.refusal ≠ some .connectionClosed) ∧
    (∀ buffer, take limit buffer = .incomplete → takeAll limit buffer = ([], none, buffer)) ∧
    (got.refusal = none → Received limit parts.flatten got.messages got.buffer ∧
      take limit got.buffer = .incomplete ∧
      read limit got.buffer = (.error .connectionClosed, [])) := by
  intro got
  have follows : got.Follows limit parts.flatten := (Intake.follows_start limit).feeds parts
  obtain ⟨hmessages, hreason⟩ := readAll_eq limit parts.flatten
  refine ⟨⟨hmessages.trans follows.messages, ?_, fun hclosed => ?_⟩,
    fun _ => takeAll_of_incomplete, fun hnone => ?_⟩
  · rw [hreason, follows.refusal]
  · have hcategory := category_of_takeAll (follows.refusal.trans hclosed)
    cases hcategory
  · obtain ⟨htaken, hrest⟩ := taken_of_takeAll (follows.refusal.trans hnone)
    rw [follows.messages, follows.buffer hnone] at htaken
    rw [follows.buffer hnone] at hrest
    exact ⟨htaken.received, hrest, read_of_incomplete hrest⟩

/-- The end, a ping and the beginning of another, cut inside a length, inside a nonce and behind a kind. -/
def sampleParts : List Bytes := [[1], [1, 9, 3, 0, 0, 0], [0, 0, 0, 0, 7, 9, 3]]

theorem sample_parts : (readAll 64 sampleParts.flatten).1 = [.quit, .ping 7] ∧
    (readAll 64 sampleParts.flatten).2.1 = .connectionClosed ∧
    Received 64 sampleParts.flatten [.quit, .ping 7] [9, 3] := by
  have got : sampleParts.foldl (Intake.feed 64) .start = ⟨[.quit, .ping 7], none, [9, 3]⟩ := by decide +kernel
  obtain ⟨⟨messages, reason, -⟩, -, waiting⟩ := parts_as_stream 64 sampleParts
  rw [got] at messages reason waiting
  exact ⟨messages, reason, (waiting rfl).1⟩

/-! ### Frames of messages -/

/-- The frame of a message gives the message back, with its texts cut, wherever its length is not refused. -/
theorem take_encode {m : Message} (hblobs : ∀ blob ∈ m.blobs, blob.length < UInt32.size)
    (hsize : m.encode.length < UInt64.size) (limit : UInt64) (tail : Bytes) : take limit (encode m ++ tail) =
      if m.encode.length ≤ limit.toNat then .frame (.ok m.fitted) tail
      else .refused (.tooLarge (.ofNat m.encode.length) limit) := by
  rw [encode, take_prefixed hsize, Message.decode_encode hblobs]

/-- Induction over the messages: their frames are taken one by one. -/
theorem taken_encodeAll (hblobs : ∀ m ∈ ms, ∀ blob ∈ m.blobs, blob.length < UInt32.size)
    (hsizes : ∀ m ∈ ms, m.encode.length ≤ limit.toNat) (tail : Bytes) :
    Taken limit (encodeAll ms ++ tail) (ms.map .fitted) tail := by
  induction ms with
  | nil => exact .none
  | cons m ms ih =>
    obtain ⟨hblob, hblobs⟩ := List.forall_mem_cons.mp hblobs
    obtain ⟨hsize, hsizes⟩ := List.forall_mem_cons.mp hsizes
    rw [show encodeAll (m :: ms) = encode m ++ encodeAll ms from rfl, List.append_assoc]
    have htake := take_encode hblob (Nat.lt_of_le_of_lt hsize limit.toNat_lt) limit (encodeAll ms ++ tail)
    rw [if_pos hsize] at htake
    exact .next htake (ih hblobs hsizes)

/-- Frames of messages, one behind the other, give the messages back in their order. The texts of a message
    come back cut to what their lengths can say, so a message comes back as it was if its texts are short
    enough, and so does every refusal that was made to fit. What stands behind the frames is left as it is. -/
theorem messages_back (blobs : ∀ m ∈ ms, ∀ blob ∈ m.blobs, blob.length < UInt32.size)
    (sizes : ∀ m ∈ ms, m.encode.length ≤ limit.toNat) (tail : Bytes) :
    (Taken limit (encodeAll ms ++ tail) (ms.map .fitted) tail ∧
      takeAll limit (encodeAll ms ++ tail) = (ms.map .fitted ++ (takeAll limit tail).1, (takeAll limit tail).2) ∧
      readAll limit (encodeAll ms ++ tail) = (ms.map .fitted ++ (readAll limit tail).1, (readAll limit tail).2)) ∧
    ∀ m ∈ ms, (m.fitted.texts = m.texts.map Text.fit ∧ ∀ text ∈ m.texts, Text.Cut text (Text.fit text)) ∧
      ((∀ text ∈ m.texts, text.utf8ByteSize ≤ Text.limit) → m.fitted = m) ∧
      ∀ code path text, m = .nack (.fitted code path text) → m.fitted = m := by
  have taken := taken_encodeAll blobs sizes tail
  refine ⟨⟨taken, taken.takeAll_eq, taken.received.readAll_eq⟩, fun m _ => ⟨?_, Message.fitted_of_texts, ?_⟩⟩
  · exact ⟨Message.texts_fitted m, fun text _ => Text.cut_fit text⟩
  · rintro code path text rfl
    exact Message.fitted_nack code path text

/-- A text of 65536 bytes, in characters of two bytes. -/
def sampleText : String := .ofList (List.replicate 32768 'ü')

/-- The text without its last character. -/
def sampleCut : String := .ofList (List.replicate 32767 'ü')

def sampleMessages : List Message :=
  [.subscribe sampleText, .fileChunk ⟨"a", 1, 0, [1, 2]⟩, .nack (.fitted .stale "a" sampleText)]

theorem fit_sampleText : Text.fit sampleText = sampleCut := Text.fit_replicate (by decide)

theorem sample_messages_back : Taken 200000 (encodeAll sampleMessages ++ [0x80])
    [.subscribe sampleCut, .fileChunk ⟨"a", 1, 0, [1, 2]⟩, .nack ⟨.stale, "a", sampleCut⟩] [0x80] := by
  have short : Text.fit "a" = "a" := Text.fit_of_le (by decide)
  have again : Text.fit sampleCut = sampleCut := fit_sampleText ▸ Text.fit_fit sampleText
  have blobs : ∀ m ∈ sampleMessages, ∀ blob ∈ m.blobs, blob.length < UInt32.size := by
    simp [sampleMessages, Message.blobs, UInt32.size]
  have sizes : ∀ m ∈ sampleMessages, m.encode.length ≤ (200000 : UInt64).toNat := by
    have hcut : (Text.fit sampleText).utf8ByteSize ≤ 65535 := Text.utf8ByteSize_fit_le sampleText
    have hpath : "a".utf8ByteSize = 1 := rfl
    simp [sampleMessages, Message.encode, Message.fields, Nack.fitted, short]
    omega
  have fitted : sampleMessages.map Message.fitted =
      [.subscribe sampleCut, .fileChunk ⟨"a", 1, 0, [1, 2]⟩, .nack ⟨.stale, "a", sampleCut⟩] := by
    simp only [sampleMessages, List.map_cons, List.map_nil, Message.fitted, Nack.fitted,
      fit_sampleText, short, again]
  exact fitted ▸ (messages_back blobs sizes [0x80]).1.1

end Frame

end TreeReplica
