import TreeReplica.Proofs.Varint
import TreeReplica.Wire.Frame

/-! Frames in a buffer that grows at its end. What the front of a buffer says stays as it is when more bytes
    arrive, unless the buffer ended inside a frame, so the messages of a stream can be taken from any part of
    it that has arrived (`Frame.takeAll_of_frame`). A payload behind its length is a frame if the limit allows
    its length (`Frame.take_prefixed`). -/

namespace TreeReplica

namespace Varint
variable {d : Decoder} {n k : Nat} {buffer : Bytes} {value : UInt64} {e : Fault}

/-- A prefix that has been read does not depend on what follows. -/
theorem scan_append (h : scan d n buffer ≠ .incomplete) (more : Bytes) :
    scan d n (buffer ++ more) = scan d n buffer := by
  induction buffer generalizing d n with
  | nil => exact absurd rfl h
  | cons b rest ih =>
    rw [List.cons_append]
    unfold scan at h ⊢
    split
    · rfl
    · rfl
    · rename_i hp
      rw [hp] at h
      exact ih h

theorem decode_append (h : decode buffer ≠ .incomplete) (more : Bytes) : decode (buffer ++ more) = decode buffer :=
  scan_append h more

theorem read_le_of_decode (h : decode buffer = .complete value k) : k ≤ buffer.length := by
  have hr := (read_of_scan_complete h).2
  omega

end Varint

namespace Frame
variable {limit : UInt64} {buffer rest : Bytes} {content : Except Fault Message} {m : Message} {e : Fault}

/-- What the front of a buffer says stays when more bytes arrive, unless the buffer ended inside the frame. -/
theorem take_append (limit : UInt64) (buffer more : Bytes) :
    match take limit buffer with
    | .incomplete => True
    | .refused e => take limit (buffer ++ more) = .refused e
    | .frame content rest => take limit (buffer ++ more) = .frame content (rest ++ more) := by
  unfold take
  cases hd : Varint.decode buffer with
  | incomplete => trivial
  | refused e n => rw [Varint.decode_append (by rw [hd]; nofun), hd]
  | complete size n =>
    rw [Varint.decode_append (by rw [hd]; nofun), hd]
    have hread : n ≤ buffer.length := Varint.read_le_of_decode hd
    dsimp only
    by_cases hlarge : size > limit
    · simp only [if_pos hlarge]
    · by_cases hshort : ((buffer.drop n).take size.toNat).length < size.toNat
      · simp only [if_neg hlarge, if_pos hshort]
      · -- The whole payload stands in the old part.
        have hsize : size.toNat ≤ (buffer.drop n).length := by
          rw [List.length_take] at hshort
          omega
        simp only [if_neg hlarge, if_neg hshort, List.drop_append_of_le_length hread,
          List.take_append_of_le_length hsize, List.drop_append_of_le_length hsize]

theorem take_append_of_refused (h : take limit buffer = .refused e) (more : Bytes) :
    take limit (buffer ++ more) = .refused e := by
  have happend := take_append limit buffer more
  rwa [h] at happend

theorem take_append_of_frame (h : take limit buffer = .frame content rest) (more : Bytes) :
    take limit (buffer ++ more) = .frame content (rest ++ more) := by
  have happend := take_append limit buffer more
  rwa [h] at happend

/-- A payload behind its length is taken whole, or its length is refused. -/
theorem take_prefixed {payload : Bytes} (h : payload.length < UInt64.size) (limit : UInt64) (more : Bytes) :
    take limit (Varint.encode (.ofNat payload.length) ++ payload ++ more) =
      if payload.length ≤ limit.toNat then .frame (Message.decode payload) more
      else .refused (.tooLarge (.ofNat payload.length) limit) := by
  have hsize : (UInt64.ofNat payload.length).toNat = payload.length := UInt64.toNat_ofNat_of_lt' h
  have hlarge : UInt64.ofNat payload.length > limit ↔ ¬ payload.length ≤ limit.toNat := by
    rw [gt_iff_lt, UInt64.lt_iff_toNat_lt, hsize, Nat.not_le]
  rw [take, List.append_assoc, Varint.decode_encode]
  simp only [List.drop_left, hsize, List.take_left, hlarge, Nat.lt_irrefl, ↓reduceIte, ite_not]

/-! ### Both ways to receive -/

/-- A stream is read as its bytes are taken from a buffer. What is no whole frame yet counts as closed, as
    nothing more comes. -/
theorem read_take (limit : UInt64) (stream : Bytes) :
    match take limit stream with
    | .incomplete => read limit stream = (.error .connectionClosed, [])
    | .refused e => (read limit stream).1 = .error e
    | .frame content rest => read limit stream = (content, rest) := by
  unfold take read
  cases Varint.decode stream with
  | incomplete | refused => rfl
  | complete size n =>
    dsimp only
    by_cases hlarge : size > limit
    · simp only [if_pos hlarge]
    · by_cases hshort : ((stream.drop n).take size.toNat).length < size.toNat
      · simp only [if_neg hlarge, if_pos hshort]
      · simp only [if_neg hlarge, if_neg hshort]

theorem read_of_incomplete (h : take limit buffer = .incomplete) :
    read limit buffer = (.error .connectionClosed, []) := by
  have hread := read_take limit buffer
  rwa [h] at hread

theorem read_of_refused (h : take limit buffer = .refused e) : (read limit buffer).1 = .error e := by
  have hread := read_take limit buffer
  rwa [h] at hread

theorem read_of_frame (h : take limit buffer = .frame content rest) : read limit buffer = (content, rest) := by
  have hread := read_take limit buffer
  rwa [h] at hread

/-! ### All frames -/

theorem takeAll_of_incomplete (h : take limit buffer = .incomplete) :
    takeAll limit buffer = ([], none, buffer) := by
  rw [takeAll]
  split <;> rename_i h' <;> rw [h] at h' <;> cases h'

theorem takeAll_of_refused (h : take limit buffer = .refused e) : takeAll limit buffer = ([], some e, buffer) := by
  rw [takeAll]
  split <;> rename_i h' <;> rw [h] at h' <;> cases h'
  rfl

theorem takeAll_of_error (h : take limit buffer = .frame (.error e) rest) :
    takeAll limit buffer = ([], some e, rest) := by
  rw [takeAll]
  split <;> rename_i h' <;> rw [h] at h' <;> cases h'
  rfl

theorem takeAll_of_message (h : take limit buffer = .frame (.ok m) rest) :
    takeAll limit buffer = (m :: (takeAll limit rest).1, (takeAll limit rest).2) := by
  rw [takeAll]
  split <;> rename_i h' <;> rw [h] at h' <;> cases h'
  rfl

theorem takeAll_eq_nil (h : ∀ m rest, take limit buffer ≠ .frame (.ok m) rest) : (takeAll limit buffer).1 = [] := by
  rw [takeAll]
  split
  · rfl
  · rfl
  · rfl
  · rename_i m rest hf
    exact absurd hf (h m rest)

theorem takeAll_of_frame (h : take limit buffer = .frame (.ok m) rest) :
    (takeAll limit buffer).1 = m :: (takeAll limit rest).1 := by
  rw [takeAll_of_message h]

theorem readAll_of_error {left : Bytes} (h : read limit buffer = (.error e, left)) :
    readAll limit buffer = ([], e, left) := by
  rw [readAll]
  split <;> rename_i h' <;> rw [h] at h' <;> cases h'
  rfl

theorem readAll_of_message (h : read limit buffer = (.ok m, rest)) :
    readAll limit buffer = (m :: (readAll limit rest).1, (readAll limit rest).2) := by
  rw [readAll]
  split <;> rename_i h' <;> rw [h] at h' <;> cases h'
  rfl

end Frame

end TreeReplica
