import TreeReplica.Wire.Payload
import TreeReplica.Wire.Varint

/-!
Frames: a payload behind its length. A receiver either collects bytes in a buffer and takes whole
frames from the front (`Frame.take`), or reads a stream up to the end of the next frame
(`Frame.read`). -/

namespace TreeReplica

namespace Frame

def encode (m : Message) : Bytes :=
  let payload := m.encode
  Varint.encode (.ofNat payload.length) ++ payload

/-- The frames of some messages, one behind the other. -/
def encodeAll (ms : List Message) : Bytes := (ms.map encode).flatten

/-- What the front of a receive buffer holds. -/
inductive Front
  /-- No whole frame yet. -/
  | incomplete
  /-- The length is refused; the buffer stays as it is. -/
  | refused (e : Fault)
  /-- A whole frame, which is taken from the buffer even if its payload is no message. -/
  | frame (content : Except Fault Message) (rest : Bytes)

/-- Takes one frame from the front of a receive buffer. A length over `limit` is refused as soon as
    its prefix is whole. -/
def take (limit : UInt64) (buffer : Bytes) : Front :=
  match Varint.decode buffer with
  | .incomplete => .incomplete
  | .refused e _ => .refused e
  | .complete size read =>
    let rest := buffer.drop read
    let payload := rest.take size.toNat
    if size > limit then .refused (.tooLarge size limit)
    else if payload.length < size.toNat then .incomplete
    else .frame (Message.decode payload) (rest.drop size.toNat)

/-- Reads one frame from a stream that ends after these bytes; the second part is what is left of the
    stream. A stream that ends inside a frame counts as closed by the peer. -/
def read (limit : UInt64) (stream : Bytes) : Except Fault Message × Bytes :=
  match Varint.decode stream with
  | .incomplete => (.error .connectionClosed, [])
  | .refused e read => (.error e, stream.drop read)
  | .complete size read =>
    let rest := stream.drop read
    let payload := rest.take size.toNat
    if size > limit then (.error (.tooLarge size limit), rest)
    else if payload.length < size.toNat then (.error .connectionClosed, [])
    else (Message.decode payload, rest.drop size.toNat)

theorem length_lt_of_take {limit : UInt64} {buffer rest : Bytes} {content : Except Fault Message}
    (h : take limit buffer = .frame content rest) : rest.length < buffer.length := by
  unfold take at h
  split at h
  · cases h
  · cases h
  · rename_i size read hd
    have hr := Varint.read_of_scan_complete hd
    simp only at h
    split at h
    · cases h
    · split at h
      · cases h
      · cases h
        simp only [List.length_drop]
        omega

/-- The frames at the front of a buffer, up to the first refusal. A frame whose payload is no message
    is a refusal that has been taken from the buffer. -/
def takeAll (limit : UInt64) (buffer : Bytes) : List Message × Option Fault × Bytes :=
  match _h : take limit buffer with
  | .incomplete => ([], none, buffer)
  | .refused e => ([], some e, buffer)
  | .frame (.error e) rest => ([], some e, rest)
  | .frame (.ok m) rest =>
    let (ms, e, left) := takeAll limit rest
    (m :: ms, e, left)
termination_by buffer.length
decreasing_by exact length_lt_of_take _h

theorem length_lt_of_read {limit : UInt64} {stream rest : Bytes} {m : Message}
    (h : read limit stream = (.ok m, rest)) : rest.length < stream.length := by
  unfold read at h
  split at h
  · cases h
  · cases h
  · rename_i size n hd
    have hr := Varint.read_of_scan_complete hd
    simp only at h
    split at h
    · cases h
    · split at h
      · cases h
      · simp only [Prod.mk.injEq] at h
        rw [← h.2]
        simp only [List.length_drop]
        omega

/-- The messages of a stream up to the first failure, the failure, and what is then left. -/
def readAll (limit : UInt64) (stream : Bytes) : List Message × Fault × Bytes :=
  match _h : read limit stream with
  | (.error e, rest) => ([], e, rest)
  | (.ok m, rest) =>
    let (ms, e, left) := readAll limit rest
    (m :: ms, e, left)
termination_by stream.length
decreasing_by exact length_lt_of_read _h

end Frame

end TreeReplica
