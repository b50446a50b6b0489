import TreeReplica.Fault
import TreeReplica.Wire.Message

/-!
Payloads: the bytes of one message. A payload is the kind's byte followed by the kind's fields; words
stand most significant byte first, a text after its 16-bit length and a blob after its 32-bit length. -/

namespace TreeReplica

/-- Takes a value from the front of a payload and leaves the rest, or refuses the payload. -/
abbrev Reader (α : Type) := StateT Bytes (Except Fault) α

namespace Payload

/-! ### Fields -/

def word16 (n : UInt16) : Bytes := Bytes.bigBytes 2 n.toNat
def word32 (n : UInt32) : Bytes := Bytes.bigBytes 4 n.toNat
def word64 (n : UInt64) : Bytes := Bytes.bigBytes 8 n.toNat

/-- A text is cut to what its length field can say. -/
def text (s : String) : Bytes :=
  let fitted := Text.fit s
  Bytes.bigBytes 2 fitted.utf8ByteSize ++ Bytes.ofText fitted

def blob (data : Bytes) : Bytes := Bytes.bigBytes 4 data.length ++ data

def take (field : Field) (n : Nat) : Reader Bytes := fun input =>
  if input.length < n then .error (.malformed (.truncated field n input.length))
  else .ok (input.take n, input.drop n)

def toWord16 (bytes : Bytes) : UInt16 := .ofNat (Bytes.bigValue bytes)
def toWord32 (bytes : Bytes) : UInt32 := .ofNat (Bytes.bigValue bytes)
def toWord64 (bytes : Bytes) : UInt64 := .ofNat (Bytes.bigValue bytes)

def readText (field : Field) : Reader String := do
  let length ← take field 2
  let bytes ← take field (Bytes.bigValue length)
  match Bytes.text? bytes with
  | some s => pure s
  | none => throw (.malformed (.invalidText field))

def readBlob (field : Field) : Reader Bytes := do
  let length ← take field 4
  take field (Bytes.bigValue length)

end Payload

namespace Message

open Payload

/-- The fields of a message, behind the kind's byte. -/
def fields : Message → Bytes
  | quit => []
  | hello version => word16 version
  | ping nonce | pong nonce => word64 nonce
  | keyExchange key | keyExchangeReply key => blob key
  | auth peer proof => text peer ++ blob proof
  | authResult accepted => [if accepted then 1 else 0]
  | subscribe path | unsubscribe path => text path
  | newVersion m => text m.path ++ word64 m.base ++ word64 m.client ++ word64 m.size
  | requestChunk m => text m.path ++ word64 m.client ++ word64 m.offset ++ word32 m.size
  | fileChunk m => text m.path ++ word64 m.client ++ word64 m.offset ++ blob m.data
  | commit path c => text path ++ word64 c.base ++ word64 c.next ++ word64 c.client
  | nack m => word16 m.code.code ++ text m.path ++ text m.text

def encode (m : Message) : Bytes := m.kind.tag :: m.fields

/-- Reads the fields of a message of kind `k`. -/
def readFields (k : Kind) : Reader Message :=
  match k with
  | .quit => pure quit
  | .hello => do
    let b ← take ⟨k, none⟩ 2
    return hello (toWord16 b)
  | .ping => do
    let b ← take ⟨k, none⟩ 8
    return ping (toWord64 b)
  | .pong => do
    let b ← take ⟨k, none⟩ 8
    return pong (toWord64 b)
  | .keyExchange => do
    let key ← readBlob ⟨k, some "key"⟩
    return keyExchange key
  | .keyExchangeReply => do
    let key ← readBlob ⟨k, some "key"⟩
    return keyExchangeReply key
  | .auth => do
    let peer ← readText ⟨k, some "peer"⟩
    let proof ← readBlob ⟨k, some "proof"⟩
    return auth peer proof
  | .authResult => do
    let b ← take ⟨k, none⟩ 1
    return authResult (b ≠ [0])
  | .subscribe => do
    let path ← readText ⟨k, some "path"⟩
    return subscribe path
  | .unsubscribe => do
    let path ← readText ⟨k, some "path"⟩
    return unsubscribe path
  | .newVersion => do
    let path ← readText ⟨k, some "path"⟩
    let b ← take ⟨k, none⟩ 24
    return newVersion ⟨path, toWord64 (b.take 8), toWord64 ((b.drop 8).take 8), toWord64 (b.drop 16)⟩
  | .requestChunk => do
    let path ← readText ⟨k, some "path"⟩
    let b ← take ⟨k, none⟩ 20
    return requestChunk ⟨path, toWord64 (b.take 8), toWord64 ((b.drop 8).take 8), toWord32 (b.drop 16)⟩
  | .fileChunk => do
    let path ← readText ⟨k, some "path"⟩
    let b ← take ⟨k, none⟩ 16
    let data ← readBlob ⟨k, some "data"⟩
    return fileChunk ⟨path, toWord64 (b.take 8), toWord64 (b.drop 8), data⟩
  | .commit => do
    let path ← readText ⟨k, some "path"⟩
    let b ← take ⟨k, none⟩ 24
    return commit path ⟨toWord64 (b.take 8), toWord64 ((b.drop 8).take 8), toWord64 (b.drop 16)⟩
  | .nack => do
    let b ← take ⟨k, none⟩ 2
    match NackCode.ofCode? (toWord16 b) with
    | none => throw (.malformed (.unknownNackCode (toWord16 b).toNat))
    | some code =>
      let path ← readText ⟨k, some "path"⟩
      let text ← readText ⟨k, some "message"⟩
      return nack ⟨code, path, text⟩

def decode : Bytes → Except Fault Message
  | [] => .error (.malformed .emptyPayload)
  | tag :: input =>
    match Kind.ofTag? tag with
    | none => .error (.invalidKind tag)
    | some kind =>
      match (readFields kind).run input with
      | .error e => .error e
      | .ok (m, []) => .ok m
      | .ok (_, rest) => .error (.malformed (.trailing kind rest.length))

end Message

end TreeReplica
