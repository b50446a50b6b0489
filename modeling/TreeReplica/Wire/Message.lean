import TreeReplica.Record
import TreeReplica.Wire.Kind

/-!
Messages that peers exchange, and the longest text that fits into one. `Text.fit_of_le`: a short text
fits whole; `Text.fitChars_prefix` and `Text.sizeChars_fitChars_le`: a long one is cut at the end, to no
more than the limit. -/

namespace TreeReplica

/-! ### Text that fits -/

namespace Text

/-- The longest text that a 16-bit length can announce, in bytes of its UTF-8 form. -/
def limit : Nat := 65535

/-- The longest beginning of a list of characters whose UTF-8 form has at most `room` bytes. -/
def fitChars : Nat → List Char → List Char
  | _, [] => []
  | room, c :: rest => if c.utf8Size ≤ room then c :: fitChars (room - c.utf8Size) rest else []

/-- The longest beginning of a text that fits into a message. -/
def fit (text : String) : String :=
  if text.utf8ByteSize ≤ limit then text else .ofList (fitChars limit text.toList)

theorem fit_of_le {text : String} (h : text.utf8ByteSize ≤ limit) : fit text = text := if_pos h

def sizeChars (chars : List Char) : Nat := chars.foldr (·.utf8Size + ·) 0

theorem sizeChars_fitChars_le (room : Nat) (chars : List Char) :
    sizeChars (fitChars room chars) ≤ room := by
  induction chars generalizing room with
  | nil => simp [fitChars, sizeChars]
  | cons c rest ih =>
    unfold fitChars
    split
    · have := ih (room - c.utf8Size)
      simp only [sizeChars, List.foldr_cons] at this ⊢
      omega
    · simp [sizeChars]

theorem fitChars_prefix (room : Nat) (chars : List Char) : fitChars room chars <+: chars := by
  induction chars generalizing room with
  | nil => simp [fitChars]
  | cons c rest ih =>
    unfold fitChars
    split
    · simpa using ih _
    · simp

end Text

/-! ### Messages -/

/-- Announces that `path` has `client` edits on top of `base`, and how long its file now is. -/
structure NewVersion where
  path : String
  base : UInt64
  client : UInt64
  size : UInt64
  deriving DecidableEq, Repr, Inhabited

/-- Asks for `size` bytes from `offset` on, as of the edit count `client`. -/
structure ChunkRequest where
  path : String
  client : UInt64
  offset : UInt64
  size : UInt32
  deriving DecidableEq, Repr, Inhabited

/-- Bytes of a file from `offset` on. No bytes at all say that the request came too late. -/
structure FileChunk where
  path : String
  client : UInt64
  offset : UInt64
  data : Bytes
  deriving DecidableEq, Repr, Inhabited

def FileChunk.refusal (c : FileChunk) : Bool := c.data.isEmpty

/-- Refuses a message about `path`. -/
structure Nack where
  code : NackCode
  path : String
  text : String
  deriving DecidableEq, Repr

/-- A refusal whose texts are cut to what a message can carry. -/
def Nack.fitted (code : NackCode) (path text : String) : Nack := ⟨code, Text.fit path, Text.fit text⟩

inductive Message
  | quit
  | hello (version : UInt16)
  | ping (nonce : UInt64)
  | pong (nonce : UInt64)
  | keyExchange (publicKey : Bytes)
  | keyExchangeReply (publicKey : Bytes)
  | auth (peer : String) (proof : Bytes)
  | authResult (accepted : Bool)
  | subscribe (path : String)
  | unsubscribe (path : String)
  | newVersion (notice : NewVersion)
  | requestChunk (request : ChunkRequest)
  | fileChunk (chunk : FileChunk)
  | commit (path : String) (commit : Commit)
  | nack (nack : Nack)
  deriving DecidableEq, Repr

namespace Message

def kind : Message → Kind
  | quit => .quit
  | hello _ => .hello
  | ping _ => .ping
  | pong _ => .pong
  | keyExchange _ => .keyExchange
  | keyExchangeReply _ => .keyExchangeReply
  | auth _ _ => .auth
  | authResult _ => .authResult
  | subscribe _ => .subscribe
  | unsubscribe _ => .unsubscribe
  | newVersion _ => .newVersion
  | requestChunk _ => .requestChunk
  | fileChunk _ => .fileChunk
  | commit _ _ => .commit
  | nack _ => .nack

/-- The path that a message is about. -/
def path? : Message → Option String
  | subscribe path | unsubscribe path | commit path _ => some path
  | newVersion m => some m.path
  | requestChunk m => some m.path
  | fileChunk m => some m.path
  | nack m => some m.path
  | _ => none

/-- The message with every text cut to what the wire carries. -/
def fitted : Message → Message
  | auth peer proof => auth (Text.fit peer) proof
  | subscribe path => subscribe (Text.fit path)
  | unsubscribe path => unsubscribe (Text.fit path)
  | newVersion m => newVersion { m with path := Text.fit m.path }
  | requestChunk m => requestChunk { m with path := Text.fit m.path }
  | fileChunk m => fileChunk { m with path := Text.fit m.path }
  | commit path c => commit (Text.fit path) c
  | nack m => nack (.fitted m.code m.path m.text)
  | m => m

end Message

end TreeReplica
