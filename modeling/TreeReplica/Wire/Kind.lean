/-!
Kinds of messages and of refusals, with the numbers that stand for them on the wire. -/

namespace TreeReplica

inductive Kind
  | quit
  | hello
  | ping
  | pong
  | keyExchange
  | keyExchangeReply
  | auth
  | authResult
  | subscribe
  | unsubscribe
  | newVersion
  | requestChunk
  | fileChunk
  | commit
  | nack
  deriving DecidableEq, Repr

namespace Kind

/-- The byte that opens a payload of this kind. -/
def tag : Kind → UInt8
  | quit => 1
  | hello => 2
  | ping => 3
  | pong => 4
  | keyExchange => 5
  | keyExchangeReply => 6
  | auth => 7
  | authResult => 8
  | subscribe => 9
  | unsubscribe => 10
  | newVersion => 11
  | requestChunk => 12
  | fileChunk => 13
  | commit => 14
  | nack => 15

def ofTag? : UInt8 → Option Kind
  | 1 => some quit
  | 2 => some hello
  | 3 => some ping
  | 4 => some pong
  | 5 => some keyExchange
  | 6 => some keyExchangeReply
  | 7 => some auth
  | 8 => some authResult
  | 9 => some subscribe
  | 10 => some unsubscribe
  | 11 => some newVersion
  | 12 => some requestChunk
  | 13 => some fileChunk
  | 14 => some commit
  | 15 => some nack
  | _ => none

def name : Kind → String
  | quit => "Quit"
  | hello => "Hello"
  | ping => "Ping"
  | pong => "Pong"
  | keyExchange => "KeyExchange"
  | keyExchangeReply => "KeyExchangeReply"
  | auth => "Auth"
  | authResult => "AuthResult"
  | subscribe => "Subscribe"
  | unsubscribe => "Unsubscribe"
  | newVersion => "NewVersion"
  | requestChunk => "RequestChunk"
  | fileChunk => "FileChunk"
  | commit => "Commit"
  | nack => "Nack"

/-- Kinds that read or change the tree, or ask to hear of its changes. A node that requires
    authentication refuses them until the peer has authenticated. -/
def needsAuth : Kind → Bool
  | subscribe | unsubscribe | newVersion | requestChunk | fileChunk | commit => true
  | _ => false

theorem ofTag?_tag (k : Kind) : ofTag? k.tag = some k := by cases k <;> rfl

theorem tag_of_ofTag? {b : UInt8} {k : Kind} (h : ofTag? b = some k) : k.tag = b := by
  unfold ofTag? at h
  split at h <;> cases h <;> rfl

end Kind

/-- Why a node refuses a message. -/
inductive NackCode
  | stale
  | locked
  | unauthenticated
  | versionMismatch
  | busy
  | internal
  deriving DecidableEq, Repr

namespace NackCode

def code : NackCode → UInt16
  | stale => 1
  | locked => 2
  | unauthenticated => 3
  | versionMismatch => 4
  | busy => 5
  | internal => 6

def ofCode? : UInt16 → Option NackCode
  | 1 => some stale
  | 2 => some locked
  | 3 => some unauthenticated
  | 4 => some versionMismatch
  | 5 => some busy
  | 6 => some internal
  | _ => none

def name : NackCode → String
  | stale => "Stale"
  | locked => "Locked"
  | unauthenticated => "Unauthenticated"
  | versionMismatch => "VersionMismatch"
  | busy => "Busy"
  | internal => "Internal"

theorem ofCode?_code (c : NackCode) : ofCode? c.code = some c := by cases c <;> rfl

theorem code_of_ofCode? {n : UInt16} {c : NackCode} (h : ofCode? n = some c) : c.code = n := by
  unfold ofCode? at h
  split at h <;> cases h <;> rfl

end NackCode

/-! ### Protocol versions -/

/-- The protocol version that this library speaks. -/
def protocolVersion : UInt16 := 1

/-- The oldest and the newest version that it accepts from a peer. -/
def oldestVersion : UInt16 := 1
def newestVersion : UInt16 := 1

inductive Negotiation
  | supported (version : UInt16)
  | tooOld (version oldest : UInt16)
  | tooNew (version newest : UInt16)
  deriving DecidableEq, Repr

/-- Whether a peer that speaks `version` can be served. -/
def negotiate (version : UInt16) : Negotiation :=
  if version < oldestVersion then .tooOld version oldestVersion
  else if version > newestVersion then .tooNew version newestVersion
  else .supported version

end TreeReplica
