import TreeReplica.Record.Codec
import TreeReplica.Wire.Kind

/-!
What can go wrong. Each failure names its cause; `Fault.message` is the one place where causes
become text, and `Fault.category` decides how far a failure reaches: into the answer to one
message, or to the end of the connection. -/

namespace TreeReplica

/-- Why the operating system or the network refused an operation. -/
inductive IoCause
  | notFound
  | alreadyExists
  | noDevice
  | notDirectory
  | isDirectory
  | invalidArgument
  | notEmpty
  | busy
  | valueTooLarge
  | nameTooLong
  | addressInUse
  | addressUnavailable
  | networkUnreachable
  | connectionRefused
  /-- A path or the name of a host holds the character NUL. -/
  | nulInPath
  /-- A file would be longer than a signed 64-bit length can say. -/
  | lengthOverflow
  | invalidAddress
  | invalidServiceNumber
  /-- A text names no host. -/
  | unknownHost
  /-- Nobody could be asked for a host. -/
  | unresolvedHost
  /-- The path has neither a file nor a version record. -/
  | notTracked
  | record (fault : RecordFault)
  /-- The failure concerns a path that the caller did not name; the text is quoted already. -/
  | atPath (cause : IoCause) (quoted : String)
  | described (text : String)
  deriving DecidableEq, Repr

namespace IoCause

/-- A failure that the system reports by number. -/
private def numbered (text : String) (number : Nat) : String := s!"{text} (os error {number})"

def message : IoCause → String
  | notFound => numbered "No such file or directory" 2
  | busy => numbered "Device or resource busy" 16
  | alreadyExists => numbered "File exists" 17
  | noDevice => numbered "No such device" 19
  | notDirectory => numbered "Not a directory" 20
  | isDirectory => numbered "Is a directory" 21
  | invalidArgument => numbered "Invalid argument" 22
  | nameTooLong => numbered "File name too long" 36
  | notEmpty => numbered "Directory not empty" 39
  | valueTooLarge => numbered "Value too large for defined data type" 75
  | addressInUse => numbered "Address already in use" 98
  | addressUnavailable => numbered "Cannot assign requested address" 99
  | networkUnreachable => numbered "Network is unreachable" 101
  | connectionRefused => numbered "Connection refused" 111
  | nulInPath => "file name contained an unexpected NUL byte"
  | lengthOverflow => "number too large to fit in target type"
  | invalidAddress => "invalid socket address"
  | invalidServiceNumber => "invalid port value"
  | unknownHost => "failed to lookup address information: Name or service not known"
  | unresolvedHost => "failed to lookup address information: Temporary failure in name resolution"
  | notTracked => "not tracked"
  | record fault => fault.message
  | atPath cause quoted => s!"{cause.message} at path {quoted}"
  | described text => text

end IoCause

/-- The part of a payload that a failed read was after: a kind's fixed fields, or one named field. -/
structure Field where
  kind : Kind
  part : Option String
  deriving DecidableEq, Repr

namespace Field

def name (f : Field) : String :=
  match f.part with
  | none => f.kind.name
  | some part => s!"{f.kind.name} {part}"

end Field

/-- Why bytes or messages do not follow the protocol. -/
inductive Malformation
  | lengthTooLong
  | lengthOverflow
  | emptyPayload
  | truncated (field : Field) (need got : Nat)
  | invalidText (field : Field)
  | unknownNackCode (code : Nat)
  | trailing (kind : Kind) (count : Nat)
  /-- A chunk reaches past the end of the file that was announced. -/
  | chunkPastEnd (start stop size : Nat) (path : String)
  /-- A peer refused a request that must be answered with `wanted`. -/
  | refused (wanted : Kind) (code : NackCode) (text : String)
  /-- A peer answered with another kind than `wanted`. -/
  | unexpected (wanted got : Kind)
  | described (text : String)
  deriving DecidableEq, Repr

namespace Malformation

def message : Malformation → String
  | lengthTooLong => "length prefix too long"
  | lengthOverflow => "length prefix overflows u64"
  | emptyPayload => "empty payload"
  | truncated field need got => s!"{field.name} truncated: need {need} bytes, have {got}"
  | invalidText field => s!"invalid UTF-8 in {field.name}"
  | unknownNackCode code => s!"unknown Nack code {code}"
  | trailing kind count => s!"{kind.name} has {count} trailing bytes"
  | chunkPastEnd start stop size path => s!"chunk {start}..{stop} past announced size {size} of {path}"
  | refused wanted code text => s!"expected {wanted.name}, server sent {code.name} nack: {text}"
  | unexpected wanted got => s!"expected {wanted.name}, got {got.name}"
  | described text => text

end Malformation

/-- Why a message no longer fits the state that it meets. -/
inductive Staleness
  | announced (path : String) (remote base : UInt64)
  | unsolicited (path : String)
  | otherVersion (path : String) (got expected : UInt64)
  | changed (path : String) (record : Record)
  | unneeded (path : String) (remote : UInt64) (record : Record)
  | rejected (path : String) (rejection : Rejection)
  | described (text : String)
  deriving DecidableEq, Repr

namespace Staleness

def message : Staleness → String
  | announced path remote base => s!"{path} announced at base {remote}, record is at {base}"
  | unsolicited path => s!"unsolicited chunk for {path}"
  | otherVersion path got expected =>
    s!"chunk for {path} at client version {got}, transfer expects {expected}"
  | changed path record => s!"{path} changed during transfer ({record.text})"
  | unneeded path remote record => s!"{path} no longer needs version {remote} ({record.text})"
  | rejected path rejection => s!"{path}: {rejection.message}"
  | described text => text

end Staleness

/-- Why a text does not name a tracked path. -/
inductive PathFault
  | empty
  | tooLong (size limit : Nat)
  | absolute (path : String)
  | traversal (path : String)
  | noFileName (path : String)
  | reserved (path : String)
  | described (text : String)
  deriving DecidableEq, Repr

namespace PathFault

def message : PathFault → String
  | empty => "empty path not allowed"
  | tooLong size limit => s!"path of {size} bytes exceeds {limit}"
  | absolute path => s!"absolute paths not allowed: {path}"
  | traversal path => s!"path traversal not allowed: {path}"
  | noFileName path => s!"no file name: {path}"
  | reserved path => s!"reserved file name: {path}"
  | described text => text

end PathFault

/-- Why a configuration is refused. -/
inductive ConfigFault
  /-- The text is not a configuration: bad syntax, an unknown key, a value of the wrong type. -/
  | unreadable
  | noConnections
  | noChunkSize
  | chunkTooLarge (chunkSize : UInt32) (maxMessageSize : UInt64)
  | missing (path : String) (cause : IoCause)
  | cannotListen (address : String) (cause : IoCause)
  | described (text : String)
  deriving DecidableEq, Repr

namespace ConfigFault

def message : ConfigFault → String
  | unreadable => "unreadable configuration"
  | noConnections => "max_connections must be > 0"
  | noChunkSize => "chunk_size must be > 0"
  | chunkTooLarge chunkSize maxMessageSize =>
    s!"chunk_size {chunkSize} does not fit in max_message_size {maxMessageSize}"
  | missing path cause => s!"cannot read {path}: {cause.message}"
  | cannotListen address cause => s!"cannot listen on {address}: {cause.message}"
  | described text => text

end ConfigFault

inductive CryptoFault
  | noPeerKey
  | described (text : String)
  deriving DecidableEq, Repr

namespace CryptoFault

def message : CryptoFault → String
  | noPeerKey => "no peer public key"
  | described text => text

end CryptoFault

/-- How far a failure reaches. -/
inductive Category
  | protocol
  | metadata
  | stale
  | resourceExhaustion
  | io
  | localUse
  deriving DecidableEq, Repr

inductive Fault
  | invalidKind (tag : UInt8)
  | tooLarge (size limit : UInt64)
  | connectionClosed
  | malformed (why : Malformation)
  | recordLocked (path : String)
  | recordIo (path : String) (cause : IoCause)
  | chunkRead (path : String) (cause : IoCause)
  | stale (why : Staleness)
  | poolExhausted
  | invalidPath (why : PathFault)
  | crypto (why : CryptoFault)
  | config (why : ConfigFault)
  | io (cause : IoCause)
  deriving DecidableEq, Repr

namespace Fault

/-- Two hexadecimal digits. -/
private def hexByte (b : UInt8) : String :=
  String.ofList [Nat.digitChar (b.toNat / 16), Nat.digitChar (b.toNat % 16)]

def message : Fault → String
  | invalidKind tag => s!"invalid message kind: 0x{hexByte tag}"
  | tooLarge size limit => s!"message size {size} exceeds maximum {limit}"
  | connectionClosed => "connection closed"
  | malformed why => s!"malformed message: {why.message}"
  | recordLocked path => s!"version record is locked: {path}"
  | recordIo path cause => s!"version record I/O failed for {path}: {cause.message}"
  | chunkRead path cause => s!"failed to read chunk from {path}: {cause.message}"
  | stale why => s!"stale message: {why.message}"
  | poolExhausted => "worker pool exhausted"
  | invalidPath why => s!"invalid path: {why.message}"
  | crypto why => s!"crypto provider error: {why.message}"
  | config why => s!"configuration error: {why.message}"
  | io cause => cause.message

/-- The failure below this one, for reports that list causes one by one. -/
def cause? : Fault → Option IoCause
  | recordIo _ cause | chunkRead _ cause => some cause
  | _ => none

def category : Fault → Category
  | invalidKind _ | tooLarge _ _ | malformed _ => .protocol
  | recordLocked _ | recordIo _ _ | chunkRead _ _ => .metadata
  | stale _ => .stale
  | poolExhausted => .resourceExhaustion
  | connectionClosed | io _ => .io
  | invalidPath _ | crypto _ | config _ => .localUse

/-- After a broken frame or a failed stream nothing that follows on the connection can be trusted. -/
def fatal (e : Fault) : Bool :=
  match e.category with
  | .protocol | .io => true
  | _ => false

end Fault

end TreeReplica
