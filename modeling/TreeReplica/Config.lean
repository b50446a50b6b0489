import TreeReplica.Config.Toml
import TreeReplica.Path

/-!
Configurations. Every setting has a default, so that an empty document configures a node. -/

namespace TreeReplica

structure Config where
  /-- The root of the tree. -/
  dataDir : String
  listenAddress : String
  /-- How many connections are served at once. -/
  maxConnections : UInt64
  /-- The longest payload that is accepted. -/
  maxMessageSize : UInt64
  /-- How many bytes are asked for, and served, at once. -/
  chunkSize : UInt32
  /-- How long to wait for a lease; without a bound if there is none. -/
  lockTimeout : Option UInt64
  requireAuth : Bool
  /-- The peers that may authenticate; all if the list is empty. -/
  allowedPeers : List String
  deriving DecidableEq, Repr

namespace Config

def default : Config where
  dataDir := "."
  listenAddress := "127.0.0.1:7420"
  maxConnections := 10
  maxMessageSize := 67108864
  chunkSize := 262144
  lockTimeout := none
  requireAuth := false
  allowedPeers := []

instance : Inhabited Config := ⟨default⟩

/-- What a chunk message may need besides its data. -/
def headroom : Nat := 1024

/-- Why a configuration cannot be served, if it cannot. A whole chunk must fit into one message. -/
def fault? (c : Config) : Option ConfigFault :=
  if c.maxConnections = 0 then some .noConnections
  else if c.chunkSize = 0 then some .noChunkSize
  else if c.chunkSize.toNat + headroom > c.maxMessageSize.toNat then
    some (.chunkTooLarge c.chunkSize c.maxMessageSize)
  else none

def validate (c : Config) : Except Fault Unit :=
  match c.fault? with
  | some fault => .error (.config fault)
  | none => .ok ()

def allows (c : Config) (peer : String) : Bool := c.allowedPeers.isEmpty || c.allowedPeers.contains peer

/-! ### Reading -/

/-- A leading `~` stands for the home directory. -/
def expandHome (home : String) (path : String) : String :=
  match path.toList with
  | ['~'] => home
  | '~' :: '/' :: rest => Path.join home (.ofList rest)
  | _ => path

def bounded? (limit : Nat) (n : Int) : Option Nat := if 0 ≤ n ∧ n ≤ limit then some n.toNat else none

/-- The configuration with one setting changed; none if there is no such setting of that type. -/
def set? (c : Config) (name : String) (value : Toml.Value) : Option Config :=
  match name, value with
  | "data_dir", .text s => some { c with dataDir := s }
  | "listen_addr", .text s => some { c with listenAddress := s }
  | "max_connections", .number n =>
    (bounded? (UInt64.size - 1) n).map fun n => { c with maxConnections := .ofNat n }
  | "max_message_size", .number n =>
    (bounded? (UInt64.size - 1) n).map fun n => { c with maxMessageSize := .ofNat n }
  | "chunk_size", .number n => (bounded? (UInt32.size - 1) n).map fun n => { c with chunkSize := .ofNat n }
  | "lock_timeout_ms", .number n =>
    (bounded? (UInt64.size - 1) n).map fun n => { c with lockTimeout := some (.ofNat n) }
  | "require_auth", .flag b => some { c with requireAuth := b }
  | "allowed_peers", .list peers => some { c with allowedPeers := peers }
  | _, _ => none

def read (home : String) (document : String) : Except Fault Config :=
  match Toml.parse document with
  | none => .error (.config .unreadable)
  | some settings =>
    match settings.foldlM (fun c (name, value) => c.set? name value) default with
    | none => .error (.config .unreadable)
    | some c =>
      let c := { c with dataDir := expandHome home c.dataDir }
      match c.validate with
      | .error e => .error e
      | .ok () => .ok c

end Config

end TreeReplica
