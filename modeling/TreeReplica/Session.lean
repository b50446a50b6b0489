import TreeReplica.Config
import TreeReplica.Crypto
import TreeReplica.Notice.Subscription
import TreeReplica.Replication

/-!
Sessions: what a node keeps about one connection, and how it answers messages. A failure that concerns
one message only becomes a refusal for the peer; `Session.answer` fails only where the connection
must end. -/

namespace TreeReplica

structure Session where
  peerKey : Option Bytes
  peerName : Option String
  authenticated : Bool
  /-- What the peer subscribed to, in order and without repetition. -/
  subscriptions : List String
  transfers : Transfers
  deriving Repr

/-- What does not change while a node runs. -/
structure Setup where
  config : Config
  crypto : Crypto

/-- The answer to one message. -/
structure Answer where
  replies : List Message
  /-- Whether the connection ends after the replies. -/
  ends : Bool
  deriving DecidableEq, Repr

namespace Answer

def silent : Answer := ⟨[], false⟩

def reply (m : Message) : Answer := ⟨[m], false⟩

def all (ms : List Message) : Answer := ⟨ms, false⟩

end Answer

namespace Setup

def store (s : Setup) : Store := ⟨s.config.dataDir⟩

end Setup

/-- The refusal that reports a failure which concerns one message only. -/
def Fault.nack (e : Fault) (path : String) : Nack :=
  let code :=
    match e with
    | .stale _ => .stale
    | .recordLocked _ => .locked
    | _ => NackCode.internal
  .fitted code path e.message

namespace Session

def new : Session := ⟨none, none, false, [], .empty⟩

instance : Inhabited Session := ⟨new⟩

def subscribed (s : Session) (path : String) : Bool := s.subscriptions.any (Subscription.covers · path)

/-- Answers a peer's opening message. -/
def hello (version : UInt16) : Answer :=
  match negotiate version with
  | .supported _ => .reply (.hello protocolVersion)
  | _ => ⟨[.nack (.fitted .versionMismatch "" s!"unsupported protocol version {version}")], true⟩

/-- Whether a peer's proof is its own name, encrypted for this node, and the name is allowed. -/
def accepts (u : Setup) (peer : String) (proof : Bytes) : Bool :=
  match u.crypto.decrypt proof with
  | .ok plain => plain = Bytes.ofText peer && u.config.allows peer
  | .error _ => false

def authenticate (s : Session) (accepted : Bool) (peer : String) : Session :=
  { s with authenticated := accepted, peerName := if accepted then some peer else s.peerName }

/-- Subscribes to everything below a path, or to everything. -/
def subscribe (u : Setup) (path : String) (s : Session) : Except Fault Answer × Session :=
  let subscribed := { s with subscriptions := Subscription.add path s.subscriptions }
  if path = "" then (.ok .silent, subscribed)
  else
    match u.store.resolve path with
    | .error e => (.error e, s)
    | .ok _ => (.ok .silent, subscribed)

theorem transfers_subscribe (u : Setup) (path : String) (s : Session) :
    (subscribe u path s).2.transfers = s.transfers := by
  unfold subscribe
  dsimp only
  split
  · rfl
  · split <;> rfl

def handle (u : Setup) (m : Message) (s : Session) (v : Volume) :
    Except Fault Answer × Session × Volume :=
  match m with
  | .quit => (.ok ⟨[], true⟩, s, v)
  | .hello version => (.ok (hello version), s, v)
  | .ping nonce => (.ok (.reply (.pong nonce)), s, v)
  | .keyExchange key =>
    (.ok (.reply (.keyExchangeReply u.crypto.publicKey)), { s with peerKey := some key }, v)
  | .auth peer proof =>
    let accepted := accepts u peer proof
    (.ok (.reply (.authResult accepted)), s.authenticate accepted peer, v)
  | .subscribe path =>
    let (answer, s) := subscribe u path s
    (answer, s, v)
  | .unsubscribe path =>
    (.ok .silent, { s with subscriptions := s.subscriptions.filter (· ≠ path) }, v)
  | .newVersion notice =>
    let (answer, ts, v) := u.store.announced u.config.chunkSize notice s.transfers v
    (answer.map .all, { s with transfers := ts }, v)
  | .requestChunk request =>
    let (answer, v) := u.store.serveChunk u.config.chunkSize request v
    (answer.map .reply, s, v)
  | .fileChunk chunk =>
    let (answer, ts, v) := u.store.receiveChunk chunk s.transfers v
    (answer.map .all, { s with transfers := ts }, v)
  | .commit path commit =>
    let (answer, v) := u.store.committed path commit v
    (answer.map fun _ => .silent, s, v)
  | .nack nack =>
    let (ts, v) := s.transfers.drop nack.path v
    (.ok .silent, { s with transfers := ts }, v)
  | .pong _ | .keyExchangeReply _ | .authResult _ => (.ok .silent, s, v)

/-- Whether a message has to wait until the peer has authenticated. -/
def gated (u : Setup) (m : Message) (s : Session) : Bool :=
  u.config.requireAuth && !s.authenticated && m.kind.needsAuth

def answer (u : Setup) (m : Message) (s : Session) (v : Volume) :
    Except Fault Answer × Session × Volume :=
  let path := m.path?.getD ""
  if gated u m s then (.ok (.reply (.nack (.fitted .unauthenticated path "authenticate first"))), s, v)
  else
    match handle u m s v with
    | (.ok answer, s, v) => (.ok answer, s, v)
    | (.error e, s, v) => (if e.fatal then .error e else .ok (.reply (.nack (e.nack path))), s, v)

/-- What a session sends of a notice: the notice, if the peer may hear of its path and wants to. -/
def forward (u : Setup) (notice : NewVersion) (s : Session) : Answer :=
  if u.config.requireAuth && !s.authenticated then .silent
  else if s.subscribed notice.path then .reply (.newVersion notice)
  else .silent

/-- Ends a session: its transfers go. -/
def close (s : Session) (v : Volume) : Volume := s.transfers.abandonAll v

end Session

end TreeReplica
