import TreeReplica.Crypto
import TreeReplica.Wire.Frame

/-!
A client: it sends one message at a time and takes the next message of the peer's stream as the answer. -/

namespace TreeReplica

structure Client where
  /-- The peer's stream, as far as it is not read; it ends with these bytes. -/
  incoming : Bytes
  /-- What was sent, in order. -/
  sent : List Message
  /-- The longest payload that is accepted. -/
  limit : UInt64
  deriving Repr

namespace Client

/-- A client of a peer that sends these bytes and then ends its stream. -/
def connect (incoming : Bytes) (limit : UInt64) : Client := ⟨incoming, [], limit⟩

def send (m : Message) (c : Client) : Client := { c with sent := c.sent ++ [m] }

def receive (c : Client) : Except Fault Message × Client :=
  let (answer, rest) := Frame.read c.limit c.incoming
  (answer, { c with incoming := rest })

def request (m : Message) (c : Client) : Except Fault Message × Client := (c.send m).receive

/-- The failure when another message comes than the one that must answer. -/
def unexpected (wanted : Kind) (got : Message) : Fault :=
  match got with
  | .nack ⟨.stale, _, text⟩ => .stale (.described text)
  | .nack n => .malformed (.refused wanted n.code n.text)
  | m => .malformed (.unexpected wanted m.kind)

/-- Asks for the peer's protocol version. -/
def hello (c : Client) : Except Fault UInt16 × Client :=
  match c.request (.hello protocolVersion) with
  | (.error e, c) => (.error e, c)
  | (.ok (.hello version), c) => (.ok version, c)
  | (.ok m, c) => (.error (unexpected .hello m), c)

/-- Asks for a sign of life; it must carry the same number. -/
def ping (nonce : UInt64) (c : Client) : Except Fault Unit × Client :=
  match c.request (.ping nonce) with
  | (.error e, c) => (.error e, c)
  | (.ok m, c) => if m = .pong nonce then (.ok (), c) else (.error (unexpected .pong m), c)

/-- Swaps public keys: the peer's key. -/
def exchangeKeys (crypto : Crypto) (c : Client) : Except Fault Bytes × Client :=
  match c.request (.keyExchange crypto.publicKey) with
  | (.error e, c) => (.error e, c)
  | (.ok (.keyExchangeReply key), c) => (.ok key, c)
  | (.ok m, c) => (.error (unexpected .keyExchangeReply m), c)

/-- Proves a name to the peer: whether it was accepted. Nothing is sent without a key to prove it
    with. -/
def authenticate (crypto : Crypto) (key : Bytes) (peer : String) (c : Client) :
    Except Fault Bool × Client :=
  match crypto.encrypt (Bytes.ofText peer) key with
  | .error e => (.error e, c)
  | .ok proof =>
    match c.request (.auth peer proof) with
    | (.error e, c) => (.error e, c)
    | (.ok (.authResult accepted), c) => (.ok accepted, c)
    | (.ok m, c) => (.error (unexpected .authResult m), c)

def quit (c : Client) : Client := c.send .quit

end Client

end TreeReplica
