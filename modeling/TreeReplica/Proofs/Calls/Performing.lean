import TreeReplica.Client
import TreeReplica.Proofs.Stream
import TreeReplica.Session

/-! The calls of a client, and what it makes of the stream that comes back. It takes the next message of its
    peer's stream for the answer to its call, whatever it is: the calls that are owed answers take the
    messages one after the other (`Client.perform_takes`), and what they send does not hang on what comes
    back (`Client.perform_sends`). -/

namespace TreeReplica

/-! ### Calls -/

/-- What a client does: it subscribes, or it calls and waits for an answer. -/
inductive Call
  | subscribe (path : String)
  | hello
  | ping (nonce : UInt64)
  | exchangeKeys
  | authenticate (key : Bytes) (peer : String)
  deriving DecidableEq, Repr

/-- What a call returns. -/
inductive Call.Result
  | sent
  | version (version : UInt16)
  | alive
  | key (publicKey : Bytes)
  | accepted (accepted : Bool)
  deriving DecidableEq, Repr

/-- What a session answers to the messages of calls. -/
def Message.owed? (u : Setup) : Message → Option Message
  | .hello _ => some (.hello protocolVersion)
  | .ping nonce => some (.pong nonce)
  | .keyExchange _ => some (.keyExchangeReply u.crypto.publicKey)
  | .auth peer proof => some (.authResult (Session.accepts u peer proof))
  | _ => none

/-- Notices, and refusals of subscriptions, answer no call. -/
def Message.unasked (m : Message) : Bool := m.kind = .newVersion || m.kind = .nack

namespace Call

/-- The message of a call; there is none without a key to prove a name with. -/
def message? (k : Crypto) : Call → Option Message
  | subscribe path => some (.subscribe path)
  | hello => some (.hello protocolVersion)
  | ping nonce => some (.ping nonce)
  | exchangeKeys => some (.keyExchange k.publicKey)
  | authenticate key peer => (k.encrypt (Bytes.ofText peer) key).toOption.map (.auth peer)

/-- The answer to a call, of a session that gets its message. -/
def owed? (u : Setup) (k : Crypto) (call : Call) : Option Message := (call.message? k).bind (·.fitted.owed? u)

/-- What a call makes of the message that it takes for its answer. -/
def judge : Call → Message → Except Fault Result
  | subscribe _, _ => .ok .sent
  | hello, .hello version => .ok (.version version)
  | hello, m => .error (Client.unexpected .hello m)
  | ping nonce, m => if m = .pong nonce then .ok .alive else .error (Client.unexpected .pong m)
  | exchangeKeys, .keyExchangeReply publicKey => .ok (.key publicKey)
  | exchangeKeys, m => .error (Client.unexpected .keyExchangeReply m)
  | authenticate _ _, .authResult accepted => .ok (.accepted accepted)
  | authenticate _ _, m => .error (Client.unexpected .authResult m)

section Owed
variable {u : Setup} {k : Crypto} {call : Call} {m answer : Message}

/-- A call accepts the answer that it is owed, which travels as it is, and fails on a notice. -/
theorem judge_owed (h : call.owed? u k = some answer) :
    answer.fitted = answer ∧ (∃ result, call.judge answer = .ok result) ∧
      ∀ notice, call.judge (.newVersion notice) = .error (.malformed (.unexpected answer.kind .newVersion)) := by
  cases call with
  | subscribe path => cases h
  | authenticate key peer =>
    obtain ⟨message, hm, h⟩ := Option.bind_eq_some_iff.mp h
    obtain ⟨proof, -, rfl⟩ := Option.map_eq_some_iff.mp hm
    cases h
    exact ⟨rfl, ⟨_, rfl⟩, fun _ => rfl⟩
  | ping nonce =>
    cases h
    exact ⟨rfl, ⟨_, if_pos rfl⟩, fun _ => rfl⟩
  | _ =>
    cases h
    exact ⟨rfl, ⟨_, rfl⟩, fun _ => rfl⟩

end Owed

end Call

/-! ### The client -/

/-- A frame carries this message, and a receiver with this limit takes it. -/
def Message.Fits (limit : UInt64) (m : Message) : Prop :=
  (∀ blob ∈ m.blobs, blob.length < UInt32.size) ∧ m.encode.length ≤ limit.toNat

instance (limit : UInt64) (m : Message) : Decidable (m.Fits limit) := inferInstanceAs (Decidable (_ ∧ _))

namespace Client

def call (k : Crypto) (call : Call) (c : Client) : Except Fault Call.Result × Client :=
  match call with
  | .subscribe path => (.ok .sent, c.send (.subscribe path))
  | .hello => let (answer, c) := c.hello; (answer.map .version, c)
  | .ping nonce => let (answer, c) := c.ping nonce; (answer.map fun _ => .alive, c)
  | .exchangeKeys => let (answer, c) := c.exchangeKeys k; (answer.map .key, c)
  | .authenticate key peer => let (answer, c) := c.authenticate k key peer; (answer.map .accepted, c)

/-- Calls one after the other. A call that fails ends nothing. -/
def perform (k : Crypto) (calls : List Call) (c : Client) : List (Except Fault Call.Result) × Client :=
  match calls with
  | [] => ([], c)
  | call :: calls =>
    let (result, c) := c.call k call
    let (results, c) := perform k calls c
    (result :: results, c)

section Perform
variable {u : Setup} {k : Crypto} {calls : List Call} {c : Client} {stream : List Message} {m answer : Message}

theorem receive_encodeAll (hin : c.incoming = Frame.encodeAll (m :: stream)) (fits : m.Fits c.limit) :
    c.receive = (.ok m.fitted, { c with incoming := Frame.encodeAll stream }) := by
  have hsize : m.encode.length < UInt64.size := Nat.lt_of_le_of_lt fits.2 c.limit.toNat_lt_size
  have htake := Frame.take_encode fits.1 hsize c.limit (Frame.encodeAll stream)
  rw [if_pos fits.2] at htake
  have hread := Frame.read_of_frame htake
  have hcons : Frame.encodeAll (m :: stream) = Frame.encode m ++ Frame.encodeAll stream := rfl
  rw [receive, hin, hcons, hread]

/-- A subscription is sent, a call without a message fails, and any other call judges what comes back for its
    message. -/
theorem call_cases (k : Crypto) (call : Call) (c : Client) :
    (∃ path, call = .subscribe path ∧ c.call k call = (.ok .sent, c.send (.subscribe path))) ∨
      (call.message? k = none ∧ ∃ e, c.call k call = (.error e, c)) ∨
      ∃ message, call.message? k = some message ∧ (∀ u, (message.fitted.owed? u).isSome) ∧
        c.call k call = ((c.request message).1.bind call.judge, (c.request message).2) := by
  cases call with
  | subscribe path => exact Or.inl ⟨path, rfl, rfl⟩
  | hello =>
    refine Or.inr (Or.inr ⟨_, rfl, fun _ => rfl, ?_⟩)
    dsimp only [Client.call, hello]
    rcases c.request (.hello protocolVersion) with ⟨e | got, c'⟩
    · rfl
    · cases got <;> rfl
  | ping nonce =>
    refine Or.inr (Or.inr ⟨_, rfl, fun _ => rfl, ?_⟩)
    dsimp only [Client.call, ping]
    rcases c.request (.ping nonce) with ⟨e | got, c'⟩
    · rfl
    · dsimp only [Except.bind, Call.judge]
      split <;> rfl
  | exchangeKeys =>
    refine Or.inr (Or.inr ⟨_, rfl, fun _ => rfl, ?_⟩)
    dsimp only [Client.call, exchangeKeys]
    rcases c.request (.keyExchange k.publicKey) with ⟨e | got, c'⟩
    · rfl
    · cases got <;> rfl
  | authenticate key peer =>
    dsimp only [Client.call, authenticate, Call.message?]
    cases k.encrypt (Bytes.ofText peer) key with
    | error e => exact Or.inr (Or.inl ⟨rfl, e, rfl⟩)
    | ok proof =>
      refine Or.inr (Or.inr ⟨_, rfl, fun _ => rfl, ?_⟩)
      dsimp only
      rcases c.request (.auth peer proof) with ⟨e | got, c'⟩
      · rfl
      · cases got <;> rfl

/-- A call that is owed an answer takes the next message for it, and any other takes none. -/
theorem call_takes (call : Call) (hin : c.incoming = Frame.encodeAll stream) (fits : ∀ m ∈ stream, m.Fits c.limit) :
    (call.owed? u k = none ∧ (c.call k call).2.incoming = Frame.encodeAll stream) ∨
      ((call.owed? u k).isSome ∧ ∀ m rest, stream = m :: rest →
        (c.call k call).1 = call.judge m.fitted ∧ (c.call k call).2.incoming = Frame.encodeAll rest) := by
  rcases call_cases k call c with ⟨path, rfl, h⟩ | ⟨hm, e, h⟩ | ⟨message, hm, ho, h⟩ <;> rw [h]
  · exact Or.inl ⟨rfl, hin⟩
  · exact Or.inl ⟨by rw [Call.owed?, hm, Option.bind_none], hin⟩
  · refine Or.inr ⟨by rw [Call.owed?, hm]; exact ho u, ?_⟩
    rintro m rest rfl
    have got : c.request message = _ := receive_encodeAll (c := c.send message) hin (fits m List.mem_cons_self)
    rw [got]
    exact ⟨rfl, rfl⟩

/-- Every call that has a message sends it, whatever comes back. -/
theorem call_sends (k : Crypto) (call : Call) (c : Client) :
    (c.call k call).2.sent = c.sent ++ (call.message? k).toList ∧ (c.call k call).2.limit = c.limit := by
  rcases call_cases k call c with ⟨path, rfl, h⟩ | ⟨hm, e, h⟩ | ⟨message, hm, -, h⟩ <;> rw [h]
  · exact ⟨rfl, rfl⟩
  · rw [hm]
    exact ⟨(List.append_nil _).symm, rfl⟩
  · rw [hm]
    exact ⟨rfl, rfl⟩

theorem perform_sends (k : Crypto) (calls : List Call) (c : Client) :
    (c.perform k calls).2.sent = c.sent ++ calls.filterMap (·.message? k) := by
  induction calls generalizing c with
  | nil => exact (List.append_nil _).symm
  | cons call calls ih =>
    show ((c.call k call).2.perform k calls).2.sent = _
    rw [ih, (call_sends k call c).1, List.append_assoc, List.filterMap_cons]
    cases call.message? k <;> rfl

/-- The calls that are owed answers take the messages of the stream, one after the other. -/
theorem perform_takes (hin : c.incoming = Frame.encodeAll stream) (fits : ∀ m ∈ stream, m.Fits c.limit)
    {p : Nat} {call : Call} (hp : calls[p]? = some call) (ho : (call.owed? u k).isSome)
    (hm : stream[((calls.take p).filterMap (·.owed? u k)).length]? = some m) :
    (c.perform k calls).1[p]? = some (call.judge m.fitted) := by
  induction calls generalizing c stream p with
  | nil => cases hp
  | cons first calls ih =>
    have takes := call_takes (u := u) (k := k) first hin fits
    cases p with
    | zero =>
      cases hp
      rcases takes with ⟨hnone, -⟩ | ⟨-, takes⟩
      · rw [hnone] at ho
        cases ho
      · obtain ⟨rest, rfl⟩ : ∃ rest, stream = m :: rest := by
          cases stream with
          | nil => cases hm
          | cons m' rest => exact ⟨rest, by rw [Option.some.inj hm]⟩
        exact congrArg some (takes m rest rfl).1
    | succ p =>
      show ((c.call k first).2.perform k calls).1[p]? = _
      rw [List.take_succ_cons, List.filterMap_cons] at hm
      rcases takes with ⟨hnone, hin'⟩ | ⟨hsome, takes⟩
      · rw [hnone] at hm
        exact ih hin' (by rwa [(call_sends k first c).2]) hp hm
      · obtain ⟨answer, hanswer⟩ := Option.isSome_iff_exists.mp hsome
        rw [hanswer] at hm
        cases stream with
        | nil => cases hm
        | cons m' rest =>
          refine ih (takes m' rest rfl).2 (fun m'' hm'' => ?_) hp hm
          rw [(call_sends k first c).2]
          exact fits m'' (List.mem_cons_of_mem _ hm'')

end Perform

end Client

end TreeReplica
