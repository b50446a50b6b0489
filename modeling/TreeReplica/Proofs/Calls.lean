import TreeReplica.Proofs.Calls.Performing
import TreeReplica.Proofs.Connection
import TreeReplica.Proofs.History

/-! What the calls of a client get. The answers come in the order of the calls, but in between the peer also
    sends the notices that the client subscribed to (`Message.unasked`). So a call gets its own answer as long
    as nothing unasked was sent before. From then on answers come too late, by as many calls as there were
    such messages (`Talk.calls_answered`). -/

namespace TreeReplica
open Connection

/-! ### The connection -/

/-- The messages of calls. -/
def Message.ofCall : Message → Bool
  | .hello version => version = protocolVersion
  | .ping _ | .keyExchange _ | .auth _ _ | .subscribe _ => true
  | _ => false

/-- A connection with what its client has sent and has not arrived yet. -/
structure Talk where
  coming : Bytes
  connection : Connection

namespace Talk

/-- The client sends the messages of all its calls. One that waits for every answer just sends some of them late. -/
def start (k : Crypto) (calls : List Call) : Talk := ⟨Frame.encodeAll (calls.filterMap (·.message? k)), .new⟩

/-- One move of the network or of one activity, or a local edit that publishes a notice. What the worker does
    may find any volume. -/
inductive Turn (u : Setup) (x : Talk) : Talk → Prop
  | arrive {bytes rest : Bytes} (coming : x.coming = bytes ++ rest) : Turn u x ⟨rest, x.connection.arrive bytes⟩
  | notice (n : NewVersion) : Turn u x { x with connection := x.connection.hear u n }
  | readFrame : Turn u x { x with connection := x.connection.readFrame u }
  | work (v : Volume) : Turn u x { x with connection := (x.connection.work u v).1 }
  | write : Turn u x { x with connection := x.connection.write }

abbrev Reaches (u : Setup) : Talk → Talk → Prop := Relation.ReflTransGen (Turn u)

/-- Everything has arrived, was answered and was sent. -/
structure Quiet (u : Setup) (x : Talk) : Prop where
  arrived : x.coming = []
  taken : x.connection.waiting u = true
  answered : x.connection.queue.items = []
  sent : x.connection.replies = []

/-- Of the messages of a client some were answered, some wait for the worker, and the rest has not been read. -/
structure Serves (u : Setup) (ms : List Message) (x : Talk) : Prop where
  reading : x.connection.reading = true
  producer : x.connection.queue.producer = true
  consumer : x.connection.queue.consumer = true
  session : x.connection.session.isSome
  shares : ∃ answered rest, ms = answered ++ x.connection.queued ++ rest ∧
    Frame.takeAll u.config.maxMessageSize (x.connection.buffer ++ x.coming) = (rest, none, []) ∧
    (x.connection.sent ++ x.connection.replies).filter (!·.unasked) = answered.filterMap (·.owed? u)

section Serves
variable {u : Setup} {k : Crypto} {calls : List Call} {ms : List Message} {x y : Talk} {m : Message}

theorem not_fatal_of_subscribe {path : String} {s : Session} {e : Fault}
    (h : (Session.subscribe u path s).1 = .error e) :
    e.fatal = false := by
  unfold Session.subscribe at h
  dsimp only at h
  split at h
  · cases h
  · split at h <;> cases h
    rename_i hr
    obtain ⟨why, rfl⟩ := Store.resolve_error hr
    rfl

/-- A session answers the message of a call with what it owes, and lets the connection go on. -/
theorem answer_ofCall (h : m.ofCall = true) (u : Setup) (s : Session) (v : Volume) :
    ∃ d s' w, s.answer u m v = (.ok d, s', w) ∧ d.ends = false ∧
    d.replies.filter (!·.unasked) = (m.owed? u).toList := by
  have free : m.kind.needsAuth = false → s.gated u m = false := fun hk => by rw [Session.gated, hk, Bool.and_false]
  cases m with
  | hello version =>
    obtain rfl : version = protocolVersion := of_decide_eq_true h
    exact ⟨_, _, _, by rw [Session.answer, free rfl]; rfl, rfl, rfl⟩
  | ping nonce => exact ⟨_, _, _, by rw [Session.answer, free rfl]; rfl, rfl, rfl⟩
  | keyExchange key => exact ⟨_, _, _, by rw [Session.answer, free rfl]; rfl, rfl, rfl⟩
  | auth peer proof => exact ⟨_, _, _, by rw [Session.answer, free rfl]; rfl, rfl, rfl⟩
  | subscribe path =>
    rcases s.answer_cases u (.subscribe path) v with
      ⟨-, nack, -, h⟩ | ⟨-, a, s', w, hh, ⟨d, rfl, h⟩ | ⟨e, d, rfl, h, told⟩⟩
    · exact ⟨_, _, _, h, rfl, rfl⟩
    · rw [Moment.silent_of_subscribe (congrArg Prod.fst hh)] at h
      exact ⟨_, _, _, h, rfl, rfl⟩
    · rcases told with ⟨hfatal, -⟩ | ⟨-, nack, -, rfl⟩
      · rw [not_fatal_of_subscribe (congrArg Prod.fst hh)] at hfatal
        cases hfatal
      · exact ⟨_, _, _, h, rfl, rfl⟩
  | _ => cases h

/-- So does the worker with any job that a client's messages and local edits make. -/
theorem answer_job {job : Job} (h : ∀ m, job = .inbound m → m.ofCall = true) (u : Setup)
    (s : Session) (v : Volume) :
    ∃ d s' w, Connection.answer u job s v = (.ok d, s', w) ∧ d.ends = false ∧
      d.replies.filter (!·.unasked) = match job with | .inbound m => (m.owed? u).toList | .notice _ => [] := by
  cases job with
  | inbound m => exact answer_ofCall (h m rfl) u s v
  | notice n =>
    refine ⟨_, s, v, rfl, ?_⟩
    unfold Session.forward
    split
    · exact ⟨rfl, rfl⟩
    · split <;> exact ⟨rfl, rfl⟩

theorem hand_of_consumer {c : Connection} (h : c.queue.consumer = true) (job : Job) :
    c.hand job = { c with queue := { c.queue with items := c.queue.items ++ [job] } } := by
  unfold hand Queue.enqueue
  rw [if_pos h]

theorem serves_start (sendable : ∀ m ∈ calls.filterMap (·.message? k), m.Fits u.config.maxMessageSize) :
    Serves u ((calls.filterMap (·.message? k)).map .fitted) (start k calls) where
  reading := rfl
  producer := rfl
  consumer := rfl
  session := rfl
  shares := by
    refine ⟨[], _, rfl, ?_, rfl⟩
    obtain ⟨⟨-, taken, -⟩, -⟩ :=
      Frame.messages_back (fun m hm => (sendable m hm).1) (fun m hm => (sendable m hm).2) []
    have nothing : Frame.takeAll u.config.maxMessageSize [] = ([], none, []) := Frame.takeAll_of_incomplete rfl
    rw [nothing, List.append_nil, List.append_nil] at taken
    exact taken

/-- A client's messages are all messages of calls. -/
theorem ofCall_of_mem (h : m ∈ (calls.filterMap (·.message? k)).map .fitted) : m.ofCall = true := by
  obtain ⟨message, hm, rfl⟩ := List.mem_map.mp h
  obtain ⟨call, -, hcall⟩ := List.mem_filterMap.mp hm
  cases call with
  | authenticate key peer =>
    obtain ⟨proof, -, rfl⟩ := Option.map_eq_some_iff.mp hcall
    rfl
  | _ =>
    cases hcall
    rfl

theorem Serves.turn (h : x.Serves u ms) (ofCalls : ∀ m ∈ ms, m.ofCall = true) (turn : x.Turn u y) :
    y.Serves u ms := by
  obtain ⟨reading, producer, consumer, session, answered, rest, hms, taken, replied⟩ := h
  cases turn with
  | @arrive bytes more coming =>
    have hc : x.connection.arrive bytes = { x.connection with buffer := x.connection.buffer ++ bytes } :=
      if_pos reading
    rw [hc]
    refine ⟨reading, producer, consumer, session, answered, rest, hms, ?_, replied⟩
    rw [coming, ← List.append_assoc] at taken
    exact taken
  | notice n =>
    dsimp only [hear]
    split
    · rw [hand_of_consumer consumer]
      refine ⟨reading, producer, consumer, session, answered, rest, ?_, taken, replied⟩
      rw [hms]
      simp [queued]
    · exact ⟨reading, producer, consumer, session, answered, rest, hms, taken, replied⟩
  | readFrame =>
    unfold readFrame
    rw [if_pos reading]
    cases hf : Frame.take u.config.maxMessageSize x.connection.buffer with
    | incomplete => exact ⟨reading, producer, consumer, session, answered, rest, hms, taken, replied⟩
    | refused e =>
      rw [Frame.takeAll_of_refused (Frame.take_append_of_refused hf _)] at taken
      cases taken
    | frame content left =>
      have whole := Frame.take_append_of_frame hf x.coming
      cases content with
      | error e =>
        rw [Frame.takeAll_of_error whole] at taken
        cases taken
      | ok m =>
        rw [Frame.takeAll_of_message whole] at taken
        show Serves u ms ⟨x.coming, { x.connection with buffer := left }.hand (.inbound m)⟩
        rw [hand_of_consumer (c := { x.connection with buffer := left }) consumer]
        refine ⟨reading, producer, consumer, session, answered,
          (Frame.takeAll u.config.maxMessageSize (left ++ x.coming)).1, ?_, ?_, replied⟩
        · rw [hms, ← (Prod.mk.inj taken).1]
          simp [queued]
        · rw [← (Prod.mk.inj taken).2]
  | work v =>
    obtain ⟨s, hs⟩ := Option.isSome_iff_exists.mp session
    unfold work Queue.dequeue
    rw [hs]
    cases hi : x.connection.queue.items with
    | nil =>
      simp only [producer, ↓reduceIte]
      exact ⟨reading, producer, consumer, session, answered, rest, hms, taken, replied⟩
    | cons job jobs =>
      have hjob : ∀ m, job = .inbound m → m.ofCall = true := by
        rintro m rfl
        refine ofCalls m ?_
        rw [hms, queued, hi]
        simp
      obtain ⟨d, s', w, ha, goes, owed⟩ := answer_job hjob u s v
      simp only [ha, goes, Bool.false_eq_true, ↓reduceIte]
      cases job with
      | inbound m =>
        refine ⟨reading, producer, consumer, rfl, answered ++ [m], rest, ?_, taken, ?_⟩
        · rw [hms, queued, hi]
          simp [queued]
        · rw [← List.append_assoc, List.filter_append, replied, owed, List.filterMap_append]
          cases hm : m.owed? u <;> simp [hm]
      | notice n =>
        refine ⟨reading, producer, consumer, rfl, answered, rest, ?_, taken, ?_⟩
        · rw [hms, queued, hi]
          rfl
        · rw [← List.append_assoc, List.filter_append, replied, owed, List.append_nil]
  | write =>
    dsimp only [write]
    split
    · exact ⟨reading, producer, consumer, session, answered, rest, hms, taken, replied⟩
    · rename_i m more hr
      refine ⟨reading, producer, consumer, session, answered, rest, hms, taken, ?_⟩
      rw [hr] at replied
      rw [← replied, List.append_assoc]
      rfl

theorem Serves.reaches (h : x.Serves u ms) (ofCalls : ∀ m ∈ ms, m.ofCall = true) (run : Reaches u x y) :
    y.Serves u ms := by
  induction run with
  | refl => exact h
  | tail _ turn ih => exact ih.turn ofCalls turn

/-- What answers calls was owed to the first of them, in order, and once the connection is quiet to all. -/
theorem Serves.answers (h : x.Serves u ms) : x.connection.sent.filter (!·.unasked) <+: ms.filterMap (·.owed? u) ∧
    (x.Quiet u → x.connection.sent.filter (!·.unasked) = ms.filterMap (·.owed? u)) := by
  obtain ⟨-, -, -, -, answered, rest, hms, taken, replied⟩ := h
  rw [List.filter_append] at replied
  refine ⟨?_, fun quiet => ?_⟩
  · rw [hms, List.filterMap_append, List.filterMap_append, ← replied, List.append_assoc, List.append_assoc]
    exact List.prefix_append _ _
  · rw [quiet.arrived, List.append_nil] at taken
    have hrest : rest = [] := by
      have := Exchange.takeAll_of_waiting quiet.taken
      rwa [taken] at this
    rw [quiet.sent, List.filter_nil, List.append_nil] at replied
    rw [hms, hrest, queued_of_nil quiet.answered, List.append_nil, List.append_nil, replied]

end Serves

/-! ### Positions -/

section Positions
variable {α β : Type} {f : α → Option β} {l : List α} {p j : Nat} {a : α} {b : β}

/-- What comes of an element stands behind what comes of the elements before it. -/
theorem getElem?_filterMap_length (ha : l[p]? = some a) (hb : f a = some b) :
    (l.filterMap f)[((l.take p).filterMap f).length]? = some b := by
  induction l generalizing p with
  | nil => cases ha
  | cons x l ih =>
    cases p with
    | zero =>
      cases ha
      rw [List.filterMap_cons_some hb]
      rfl
    | succ p =>
      rw [List.take_succ_cons, List.filterMap_cons, List.filterMap_cons]
      cases f x with
      | none => exact ih ha
      | some y => exact ih ha

theorem exists_of_getElem?_filterMap (hb : (l.filterMap f)[j]? = some b) :
    ∃ p a, l[p]? = some a ∧ f a = some b ∧ ((l.take p).filterMap f).length = j := by
  induction l generalizing j with
  | nil => cases hb
  | cons x l ih =>
    cases hx : f x with
    | none =>
      rw [List.filterMap_cons_none hx] at hb
      obtain ⟨p, a, ha, hf, hlen⟩ := ih hb
      exact ⟨p + 1, a, ha, hf, by rw [List.take_succ_cons, List.filterMap_cons_none hx, hlen]⟩
    | some y =>
      rw [List.filterMap_cons_some hx] at hb
      cases j with
      | zero =>
        cases hb
        exact ⟨0, x, rfl, hx, rfl⟩
      | succ j =>
        obtain ⟨p, a, ha, hf, hlen⟩ := ih hb
        exact ⟨p + 1, a, ha, hf, by rw [List.take_succ_cons, List.filterMap_cons_some hx, List.length_cons, hlen]⟩

theorem getElem?_filter_length {q : α → Bool} (ha : l[p]? = some a) (hq : q a = true) :
    (l.filter q)[((l.take p).filter q).length]? = some a := by
  rw [← List.filterMap_eq_filter]
  exact getElem?_filterMap_length ha (by rw [Option.guard, if_pos hq])

/-- Before an element stand those that have a property and those that do not. -/
theorem length_filter_take_add_countP {q : α → Bool} (ha : l[p]? = some a) :
    ((l.take p).filter (!q ·)).length + (l.take p).countP q = p := by
  have all := List.length_eq_countP_add_countP q (l := l.take p)
  rw [List.length_take, Nat.min_eq_left (Nat.le_of_lt (List.getElem?_eq_some_iff.mp ha).1)] at all
  simp only [Bool.not_eq_true, Bool.decide_eq_false] at all
  rw [← List.countP_eq_length_filter]
  omega

end Positions

/-! ### What calls get -/

section Answered
variable {u : Setup} {k : Crypto} {calls : List Call} {limit : UInt64} {x : Talk} {p : Nat} {call : Call}
  {answer : Message}

/-- What is owed to the messages of calls is owed to the calls. -/
theorem owed_messages (u : Setup) (k : Crypto) (calls : List Call) :
    ((calls.filterMap (·.message? k)).map Message.fitted).filterMap (Message.owed? u) =
      calls.filterMap (·.owed? u k) := by
  rw [List.filterMap_map, List.filterMap_filterMap]
  rfl

variable {j : Nat} {m : Message}

/-- What answers a call is owed at the position that it has among the answers. -/
theorem Serves.owed_at (h : x.Serves u ((calls.filterMap (·.message? k)).map .fitted))
    (hm : x.connection.sent[j]? = some m) (hu : m.unasked = false) :
    (calls.filterMap (·.owed? u k))[((x.connection.sent.take j).filter (!·.unasked)).length]? = some m := by
  obtain ⟨⟨later, hlater⟩, -⟩ := h.answers
  rw [owed_messages] at hlater
  have among := getElem?_filter_length (q := (!·.unasked)) hm (by rw [hu]; rfl)
  rw [← hlater, List.getElem?_append_left (List.getElem?_eq_some_iff.mp among).1, among]

/-- As long as nothing unasked is sent, that is its position in the stream. -/
theorem Serves.owed_here (h : x.Serves u ((calls.filterMap (·.message? k)).map .fitted))
    (hm : x.connection.sent[j]? = some m) (asked : ∀ m' ∈ x.connection.sent.take (j + 1), m'.unasked = false) :
    (calls.filterMap (·.owed? u k))[j]? = some m := by
  have counted := length_filter_take_add_countP (q := (·.unasked)) hm
  have none : (x.connection.sent.take j).countP (·.unasked) = 0 := by
    refine List.countP_eq_zero.mpr fun m' hm' => ?_
    rw [asked m' (List.take_subset_take_left _ (Nat.le_succ _) hm')]
    exact Bool.false_ne_true
  rw [none, Nat.add_zero] at counted
  have hmem : m ∈ x.connection.sent.take (j + 1) := by
    refine List.mem_of_getElem? (i := j) ?_
    rw [List.getElem?_take_of_lt (Nat.lt_succ_self _), hm]
  have here := h.owed_at hm (asked m hmem)
  rwa [counted] at here

/-- Once the connection is quiet there is an answer for each call. -/
theorem Serves.answered_all (h : x.Serves u ((calls.filterMap (·.message? k)).map .fitted)) (quiet : x.Quiet u) :
    (calls.filterMap (·.owed? u k)).length ≤ x.connection.sent.length := by
  have answers := List.length_filter_le (!·.unasked) x.connection.sent
  rwa [h.answers.2 quiet, owed_messages] at answers

/-- However messages travel and whatever notices are published, a call takes the message of the peer's stream
    that has as many before it as calls were made before; it gets one once the connection is quiet. As long as
    nothing unasked was sent that is its own answer. If it is a notice the call fails. If it is an answer, it
    is the one to the call that was made as many calls before as unasked messages were sent before it. -/
theorem calls_answered (sendable : ∀ m ∈ calls.filterMap (·.message? k), m.Fits u.config.maxMessageSize)
    (run : Reaches u (start k calls) x) (receivable : ∀ m ∈ x.connection.sent, m.Fits limit) :
    let client := (Client.connect (Frame.encodeAll x.connection.sent) limit).perform k calls
    client.2.sent = calls.filterMap (·.message? k) ∧
    ∀ p call answer, calls[p]? = some call → call.owed? u k = some answer →
      let before := ((calls.take p).filterMap (·.owed? u k)).length
      (x.Quiet u → before < x.connection.sent.length) ∧
      ∀ m, x.connection.sent[before]? = some m →
        client.1[p]? = some (call.judge m.fitted) ∧
        ((∀ m' ∈ x.connection.sent.take (before + 1), m'.unasked = false) →
          m = answer ∧ ∃ result, call.judge answer = .ok result ∧ client.1[p]? = some (.ok result)) ∧
        (∀ notice, m = .newVersion notice →
          client.1[p]? = some (.error (.malformed (.unexpected answer.kind .newVersion)))) ∧
        (m.unasked = false → ∃ q earlier, calls[q]? = some earlier ∧ earlier.owed? u k = some m ∧
          ((calls.take q).filterMap (·.owed? u k)).length +
            (x.connection.sent.take before).countP (·.unasked) = before) := by
  intro client
  refine ⟨by rw [Client.perform_sends]; rfl, fun p call answer hp ho => ?_⟩
  intro before
  have serves := (serves_start sendable).reaches (fun _ => ofCall_of_mem) run
  have own := getElem?_filterMap_length (f := (·.owed? u k)) hp ho
  obtain ⟨fits, ⟨result, hresult⟩, fails⟩ := Call.judge_owed ho
  refine ⟨fun quiet => ?_, fun m hm => ?_⟩
  · exact Nat.lt_of_lt_of_le (List.getElem?_eq_some_iff.mp own).1 (serves.answered_all quiet)
  have taken : client.1[p]? = some (call.judge m.fitted) :=
    Client.perform_takes rfl receivable hp (by rw [ho]; rfl) hm
  refine ⟨taken, fun asked => ?_, fun notice hn => ?_, fun hu => ?_⟩
  · obtain rfl : m = answer := Option.some.inj ((serves.owed_here hm asked).symm.trans own)
    exact ⟨rfl, result, hresult, by rw [taken, fits, hresult]⟩
  · rw [taken, hn]
    exact congrArg some (fails _)
  · obtain ⟨q, earlier, hq, hearlier, hlength⟩ := exists_of_getElem?_filterMap (serves.owed_at hm hu)
    exact ⟨q, earlier, hq, hearlier, by rw [hlength, length_filter_take_add_countP (q := (·.unasked)) hm]⟩

end Answered

/-- The notice of a local edit. It is published after the client has subscribed, and before its pings arrive. -/
def sampleEdited : NewVersion := ⟨"a", 0, 1, 4⟩

def sampleCalls : List Call := [.subscribe "", .hello, .ping 1, .ping 2]

theorem sample_reached : ∃ x, Reaches sampleSetup (start (.plaintext []) sampleCalls) x ∧
    x.connection.sent = [.hello protocolVersion, .newVersion sampleEdited, .pong 1, .pong 2] :=
  ⟨_, (((((((((((((((Relation.ReflTransGen.refl.tail
    (.arrive (List.take_append_drop 8 _).symm)).tail .readFrame).tail .readFrame).tail
    (.work (sampleVolume []))).tail (.work (sampleVolume []))).tail (.notice sampleEdited)).tail
    (.arrive (List.append_nil _).symm)).tail .readFrame).tail .readFrame).tail (.work (sampleVolume []))).tail
    (.work (sampleVolume []))).tail (.work (sampleVolume []))).tail .write).tail .write).tail .write).tail .write,
    by decide +kernel⟩

/-- The greeting comes before the notice. Then the first ping takes the notice for its answer, and the second
    one the answer to the first. -/
theorem sample_calls :
    (∀ m ∈ sampleCalls.filterMap (·.message? (.plaintext [])), m.Fits sampleSetup.config.maxMessageSize) ∧
    ∃ x, Reaches sampleSetup (start (.plaintext []) sampleCalls) x ∧ (∀ m ∈ x.connection.sent, m.Fits 64) ∧
      let results := ((Client.connect (Frame.encodeAll x.connection.sent) 64).perform (.plaintext []) sampleCalls).1
      results[1]? = some (.ok (.version protocolVersion)) ∧
      results[2]? = some (.error (.malformed (.unexpected .pong .newVersion))) ∧
      results[3]? = some (.error (.malformed (.unexpected .pong .pong))) := by
  have sendable : ∀ m ∈ sampleCalls.filterMap (·.message? (.plaintext [])),
      m.Fits sampleSetup.config.maxMessageSize := by
    decide +kernel
  obtain ⟨x, run, hsent⟩ := sample_reached
  have receivable : ∀ m ∈ x.connection.sent, m.Fits 64 := by
    rw [hsent]
    decide +kernel
  obtain ⟨-, answered⟩ := calls_answered sendable run receivable
  refine ⟨sendable, x, run, receivable, ?_⟩
  obtain ⟨-, greeted⟩ := answered 1 .hello (.hello protocolVersion) rfl rfl
  obtain ⟨-, noticed⟩ := answered 2 (.ping 1) (.pong 1) rfl rfl
  obtain ⟨-, late⟩ := answered 3 (.ping 2) (.pong 2) rfl rfl
  rw [hsent] at greeted noticed late
  obtain ⟨-, own, -⟩ := greeted (.hello protocolVersion) rfl
  obtain ⟨-, -, fails, -⟩ := noticed (.newVersion sampleEdited) rfl
  obtain ⟨-, result, hresult, hgot⟩ := own (by decide)
  cases hresult
  rw [hsent]
  exact ⟨hgot, fails _ rfl, (late (.pong 1) rfl).1⟩

/-- A ping is answered, and fails all the same, as it takes a notice for its answer. -/
theorem notice_before_answer : ∃ x, Reaches sampleSetup (start (.plaintext []) [.subscribe "", .ping 1]) x ∧
    x.Quiet sampleSetup ∧ x.connection.sent = [.newVersion sampleEdited, .pong 1] ∧
    (LocalEdit.written.report sampleSetup.store "a" (sampleVolume [1, 2, 3, 4])).1 =
      .ok (⟨0, 1, .dirty⟩, some sampleEdited) ∧
    Call.owed? sampleSetup (.plaintext []) (.ping 1) = some (.pong 1) ∧
    ((Client.connect (Frame.encodeAll x.connection.sent) 64).perform (.plaintext [])
        [.subscribe "", .ping 1]).1[1]? =
      some (.error (.malformed (.unexpected .pong .newVersion))) := by
  obtain ⟨x, run, quiet, hsent⟩ : ∃ x, Reaches sampleSetup (start (.plaintext []) [.subscribe "", .ping 1]) x ∧
      x.Quiet sampleSetup ∧ x.connection.sent = [.newVersion sampleEdited, .pong 1] :=
    ⟨_, ((((((((((Relation.ReflTransGen.refl.tail (.arrive (List.take_append_drop 4 _).symm)).tail .readFrame).tail
      (.work (sampleVolume []))).tail (.notice sampleEdited)).tail (.work (sampleVolume []))).tail
      (.arrive (List.append_nil _).symm)).tail .readFrame).tail
      (.work (sampleVolume []))).tail .write).tail .write),
      ⟨by decide +kernel, by decide +kernel, by decide +kernel, by decide +kernel⟩, by decide +kernel⟩
  refine ⟨x, run, quiet, hsent, ok_of_toOption (by decide +kernel), rfl, ?_⟩
  have comes : (Client.connect (Frame.encodeAll [.newVersion sampleEdited, .pong 1]) 64).incoming =
      Frame.encodeAll [.newVersion sampleEdited, .pong 1] := rfl
  have fits : ∀ m ∈ [Message.newVersion sampleEdited, .pong 1], m.Fits 64 := by decide +kernel
  rw [hsent]
  have second : [Call.subscribe "", .ping 1][1]? = some (.ping 1) := rfl
  exact Client.perform_takes (u := sampleSetup) (k := .plaintext []) comes fits second rfl rfl

end Talk

end TreeReplica
