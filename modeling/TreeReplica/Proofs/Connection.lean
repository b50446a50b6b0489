import Mathlib.Data.Prod.Lex
import Mathlib.Logic.Relation
import Mathlib.Order.WellFounded
import TreeReplica.Proofs.Connection.Activities

/-! A connection whose peer sends one stream and hears of no local edits. The stream arrives in parts, and
    reader, worker and writer take turns in any order. What the whole exchange comes to (`Exchange.outcome`)
    is settled before it begins: no turn changes it (`Exchange.Turn.outcome`), and no exchange goes on forever
    (`Exchange.Turn.remaining_lt`). -/

namespace TreeReplica
open Connection

/-! ### Exchanges -/

/-- A connection with what its peer sends, and what the worker has taken up. -/
structure Exchange where
  /-- What has not arrived yet of the peer's stream. -/
  coming : Bytes
  connection : Connection
  volume : Volume
  handled : List Message

namespace Exchange

/-- What an exchange comes to: all that is sent, all messages that are taken up, and the volume in the end. -/
structure Outcome where
  sent : List Message
  handled : List Message
  volume : Volume

def start (stream : Bytes) (v : Volume) : Exchange := ⟨stream, .new, v, []⟩

/-- One move of the network or of one activity. The stream arrives in any parts as long as the reader reads.
    The reader hangs up when it has waited for the rest of a stream that is over, or hears that the worker has
    stopped. -/
inductive Turn (u : Setup) (x : Exchange) : Exchange → Prop
  | arrive {bytes rest : Bytes} (reading : x.connection.reading = true) (coming : x.coming = bytes ++ rest) :
    Turn u x { x with coming := rest, connection := x.connection.arrive bytes }
  | hangUp (due : x.coming = [] ∨ x.connection.session = none) :
    Turn u x { x with connection := x.connection.hangUp u }
  | readFrame : Turn u x { x with connection := x.connection.readFrame u }
  | work :
    Turn u x { x with connection := (x.connection.work u x.volume).1, volume := (x.connection.work u x.volume).2,
                      handled := x.handled ++ x.connection.next?.toList }
  | write : Turn u x { x with connection := x.connection.write }

abbrev Reaches (u : Setup) : Exchange → Exchange → Prop := Relation.ReflTransGen (Turn u)

/-- The messages that the worker will still be handed, as far as it takes them up. -/
def left (u : Setup) (x : Exchange) : List Message :=
  x.connection.queued ++
    if x.connection.reading then (Frame.takeAll u.config.maxMessageSize (x.connection.buffer ++ x.coming)).1 else []

/-- What an exchange will come to, whatever the turns. -/
def outcome (u : Setup) (x : Exchange) : Outcome :=
  match x.connection.session with
  | none => ⟨x.connection.sent ++ x.connection.replies, x.handled, x.volume⟩
  | some s =>
    ⟨x.connection.sent ++ x.connection.replies ++ (converse u (x.left u) s x.volume).1,
      x.handled ++ answered u (x.left u) s x.volume, (converse u (x.left u) s x.volume).2⟩

section Turns
variable {u : Setup} {x y : Exchange} {c : Connection} {s : Session}

theorem outcome_of_session (hs : x.connection.session = some s) : x.outcome u =
    ⟨x.connection.sent ++ x.connection.replies ++ (converse u (x.left u) s x.volume).1,
      x.handled ++ answered u (x.left u) s x.volume, (converse u (x.left u) s x.volume).2⟩ := by
  unfold outcome
  rw [hs]

theorem outcome_of_stopped (hs : x.connection.session = none) :
    x.outcome u = ⟨x.connection.sent ++ x.connection.replies, x.handled, x.volume⟩ := by
  unfold outcome
  rw [hs]

/-- A turn of the network or the reader that leaves the same messages for the worker leaves the outcome. -/
theorem outcome_congr (session : y.connection.session = x.connection.session)
    (replies : y.connection.sent ++ y.connection.replies = x.connection.sent ++ x.connection.replies)
    (volume : y.volume = x.volume) (handled : y.handled = x.handled)
    (left : x.connection.session.isSome → y.left u = x.left u) : y.outcome u = x.outcome u := by
  cases hs : x.connection.session with
  | none => rw [outcome_of_stopped hs, outcome_of_stopped (session.trans hs), replies, handled, volume]
  | some s => rw [outcome_of_session hs, outcome_of_session (session.trans hs), replies, handled, volume,
    left (by rw [hs]; rfl)]

/-! ### Turns -/

theorem Turn.joined (h : x.connection.Joined) (turn : x.Turn u y) : y.connection.Joined := by
  cases turn with
  | arrive reading _ =>
    dsimp only [Connection.arrive]
    rw [if_pos reading]
    exact ⟨h.producer, h.consumer, h.inbound⟩
  | hangUp _ =>
    dsimp only [Connection.hangUp]
    split
    · exact h.stopReading
    · exact h
  | readFrame =>
    dsimp only
    rcases readFrame_cases u x.connection with ⟨-, hc⟩ | ⟨-, buffer, -, hc, -⟩ |
      ⟨-, m, rest, -, hc, -⟩ <;> rw [hc]
    · exact h
    · exact ⟨rfl, h.consumer, h.inbound⟩
    · have taken : { x.connection with buffer := rest }.Joined := ⟨h.producer, h.consumer, h.inbound⟩
      rcases hand_cases taken m with ⟨-, hh⟩ | ⟨-, hh⟩ <;> rw [hh]
      · refine ⟨h.producer, h.consumer, fun job hj => ?_⟩
        rcases List.mem_append.mp hj with hj | hj
        · exact h.inbound job hj
        · exact ⟨m, List.mem_singleton.mp hj⟩
      · exact taken.stopReading
  | work =>
    dsimp only
    cases hs : x.connection.session with
    | none => rwa [work_of_stopped hs]
    | some s =>
      rcases work_cases h hs u x.volume with ⟨-, -, hw⟩ | ⟨-, -, hw⟩ | ⟨m, rest, replies, s', w, hi, hcase⟩
      · rwa [hw]
      · rw [hw]
        exact h.stopWorking s x.volume
      · have answered := (h.takeUp hi).answerWith (by rw [takeUp, hs]; rfl) s' replies
        rcases hcase with ⟨hw, -⟩ | ⟨hw, -⟩ <;> rw [hw]
        · exact answered.stopWorking s' w
        · exact answered
  | write =>
    dsimp only [Connection.write]
    split
    · exact h
    · exact ⟨h.producer, h.consumer, h.inbound⟩

theorem left_of_not_reading (h : x.connection.reading = false) : x.left u = x.connection.queued := by
  rw [left, h, if_neg (by decide), List.append_nil]

theorem left_of_reading (h : x.connection.reading = true) :
    x.left u = x.connection.queued ++
      (Frame.takeAll u.config.maxMessageSize (x.connection.buffer ++ x.coming)).1 := by
  rw [left, h, if_pos rfl]

theorem takeAll_of_waiting (h : c.waiting u = true) : (Frame.takeAll u.config.maxMessageSize c.buffer).1 = [] := by
  refine Frame.takeAll_eq_nil fun m rest hf => ?_
  have hfront := (Bool.and_eq_true_iff.mp h).2
  rw [hf] at hfront
  cases hfront

/-- What is there in the end is settled: the worker answers what was left for it, one after the other. -/
theorem Turn.outcome (h : x.connection.Joined) (turn : x.Turn u y) : y.outcome u = x.outcome u := by
  cases turn with
  | @arrive bytes rest reading coming =>
    have hc : x.connection.arrive bytes = { x.connection with buffer := x.connection.buffer ++ bytes } :=
      if_pos reading
    refine outcome_congr (by rw [hc]) (by rw [hc]) rfl rfl fun _ => ?_
    rw [left_of_reading reading, left_of_reading (by rw [hc]; exact reading), hc, coming]
    dsimp only [queued]
    rw [List.append_assoc]
  | hangUp due =>
    dsimp only [Connection.hangUp]
    split
    · rename_i waiting
      refine outcome_congr rfl rfl rfl rfl fun hs => ?_
      -- A reader that waits has no frame left to take, and nothing more will come.
      have hcoming : x.coming = [] := due.resolve_right fun hn => by rw [hn] at hs; cases hs
      obtain ⟨reading, -⟩ := Bool.and_eq_true_iff.mp waiting
      rw [left_of_not_reading rfl, left_of_reading reading, hcoming, List.append_nil,
        takeAll_of_waiting waiting, List.append_nil]
      rfl
    · rfl
  | readFrame =>
    rcases readFrame_cases u x.connection with ⟨-, hc⟩ | ⟨reading, buffer, -, hc, hnone⟩ |
      ⟨reading, m, rest, -, hc, hframe⟩
    · simp only [hc]
    · simp only [hc]
      refine outcome_congr rfl rfl rfl rfl fun _ => ?_
      rw [left_of_not_reading rfl, left_of_reading reading, hnone, List.append_nil]
      rfl
    · simp only [hc]
      have taken : { x.connection with buffer := rest }.Joined := ⟨h.producer, h.consumer, h.inbound⟩
      rcases hand_cases taken m with ⟨-, hh⟩ | ⟨hs, hh⟩ <;> simp only [hh]
      · refine outcome_congr rfl rfl rfl rfl fun _ => ?_
        rw [left_of_reading (x := x) reading, left_of_reading (by exact reading), hframe]
        simp only [queued, List.filterMap_append, List.append_assoc]
        rfl
      · exact outcome_congr rfl rfl rfl rfl fun hsome => by
          rw [hs] at hsome
          cases hsome
  | work =>
    cases hs : x.connection.session with
    | none =>
      have hnext : x.connection.next? = none := by rw [next?, hs]; rfl
      simp only [work_of_stopped hs, hnext, Option.toList_none, List.append_nil]
    | some s =>
      rw [outcome_of_session hs]
      rcases work_cases h hs u x.volume with ⟨hi, -, hw⟩ | ⟨hi, reading, hw⟩ |
        ⟨m, rest, replies, s', w, hi, hcase⟩
      · have hnext : x.connection.next? = none := by rw [next?, queued_of_nil hi]; exact ite_self _
        simp only [hw, hnext, Option.toList_none, List.append_nil]
        exact outcome_of_session hs
      · have hnext : x.connection.next? = none := by rw [next?, queued_of_nil hi]; exact ite_self _
        rw [left_of_not_reading reading, queued_of_nil hi, outcome_of_stopped (by rw [hw]; rfl)]
        simp only [hw, hnext, Option.toList_none, List.append_nil, converse, answered]
        rfl
      · obtain ⟨_, hjob, hqueued⟩ := h.queued_cons hi
        cases hjob
        have hnext : x.connection.next? = some m := by rw [next?, hs, hqueued]; rfl
        have hleft : x.left u = m :: left u { x with connection := x.connection.takeUp rest } := by
          rw [left, hqueued, List.cons_append]
          rfl
        rcases hcase with ⟨hw, hlast⟩ | ⟨hw, hon⟩
        · obtain ⟨hconverse, hanswered⟩ := hlast (left u { x with connection := x.connection.takeUp rest })
          rw [hleft, hconverse, hanswered, outcome_of_stopped (by rw [hw]; rfl), hnext, hw, List.append_assoc]
          rfl
        · obtain ⟨hconverse, hanswered⟩ := hon (left u { x with connection := x.connection.takeUp rest })
          have hsession : (x.connection.work u x.volume).1.session = some s' := by rw [hw]; rfl
          rw [hleft, hconverse, hanswered, outcome_of_session hsession, hnext]
          simp only [hw, answerWith, List.append_assoc, Option.toList_some, List.singleton_append]
          rfl
  | write =>
    dsimp only [Connection.write]
    split
    · rfl
    · rename_i m rest hr
      exact outcome_congr rfl (by rw [hr]; simp) rfl rfl fun _ => rfl

/-! ### The end of the turns -/

/-- What is still to be done: first what has not arrived, then what is not taken from the buffer, then what
    stops the reader and the worker, and at last what is not sent. -/
def remaining (x : Exchange) : ℕ ×ₗ ℕ ×ₗ ℕ ×ₗ ℕ :=
  toLex (x.coming.length, toLex (x.connection.buffer.length,
    toLex (x.connection.reading.toNat + x.connection.session.isSome.toNat + x.connection.queue.items.length,
      x.connection.replies.length)))

theorem remaining_lt_of_buffer (coming : y.coming.length ≤ x.coming.length)
    (buffer : y.connection.buffer.length < x.connection.buffer.length) : y.remaining < x.remaining :=
  Prod.Lex.toLex_lt_toLex'.mpr ⟨coming, fun _ => Prod.Lex.toLex_lt_toLex.mpr (Or.inl buffer)⟩

theorem remaining_lt_of_jobs (coming : y.coming.length ≤ x.coming.length)
    (buffer : y.connection.buffer.length ≤ x.connection.buffer.length)
    (jobs : y.connection.reading.toNat + y.connection.session.isSome.toNat + y.connection.queue.items.length <
      x.connection.reading.toNat + x.connection.session.isSome.toNat + x.connection.queue.items.length) :
    y.remaining < x.remaining :=
  Prod.Lex.toLex_lt_toLex'.mpr ⟨coming, fun _ => Prod.Lex.toLex_lt_toLex'.mpr ⟨buffer, fun _ =>
    Prod.Lex.toLex_lt_toLex.mpr (Or.inl jobs)⟩⟩

/-- Every turn that does anything leaves less to do. -/
theorem Turn.remaining_lt (h : x.connection.Joined) (turn : x.Turn u y) (hne : y ≠ x) :
    y.remaining < x.remaining := by
  cases turn with
  | @arrive bytes rest reading coming =>
    have hc : x.connection.arrive bytes = { x.connection with buffer := x.connection.buffer ++ bytes } :=
      if_pos reading
    refine Prod.Lex.toLex_lt_toLex.mpr (Or.inl ?_)
    have hbytes : bytes ≠ [] := by
      rintro rfl
      refine hne ?_
      rw [hc, List.append_nil]
      exact congrArg (fun rest => { x with coming := rest }) coming.symm
    have := List.length_pos_iff.mpr hbytes
    simp only [coming, List.length_append]
    omega
  | hangUp due =>
    dsimp only [Connection.hangUp] at hne ⊢
    split
    · rename_i waiting
      obtain ⟨reading, -⟩ := Bool.and_eq_true_iff.mp waiting
      refine remaining_lt_of_jobs (Nat.le_refl _) (Nat.le_refl _) ?_
      simp [Connection.stopReading, Queue.dropProducer, reading]
    · rename_i waiting
      rw [if_neg waiting] at hne
      exact absurd rfl hne
  | readFrame =>
    rcases readFrame_cases u x.connection with ⟨-, hc⟩ | ⟨reading, buffer, hle, hc, -⟩ |
      ⟨reading, m, rest, hlt, hc, -⟩
    · rw [hc] at hne
      exact absurd rfl hne
    · rw [hc]
      refine remaining_lt_of_jobs (Nat.le_refl _) hle ?_
      simp [Connection.stopReading, Queue.dropProducer, reading]
    · exact remaining_lt_of_buffer (Nat.le_refl _) (by rw [hc, buffer_hand]; exact hlt)
  | work =>
    cases hs : x.connection.session with
    | none =>
      have hnext : x.connection.next? = none := by rw [next?, hs]; rfl
      rw [work_of_stopped hs, hnext, Option.toList_none, List.append_nil] at hne
      exact absurd rfl hne
    | some s =>
      rcases work_cases h hs u x.volume with ⟨hi, -, hw⟩ | ⟨hi, -, hw⟩ |
        ⟨m, rest, replies, s', w, hi, ⟨hw, -⟩ | ⟨hw, -⟩⟩
      · have hnext : x.connection.next? = none := by rw [next?, queued_of_nil hi]; exact ite_self _
        rw [hw, hnext, Option.toList_none, List.append_nil] at hne
        exact absurd rfl hne
      all_goals
        rw [hw]
        refine remaining_lt_of_jobs (Nat.le_refl _) (Nat.le_refl _) ?_
        simp [Connection.stopWorking, Queue.dropConsumer, takeUp, answerWith, hs, hi]
      omega
  | write =>
    dsimp only [Connection.write] at hne ⊢
    split
    · rename_i hr
      simp only [hr] at hne
      exact absurd rfl hne
    · rename_i m rest hr
      refine Prod.Lex.toLex_lt_toLex'.mpr ⟨Nat.le_refl _, fun _ =>
        Prod.Lex.toLex_lt_toLex'.mpr ⟨Nat.le_refl _, fun _ =>
        Prod.Lex.toLex_lt_toLex'.mpr ⟨Nat.le_refl _, fun _ => ?_⟩⟩⟩
      simp [hr]

/-- In an endless schedule nothing happens any more from some time on. -/
theorem comes_to_rest {f : ℕ → Exchange} (h : (f 0).connection.Joined) (turns : ∀ k, (f k).Turn u (f (k + 1))) :
    ∃ k, ∀ j, k ≤ j → f j = f k := by
  have joined : ∀ k, (f k).connection.Joined := fun k => by
    induction k with
    | zero => exact h
    | succ k ih => exact (turns k).joined ih
  -- Otherwise something is done again and again, each time with less that remains.
  obtain ⟨least, ⟨k, rfl⟩, hleast⟩ :=
    WellFounded.has_min wellFounded_lt (Set.range fun k => (f k).remaining) ⟨_, 0, rfl⟩
  refine ⟨k, fun j hj => ?_⟩
  induction j, hj using Nat.le_induction with
  | base => rfl
  | succ j _ ih =>
    by_contra hne
    have hlt := (turns j).remaining_lt (joined j) (by rw [ih]; exact hne)
    exact hleast _ ⟨j + 1, rfl⟩ (by rwa [ih] at hlt)

/-! ### Rest -/

theorem replies_of_write (h : c.write = c) : c.replies = [] := by
  cases hr : c.replies with
  | nil => rfl
  | cons m rest =>
    have := congrArg (·.sent.length) h
    simp [Connection.write, hr] at this

theorem waits_of_readFrame (h : c.readFrame u = c) : c.reading = false ∨ c.waiting u = true := by
  rcases readFrame_cases u c with ⟨hc, -⟩ | ⟨reading, buffer, -, hc, -⟩ | ⟨-, m, rest, hlt, hc, -⟩
  · exact hc
  · have := congrArg (·.reading) (hc.symm.trans h)
    exact Or.inl this.symm
  · have hbuffer : c.buffer = rest := by rw [← h, hc, buffer_hand]
    rw [hbuffer] at hlt
    exact absurd hlt (Nat.lt_irrefl _)

theorem items_of_work {v : Volume} (h : c.Joined) (hs : c.session = some s) (hw : (c.work u v).1 = c) :
    c.queue.items = [] ∧ c.reading = true := by
  rcases work_cases h hs u v with ⟨hi, reading, -⟩ | ⟨-, -, hw'⟩ |
    ⟨m, rest, replies, s', w, hi, ⟨hw', -⟩ | ⟨hw', -⟩⟩
  · exact ⟨hi, reading⟩
  · have := congrArg (·.session) hw
    rw [hw'] at this
    exact absurd (this.trans hs) nofun
  · have := congrArg (·.session) hw
    rw [hw'] at this
    exact absurd (this.trans hs) nofun
  · have := congrArg (·.queue.items.length) hw
    simp [hw', answerWith, takeUp, hi] at this

/-- Once all has arrived and none of the activities has anything to do, nothing is left for the worker. -/
theorem left_of_rest (h : x.connection.Joined) (hs : x.connection.session = some s) (coming : x.coming = [])
    (reads : x.connection.readFrame u = x.connection) (works : (x.connection.work u x.volume).1 = x.connection) :
    x.left u = [] := by
  obtain ⟨hi, reading⟩ := items_of_work h hs works
  rcases waits_of_readFrame reads with hr | waiting
  · rw [reading] at hr
    cases hr
  · rw [left_of_reading reading, queued_of_nil hi, coming, List.append_nil,
      takeAll_of_waiting waiting, List.append_nil]

/-- A connection that no turn changes has ended. -/
theorem ended_of_rest (h : x.connection.Joined) (rest : ∀ y, x.Turn u y → y = x) : x.connection.ended = true := by
  have reads : x.connection.readFrame u = x.connection := congrArg (·.connection) (rest _ .readFrame)
  have works : (x.connection.work u x.volume).1 = x.connection := congrArg (·.connection) (rest _ .work)
  have writes : x.connection.write = x.connection := congrArg (·.connection) (rest _ .write)
  have waited : x.connection.waiting u = true → x.coming = [] ∨ x.connection.session = none →
      x.connection.reading = false := by
    intro waiting due
    have := congrArg (·.connection.reading) (rest _ (.hangUp due))
    simp only [Connection.hangUp, waiting, ↓reduceIte] at this
    exact this.symm
  have reading : x.connection.reading = false := by
    rcases waits_of_readFrame reads with hr | waiting
    · exact hr
    by_cases hcoming : x.coming = []
    · exact waited waiting (Or.inl hcoming)
    · obtain ⟨hr, -⟩ := Bool.and_eq_true_iff.mp waiting
      have := congrArg (·.coming) (rest _ (.arrive hr (List.append_nil x.coming).symm))
      exact absurd this.symm hcoming
  have session : x.connection.session = none := by
    cases hs : x.connection.session with
    | none => rfl
    | some s =>
      have := (items_of_work h hs works).2
      rw [reading] at this
      cases this
  simp [ended, reading, session, replies_of_write writes]

/-! ### Whole exchanges -/

/-- An exchange comes to what its session answers to the messages of the stream, one after the other. -/
theorem Reaches.outcome {stream : Bytes} {v₀ : Volume} (run : Reaches u (start stream v₀) x) :
    x.connection.Joined ∧ x.outcome u =
      ⟨(converse u (Frame.takeAll u.config.maxMessageSize stream).1 .new v₀).1,
        answered u (Frame.takeAll u.config.maxMessageSize stream).1 .new v₀,
        (converse u (Frame.takeAll u.config.maxMessageSize stream).1 .new v₀).2⟩ := by
  induction run with
  | refl => exact ⟨joined_new, rfl⟩
  | tail _ turn ih => exact ⟨turn.joined ih.1, (turn.outcome ih.1).trans ih.2⟩

/-- However the stream is cut and whoever takes the turns, all that is sent is the beginning of what a new
    session answers to the messages of the stream, one after the other, up to the first that ends the
    connection or to what is no message; and only those are taken up. It is all of that once the connection
    has ended, and already when all has arrived and none of the activities has anything to do. An exchange
    comes to rest, and it rests only when the connection has ended. -/
theorem sequential {stream : Bytes} {v₀ : Volume} (run : Reaches u (start stream v₀) x) :
    let ms := (Frame.takeAll u.config.maxMessageSize stream).1
    (x.connection.sent <+: (converse u ms .new v₀).1 ∧ x.handled <+: answered u ms .new v₀) ∧
    (x.connection.ended = true → x.connection.sent = (converse u ms .new v₀).1 ∧
      x.handled = answered u ms .new v₀ ∧ x.volume = (converse u ms .new v₀).2) ∧
    (x.coming = [] → x.connection.readFrame u = x.connection → (x.connection.work u x.volume).1 = x.connection →
      x.connection.write = x.connection → x.connection.sent = (converse u ms .new v₀).1 ∧
      x.handled = answered u ms .new v₀) ∧
    ((∀ y, x.Turn u y → y = x) → x.connection.ended = true) ∧
    ∀ f : ℕ → Exchange, f 0 = x → (∀ k, (f k).Turn u (f (k + 1))) → ∃ k, ∀ j, k ≤ j → f j = f k := by
  intro ms
  obtain ⟨joined, houtcome⟩ := run.outcome
  refine ⟨?_, fun hended => ?_, fun coming reads works writes => ?_, ended_of_rest joined,
    fun f hf => comes_to_rest (hf ▸ joined)⟩
  · cases hs : x.connection.session with
    | none =>
      rw [outcome_of_stopped hs, Outcome.mk.injEq] at houtcome
      exact ⟨⟨_, houtcome.1⟩, houtcome.2.1 ▸ List.prefix_refl _⟩
    | some s =>
      rw [outcome_of_session hs, List.append_assoc, Outcome.mk.injEq] at houtcome
      exact ⟨⟨_, houtcome.1⟩, ⟨_, houtcome.2.1⟩⟩
  · simp only [ended, Bool.and_eq_true, Option.isNone_iff_eq_none, List.isEmpty_iff] at hended
    rw [outcome_of_stopped hended.1.2, hended.2, List.append_nil, Outcome.mk.injEq] at houtcome
    exact houtcome
  · have replies := replies_of_write writes
    cases hs : x.connection.session with
    | none =>
      rw [outcome_of_stopped hs, replies, List.append_nil, Outcome.mk.injEq] at houtcome
      exact ⟨houtcome.1, houtcome.2.1⟩
    | some s =>
      rw [outcome_of_session hs, left_of_rest joined hs coming reads works, replies, List.append_nil,
        Outcome.mk.injEq] at houtcome
      simp only [converse, answered, List.append_nil] at houtcome
      exact ⟨houtcome.1, houtcome.2.1⟩

end Turns

/-! ### The sample -/

/-- A ping, the end, and one more ping. -/
def sampleStream : Bytes := Frame.encodeAll [.ping 7, .quit, .ping 8]

/-- The stream arrives in two parts, and the first frame is cut. The worker is handed all three messages and
    stops at the second. -/
theorem sample_reaches : ∃ x, Reaches sampleSetup (start sampleStream (sampleVolume [])) x ∧
    x.connection.ended = true ∧ x.connection.sent = [.pong 7] ∧ x.handled = [.ping 7, .quit] :=
  ⟨_, (((((((((Relation.ReflTransGen.refl.tail (.arrive rfl (List.take_append_drop 3 _).symm)).tail .readFrame).tail
    (.arrive (by decide +kernel) (List.append_nil _).symm)).tail .readFrame).tail .readFrame).tail
    .readFrame).tail .work).tail .work).tail .write).tail (.hangUp (Or.inl rfl)),
    by decide +kernel, by decide +kernel, by decide +kernel⟩

theorem sample_sequential :
    (converse sampleSetup (Frame.takeAll sampleSetup.config.maxMessageSize sampleStream).1 .new
      (sampleVolume [])).1 = [.pong 7] ∧
    answered sampleSetup (Frame.takeAll sampleSetup.config.maxMessageSize sampleStream).1 .new (sampleVolume []) =
      [.ping 7, .quit] := by
  obtain ⟨x, run, hended, sent, handled⟩ := sample_reaches
  obtain ⟨-, exact, -⟩ := sequential run
  obtain ⟨hsent, hhandled, -⟩ := exact hended
  exact ⟨hsent.symm.trans sent, hhandled.symm.trans handled⟩

end Exchange

end TreeReplica
