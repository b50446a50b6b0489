import TreeReplica.Connection
import TreeReplica.Proofs.Frame
import TreeReplica.Proofs.Sample

/-! The activities of a connection one by one. Reader and worker share nothing but the queue
    (`Connection.Joined`); each lemma says all that one move of the reader, the worker or the writer can do. -/

namespace TreeReplica
namespace Connection

/-- The messages that a session answers, one after the other, up to the first that ends the connection. -/
def answered (u : Setup) : List Message → Session → Volume → List Message
  | [], _, _ => []
  | m :: ms, s, v =>
    match s.answer u m v with
    | (.error _, _, _) => [m]
    | (.ok d, s, v) => if d.ends then [m] else m :: answered u ms s v

/-- The messages that the worker was handed and has not taken up. -/
def queued (c : Connection) : List Message :=
  c.queue.items.filterMap fun
    | .inbound m => some m
    | .notice _ => none

/-- The worker has taken up the first of the jobs. -/
def takeUp (c : Connection) (rest : List Job) : Connection := { c with queue := { c.queue with items := rest } }

/-- The worker has answered a job. -/
def answerWith (c : Connection) (s : Session) (replies : List Message) : Connection :=
  { c with session := some s, replies := c.replies ++ replies }

/-- The message that the worker takes up next. -/
def next? (c : Connection) : Option Message := if c.session.isSome then c.queued.head? else none

/-! ### The activities -/

/-- The reader and the worker know of each other through the queue alone, and nothing but messages was put there. -/
structure Joined (c : Connection) : Prop where
  producer : c.queue.producer = c.reading
  consumer : c.queue.consumer = c.session.isSome
  inbound : ∀ job ∈ c.queue.items, ∃ m, job = .inbound m

section Activities
variable {u : Setup} {c : Connection} {v : Volume} {s : Session} {m : Message} {job : Job} {rest : List Job}

theorem joined_new : Joined .new := ⟨rfl, rfl, fun _ h => by cases h⟩

theorem Joined.stopReading (h : c.Joined) : c.stopReading.Joined := ⟨rfl, h.consumer, h.inbound⟩

theorem Joined.stopWorking (h : c.Joined) (s : Session) (v : Volume) : (c.stopWorking s v).1.Joined :=
  ⟨h.producer, rfl, fun _ h => by cases h⟩

theorem Joined.takeUp (h : c.Joined) (hi : c.queue.items = job :: rest) : (c.takeUp rest).Joined :=
  ⟨h.producer, h.consumer, fun job' hj => h.inbound job' (by rw [hi]; exact List.mem_cons_of_mem _ hj)⟩

theorem Joined.answerWith (h : c.Joined) (hs : c.session.isSome = true) (s : Session) (replies : List Message) :
    (c.answerWith s replies).Joined :=
  ⟨h.producer, h.consumer.trans hs, h.inbound⟩

theorem Joined.queued_cons (h : c.Joined) (hi : c.queue.items = job :: rest) :
    ∃ m, job = .inbound m ∧ c.queued = m :: (c.takeUp rest).queued := by
  obtain ⟨m, rfl⟩ := h.inbound job (by rw [hi]; exact List.mem_cons_self)
  exact ⟨m, rfl, by rw [queued, hi]; rfl⟩

theorem queued_of_nil (hi : c.queue.items = []) : c.queued = [] := by rw [queued, hi, List.filterMap_nil]

/-- A message is handed to the worker, or the reader stops as there is none. -/
theorem hand_cases (h : c.Joined) (m : Message) :
    (c.session.isSome = true ∧ c.hand (.inbound m) =
      { c with queue := { c.queue with items := c.queue.items ++ [.inbound m] } }) ∨
      (c.session = none ∧ c.hand (.inbound m) = c.stopReading) := by
  unfold hand Queue.enqueue
  cases hs : c.session with
  | none => simp [h.consumer, hs]
  | some s => simp [h.consumer, hs]

theorem buffer_hand (c : Connection) (job : Job) : (c.hand job).buffer = c.buffer := by
  unfold hand
  split <;> rfl

/-- The reader waits, or it meets something that is no message and stops, or it takes a message. -/
theorem readFrame_cases (u : Setup) (c : Connection) :
    ((c.reading = false ∨ c.waiting u = true) ∧ c.readFrame u = c) ∨
      (c.reading = true ∧ ∃ buffer, buffer.length ≤ c.buffer.length ∧
        c.readFrame u = { c with buffer := buffer }.stopReading ∧
        ∀ more, (Frame.takeAll u.config.maxMessageSize (c.buffer ++ more)).1 = []) ∨
      (c.reading = true ∧ ∃ m rest, rest.length < c.buffer.length ∧
        c.readFrame u = { c with buffer := rest }.hand (.inbound m) ∧
        ∀ more, (Frame.takeAll u.config.maxMessageSize (c.buffer ++ more)).1 =
          m :: (Frame.takeAll u.config.maxMessageSize (rest ++ more)).1) := by
  unfold readFrame waiting
  cases hr : c.reading with
  | false => exact Or.inl ⟨Or.inl rfl, rfl⟩
  | true =>
    cases hf : Frame.take u.config.maxMessageSize c.buffer with
    | incomplete => exact Or.inl ⟨Or.inr rfl, rfl⟩
    | refused e =>
      refine Or.inr (Or.inl ⟨rfl, c.buffer, Nat.le_refl _, rfl,
        fun more => Frame.takeAll_eq_nil fun m rest h => ?_⟩)
      rw [Frame.take_append_of_refused hf] at h
      cases h
    | frame content rest =>
      have hshort := Frame.length_lt_of_take hf
      cases content with
      | error e =>
        refine Or.inr (Or.inl ⟨rfl, rest, Nat.le_of_lt hshort, rfl,
          fun more => Frame.takeAll_eq_nil fun m rest' h => ?_⟩)
        rw [Frame.take_append_of_frame hf] at h
        cases h
      | ok m =>
        exact Or.inr (Or.inr ⟨rfl, m, rest, hshort, rfl,
          fun more => Frame.takeAll_of_frame (Frame.take_append_of_frame hf more)⟩)

/-- The worker rests, or it stops as nothing will come any more, or it answers a message, which may be the last. -/
theorem work_cases (h : c.Joined) (hs : c.session = some s) (u : Setup) (v : Volume) :
    (c.queue.items = [] ∧ c.reading = true ∧ c.work u v = (c, v)) ∨
      (c.queue.items = [] ∧ c.reading = false ∧ c.work u v = c.stopWorking s v) ∨
      ∃ m rest replies s' w, c.queue.items = .inbound m :: rest ∧
        ((c.work u v = ((c.takeUp rest).answerWith s' replies).stopWorking s' w ∧
            ∀ ms, converse u (m :: ms) s v = (replies, s'.close w) ∧ answered u (m :: ms) s v = [m]) ∨
          (c.work u v = ((c.takeUp rest).answerWith s' replies, w) ∧
            ∀ ms, converse u (m :: ms) s v = (replies ++ (converse u ms s' w).1, (converse u ms s' w).2) ∧
              answered u (m :: ms) s v = m :: answered u ms s' w)) := by
  unfold work Queue.dequeue
  rw [hs]
  cases hi : c.queue.items with
  | nil =>
    cases hr : c.reading with
    | true => exact Or.inl ⟨rfl, rfl, by simp [h.producer, hr]⟩
    | false => exact Or.inr (Or.inl ⟨rfl, rfl, by simp [h.producer, hr]⟩)
  | cons job rest =>
    obtain ⟨m, rfl, -⟩ := h.queued_cons hi
    refine Or.inr (Or.inr ?_)
    simp only [answer]
    rcases ha : s.answer u m v with ⟨e | d, s', w⟩
    · refine ⟨m, rest, [], s', w, rfl, Or.inl ⟨?_, fun ms => ?_⟩⟩
      · simp only [stopWorking, takeUp, answerWith, List.append_nil]
      · simp only [converse, answered, ha, and_self]
    · refine ⟨m, rest, d.replies, s', w, rfl, ?_⟩
      cases he : d.ends with
      | true =>
        refine Or.inl ⟨?_, fun ms => ?_⟩
        · simp only [he, ↓reduceIte, takeUp, answerWith]
        · simp only [converse, answered, ha, he, ↓reduceIte, and_self]
      | false =>
        refine Or.inr ⟨?_, fun ms => ?_⟩
        · simp only [he, Bool.false_eq_true, ↓reduceIte, takeUp, answerWith]
        · simp only [converse, answered, ha, he, Bool.false_eq_true, ↓reduceIte, and_self]

theorem work_of_stopped (hs : c.session = none) (u : Setup) (v : Volume) : c.work u v = (c, v) := by
  unfold work
  rw [hs]

end Activities
end Connection

end TreeReplica
