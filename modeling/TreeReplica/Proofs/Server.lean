import TreeReplica.Server
import TreeReplica.Proofs.Handlers
import TreeReplica.Proofs.Sample
import TreeReplica.Proofs.Stream

/-! A server and the connections that it serves. Each of them has a handler to itself (`Server.Tended`), so
    there are never more than the server has handlers, and what a connection has left to decode comes from its
    own peer: `Server.exclusive_handlers`. -/

namespace TreeReplica

/-! ### What a connection decodes -/

namespace Connection

variable {u : Setup} {limit : UInt64} {more more' : Bytes} {c d e : Connection}

/-- From `c` to `d`, `more` arrived, and some messages were taken from the front of what was there. -/
def Reads (limit : UInt64) (more : Bytes) (c d : Connection) : Prop :=
  d.reading = true → c.reading = true ∧ ∃ ms, Frame.Taken limit (c.buffer ++ more) ms d.buffer

theorem Reads.of_eq (reading : d.reading = true → c.reading = true) (buffer : d.buffer = c.buffer) :
    Reads limit [] c d :=
  fun hr => ⟨reading hr, [], by rw [List.append_nil, buffer]; exact .none⟩

theorem Reads.trans (h : Reads limit more c d) (h' : Reads limit more' d e) : Reads limit (more ++ more') c e := by
  intro hr
  obtain ⟨hd, ms', taken'⟩ := h' hr
  obtain ⟨hc, ms, taken⟩ := h hd
  exact ⟨hc, ms ++ ms', List.append_assoc _ _ _ ▸ (taken.append more').trans taken'⟩

theorem Reads.of_stopped (stopped : d.reading = false) : Reads limit more c d := fun hr => by
  rw [stopped] at hr
  cases hr

theorem reads_arrive (c : Connection) (bytes : Bytes) : Reads limit bytes c (c.arrive bytes) := by
  unfold arrive
  split
  · exact fun hr => ⟨hr, [], .none⟩
  · rename_i hr
    exact fun hr' => absurd hr' hr

theorem reads_hand (c : Connection) (job : Job) : Reads limit [] c (c.hand job) := by
  unfold hand
  split
  · exact .of_eq id rfl
  · exact .of_stopped rfl

theorem reads_hands (ms : List Message) (c : Connection) :
    Reads limit [] c (ms.foldl (fun c m => c.hand (.inbound m)) c) := by
  induction ms generalizing c with
  | nil => exact .of_eq id rfl
  | cons m ms ih => exact (reads_hand c _).trans (ih _)

theorem reads_readAll (u : Setup) (c : Connection) : Reads u.config.maxMessageSize [] c (c.readAll u) := by
  unfold readAll
  split
  · rename_i hr
    cases he : (Frame.takeAll u.config.maxMessageSize c.buffer).2.1 with
    | some e =>
      simp only [he, Option.isSome_some, ↓reduceIte]
      exact .of_stopped rfl
    | none =>
      simp only [he, Option.isSome_none, Bool.false_eq_true, ↓reduceIte]
      have taken : Reads u.config.maxMessageSize [] c
        { c with buffer := (Frame.takeAll u.config.maxMessageSize c.buffer).2.2 } :=
        fun _ => ⟨hr, (Frame.takeAll u.config.maxMessageSize c.buffer).1, by
          rw [List.append_nil]
          exact (Frame.taken_of_takeAll he).1⟩
      exact taken.trans (reads_hands _ _)
  · exact .of_eq id rfl

theorem reads_work (c : Connection) (v : Volume) : Reads limit [] c (c.work u v).1 := by
  have kept : (c.work u v).1.reading = c.reading ∧ (c.work u v).1.buffer = c.buffer := by
    unfold work
    split
    · exact ⟨rfl, rfl⟩
    · split
      · split <;> exact ⟨rfl, rfl⟩
      · split
        · exact ⟨rfl, rfl⟩
        · simp only
          split <;> exact ⟨rfl, rfl⟩
  exact .of_eq (fun hr => kept.1 ▸ hr) kept.2

theorem reads_workAll (c : Connection) (v : Volume) : Reads limit [] c (c.workAll u v).1 := by
  unfold workAll
  generalize List.range (c.queue.items.length + 1) = turns
  induction turns generalizing c v with
  | nil => exact .of_eq id rfl
  | cons turn turns ih => exact (reads_work c v).trans (ih _ _)

theorem reads_settle (c : Connection) (v : Volume) : Reads u.config.maxMessageSize [] c (c.settle u v).1 := by
  have worked := (reads_readAll u c).trans (reads_workAll (u := u) (c.readAll u) v)
  unfold settle
  generalize (c.readAll u).workAll u v = out at worked ⊢
  have ended : ∀ d : Connection, Reads u.config.maxMessageSize [] out.1 d → Reads u.config.maxMessageSize [] c d :=
    fun _ => worked.trans
  dsimp only
  split
  · exact ended _ (.of_stopped rfl)
  · exact ended _ (.of_eq id rfl)

theorem reads_hear (n : NewVersion) (c : Connection) : Reads limit [] c (c.hear u n) := by
  unfold hear
  split
  · exact reads_hand c _
  · exact .of_eq id rfl

theorem reads_hangUp (c : Connection) : Reads limit [] c (c.hangUp u) := by
  unfold hangUp
  split
  · exact .of_stopped rfl
  · exact .of_eq id rfl

end Connection

namespace Server

/-- The connection that a name stands for, while it is served. -/
def connection? (s : Server) (name : String) : Option Connection := (s.links.get? name).bind (·.connection)

/-- The names of the connections that are served. -/
def serving (s : Server) : List String := (s.links.entries.filter (·.2.connection.isSome)).map (·.1)

/-- What a server can come to, and for each name all bytes that arrived at the connection that it stands for.
    A connection gets a name that no other connection has while it is served. The volume can change by
    itself. -/
inductive Reaches (u : Setup) : Server → Volume → (String → Bytes) → Prop
  | start (v : Volume) : Reaches u (.new u.config) v fun _ => []
  | elsewhere {s : Server} {v : Volume} {arrived : String → Bytes} :
    Reaches u s v arrived → ∀ w, Reaches u s w arrived
  | connect {s : Server} {v : Volume} {arrived : String → Bytes} :
    Reaches u s v arrived → ∀ name, s.connection? name = none →
    Reaches u (s.connect name).2 v (Function.update arrived name [])
  | deliver {s : Server} {v : Volume} {arrived : String → Bytes} : Reaches u s v arrived → ∀ name bytes,
    Reaches u (s.deliver u name bytes v).1 (s.deliver u name bytes v).2
      (Function.update arrived name (arrived name ++ bytes))
  | hangUp {s : Server} {v : Volume} {arrived : String → Bytes} : Reaches u s v arrived → ∀ name,
    Reaches u (s.hangUp u name v).1 (s.hangUp u name v).2 arrived
  | publish {s : Server} {v : Volume} {arrived : String → Bytes} : Reaches u s v arrived → ∀ notice,
    Reaches u (s.publish u notice v).1 (s.publish u notice v).2 arrived
  | shutdown {s : Server} {v : Volume} {arrived : String → Bytes} : Reaches u s v arrived →
    Reaches u (s.shutdown u v).1 (s.shutdown u v).2 arrived
  | receive {s : Server} {v : Volume} {arrived : String → Bytes} : Reaches u s v arrived → ∀ name,
    Reaches u (s.receive name).2 v arrived
  | receiveAll {s : Server} {v : Volume} {arrived : String → Bytes} : Reaches u s v arrived → ∀ name,
    Reaches u (s.receiveAll name).2 v arrived

/-! ### Every connection has a handler -/

/-- Whoever is served has a handler, and what is in its buffer is what its own peer sent and was not taken yet. -/
structure Tended (u : Setup) (arrived : String → Bytes) (s : Server) : Prop where
  handlers : ∃ taken, s.handlers.Kept taken
  capacity : s.handlers.capacity = u.config.maxConnections.toNat
  names : s.links.Distinct
  buffers : ∀ name, (s.handlers.lent.get? name).map (·.buffer) = (s.connection? name).map (·.buffer)
  own : ∀ name c, s.connection? name = some c → c.reading = true →
    ∃ ms, Frame.Taken u.config.maxMessageSize (arrived name) ms c.buffer

variable {u : Setup} {s : Server} {v : Volume} {arrived : String → Bytes} {name : String}

theorem connection?_insert (handlers : Handlers) (links : Table String Link) (name other : String) (link : Link) :
    connection? ⟨handlers, links.insert name link⟩ other =
      if name = other then link.connection else connection? ⟨handlers, links⟩ other := by
  unfold connection?
  rw [Table.get?_insert]
  split <;> rfl

theorem tended_new (u : Setup) : Tended u (fun _ => []) (.new u.config) where
  handlers := ⟨[], Handlers.kept_new _⟩
  capacity := rfl
  names := Table.distinct_empty
  buffers _ := rfl
  own _ _ h := by cases h

section Tending
variable (T : Tended u arrived s)
include T

theorem Tended.lent_iff (name : String) : (s.handlers.lent.get? name).isSome = (s.connection? name).isSome := by
  have := congrArg Option.isSome (T.buffers name)
  rwa [Option.isSome_map, Option.isSome_map] at this

theorem Tended.serving_perm : s.serving.Perm s.handlers.lent.keys := by
  obtain ⟨taken, K⟩ := T.handlers
  have names : s.serving.Nodup := T.names.sublist (List.filter_sublist.map _)
  refine (List.perm_ext_iff_of_nodup names K.borrowers).mpr fun name => ?_
  rw [Table.mem_keys_iff, T.lent_iff, serving, List.mem_map]
  constructor
  · rintro ⟨⟨name, link⟩, hmem, rfl⟩
    obtain ⟨hmem, hsome⟩ := List.mem_filter.mp hmem
    rw [connection?, T.names.get?_of_mem hmem]
    exact hsome
  · intro h
    cases hlink : s.links.get? name with
    | none =>
      rw [connection?, hlink] at h
      cases h
    | some link =>
      rw [connection?, hlink] at h
      exact ⟨(name, link), List.mem_filter.mpr ⟨Table.mem_of_find hlink, h⟩, rfl⟩

theorem Tended.length_serving : s.serving.length = s.handlers.lent.size := by
  rw [T.serving_perm.length_eq]
  exact List.length_map _

/-- A peer is refused as all handlers are out, or it starts with nothing received. -/
theorem Tended.connect_cases (name : String) :
    (s.serving.length = u.config.maxConnections.toNat ∧ (s.handlers.lend name).1 = none ∧
        s.connect name = (false, ⟨s.handlers, s.links.insert name ⟨none, [atCapacity]⟩⟩)) ∨
      ∃ h handlers, s.serving.length < u.config.maxConnections.toNat ∧
      s.handlers.lend name = (some h, handlers) ∧ h.buffer = [] ∧
        s.connect name = (true, ⟨handlers, s.links.insert name ⟨some .new, []⟩⟩) := by
  obtain ⟨taken, K⟩ := T.handlers
  rw [T.length_serving, ← T.capacity]
  unfold Server.connect
  rcases K.lend name with ⟨full, hlend⟩ | ⟨h, room, hlend, clean, -, -, -⟩
  · exact Or.inl ⟨full, by rw [hlend], by rw [hlend]⟩
  · have hlend' : s.handlers.lend name = (some h, (s.handlers.lend name).2) := Prod.ext hlend rfl
    refine Or.inr ⟨h, _, room, hlend', clean, ?_⟩
    rw [hlend']
    simp only [clean]
    rfl

/-- What arrives for one name is nothing to the others. -/
theorem Tended.others (name : String) (bytes : Bytes) :
    ∀ other c, other ≠ name → s.connection? other = some c → c.reading = true →
    ∃ ms, Frame.Taken u.config.maxMessageSize (Function.update arrived name bytes other) ms c.buffer :=
  fun other c hne hc hr => by
  rw [Function.update_of_ne hne]
  exact T.own other c hc hr

theorem Tended.connect (fresh : s.connection? name = none) :
    Tended u (Function.update arrived name []) (s.connect name).2 := by
  obtain ⟨taken, K⟩ := T.handlers
  have others := T.others name []
  rcases T.connect_cases name with ⟨-, -, hout⟩ | ⟨h, handlers, -, hlend, clean, hout⟩
  · rw [hout]
    have same : ∀ other, connection? ⟨s.handlers, s.links.insert name ⟨none, [atCapacity]⟩⟩ other =
        s.connection? other := by
      intro other
      rw [connection?_insert]
      split
      · rename_i he
        rw [← he, fresh]
      · rfl
    refine ⟨⟨taken, K⟩, T.capacity, T.names.insert _ _, fun other => (T.buffers other).trans (by rw [same]), ?_⟩
    intro other c hc hr
    rw [same] at hc
    exact others other c (fun he => by rw [he, fresh] at hc; cases hc) hc hr
  · rcases K.lend name with ⟨-, hnone⟩ | ⟨h', -, hsome, -, capacity, lent, K'⟩
    · rw [hlend] at hnone
      cases hnone
    · rw [hlend] at hsome capacity lent K'
      cases hsome
      rw [hout]
      refine ⟨⟨_, K'⟩, capacity.trans T.capacity, T.names.insert _ _, fun other => ?_, fun other c hc hr => ?_⟩
      · rw [connection?_insert, lent]
        split
        · rw [Option.map_some, Option.map_some, clean]
          rfl
        · exact T.buffers other
      · rw [connection?_insert] at hc
        split at hc
        · rename_i he
          cases hc
          exact ⟨[], by rw [← he, Function.update_self]; exact .none⟩
        · rename_i hne
          exact others other c (Ne.symm hne) hc hr

/-- A connection does all it can after some bytes have come. -/
theorem Tended.run {f : Connection → Connection} {more : Bytes}
    (hf : ∀ c, Connection.Reads u.config.maxMessageSize more c (f c)) (name : String) (v : Volume) :
    Tended u (Function.update arrived name (arrived name ++ more)) (s.run u name f v).1 := by
  obtain ⟨taken, K⟩ := T.handlers
  have others := T.others name (arrived name ++ more)
  -- A name that is not served keeps its place whatever arrives for it.
  have idle : s.connection? name = none →
      Tended u (Function.update arrived name (arrived name ++ more)) s := fun hnone =>
    ⟨⟨taken, K⟩, T.capacity, T.names, T.buffers,
      fun other c hc => others other c (fun he => by rw [he, hnone] at hc; cases hc) hc⟩
  unfold Server.run
  split
  · rename_i hlink
    exact idle (by rw [connection?, hlink]; rfl)
  · rename_i hlink
    exact idle (by rw [connection?, hlink]; rfl)
  · rename_i c inbox hlink
    have hc : s.connection? name = some c := by rw [connection?, hlink]; rfl
    have reads := (hf c).trans (Connection.reads_settle (u := u) (f c) v)
    have own := T.own name c hc
    rcases hout : (f c).settle u v with ⟨d, w⟩
    rw [hout] at reads
    obtain ⟨h, hh⟩ : ∃ h, s.handlers.lent.get? name = some h :=
      Option.isSome_iff_exists.mp (by rw [T.lent_iff, hc]; rfl)
    have K' := K.update name (f := fun h => { h with buffer := d.buffer }) (fun _ => rfl) fun _ => rfl
    dsimp only
    cases hended : d.ended with
    | true =>
      simp only [↓reduceIte]
      refine ⟨⟨_, K'.takeBack name⟩, (Handlers.takeBack_capacity _ _).trans T.capacity,
        T.names.insert _ _, fun other => ?_, fun other e he hr => ?_⟩
      · rw [connection?_insert, Handlers.takeBack_lent, Handlers.hold]
        split
        · rfl
        · rename_i hne
          rw [Table.get?_update, if_neg hne]
          exact T.buffers other
      · rw [connection?_insert] at he
        split at he
        · cases he
        · rename_i hne
          exact others other e (Ne.symm hne) he hr
    | false =>
      simp only [Bool.false_eq_true, ↓reduceIte]
      refine ⟨⟨_, K'⟩, T.capacity, T.names.insert _ _, fun other => ?_, fun other e he hr => ?_⟩
      · rw [connection?_insert, Handlers.hold, Table.get?_update]
        split
        · rename_i heq
          rw [← heq, hh]
          rfl
        · exact T.buffers other
      · rw [connection?_insert] at he
        split at he
        · rename_i heq
          cases he
          obtain ⟨hr', ms', taken'⟩ := reads hr
          obtain ⟨ms, taken⟩ := own hr'
          rw [List.append_nil] at taken'
          exact ⟨ms ++ ms', by rw [← heq, Function.update_self]; exact (taken.append more).trans taken'⟩
        · rename_i hne
          exact others other e (Ne.symm hne) he hr

theorem Tended.silent {f : Connection → Connection}
    (hf : ∀ c, Connection.Reads u.config.maxMessageSize [] c (f c)) (name : String)
    (v : Volume) : Tended u arrived (s.run u name f v).1 := by
  have := T.run hf name v
  rwa [List.append_nil, Function.update_eq_self] at this

theorem Tended.hangUp (name : String) (v : Volume) : Tended u arrived (s.hangUp u name v).1 :=
  T.silent (fun c => (Connection.reads_readAll u c).trans (Connection.reads_hangUp _)) name v

/-- What keeps this for one name keeps it when all names take their turn. -/
theorem Tended.each {f : Server × Volume → String → Server × Volume}
    (hf : ∀ {s : Server} (name : String) (v : Volume), Tended u arrived s → Tended u arrived (f (s, v) name).1)
    (names : List String) (v : Volume) : Tended u arrived (names.foldl f (s, v)).1 := by
  induction names generalizing s v with
  | nil => exact T
  | cons name names ih => exact ih (hf name v T) _

theorem Tended.publish (notice : NewVersion) (v : Volume) : Tended u arrived (s.publish u notice v).1 :=
  T.each (fun name v T => T.silent (fun c => Connection.reads_hear notice c) name v) _ v

theorem Tended.shutdown (v : Volume) : Tended u arrived (s.shutdown u v).1 :=
  T.each (fun name v T => T.hangUp name v) _ v

/-- What a peer reads is no matter of handlers. -/
theorem Tended.inbox (name : String) {f : Link → Link} (hf : ∀ link, (f link).connection = link.connection) :
    Tended u arrived { s with links := s.links.update name f } := by
  have same : ∀ other, connection? { s with links := s.links.update name f } other = s.connection? other := by
    intro other
    unfold connection?
    rw [Table.get?_update]
    split
    · cases s.links.get? other with
      | none => rfl
      | some link => exact hf link
    · rfl
  exact ⟨T.handlers, T.capacity, T.names.update name f, fun other => (T.buffers other).trans (by rw [same]),
    fun other c hc => T.own other c (same other ▸ hc)⟩

end Tending

theorem Reaches.tended (r : Reaches u s v arrived) : Tended u arrived s := by
  induction r with
  | start => exact tended_new u
  | elsewhere _ _ T => exact T
  | connect _ name fresh T => exact T.connect fresh
  | deliver _ name bytes T => exact T.run (fun c => Connection.reads_arrive c bytes) name _
  | hangUp _ name T => exact T.hangUp name _
  | publish _ notice T => exact T.publish notice _
  | shutdown _ T => exact T.shutdown _
  | receive _ name T =>
    unfold Server.receive
    split
    · exact T
    · exact T.inbox name fun _ => rfl
    · exact T
    · exact T
  | receiveAll _ name T => exact T.inbox name fun _ => rfl

/-- Whatever borrowers do, in any order: every handler is free or out, and only once; the flags say which, and
    no check of them fails; nothing is handed out exactly while all handlers are out, and what is handed out
    is clean and counts, in 64 bits, how often it was. So a server serves no more connections than it has
    handlers for, and turns a peer away only then; a connection starts with nothing received, and what it has
    left to decode stands in its own peer's bytes, behind the frames that it took. -/
theorem exclusive_handlers (capacity : Nat) (ms : List Handlers.Move) (reached : Reaches u s v arrived) :
    let hs := Handlers.run ms (.new capacity)
    let given := Handlers.handedOut ms (.new capacity)
    ((hs.free ++ hs.lent.values).map (·.id)).Perm (List.range capacity) ∧
    hs.lent.Distinct ∧
    hs.inUse = (List.range capacity).map (fun id => decide (id ∈ hs.lent.values.map (·.id))) ∧
    hs.misuse = none ∧
    (∀ name, (hs.lend name).1 = none ↔ hs.lent.size = capacity) ∧
    (∀ h ∈ given, h.buffer = []) ∧
    (∀ h ∈ hs.free ++ hs.lent.values, h.served = .ofNat ((given.map (·.id)).count h.id)) ∧
    s.serving.Nodup ∧ s.serving.length = s.handlers.busy ∧ s.serving.length ≤ u.config.maxConnections.toNat ∧
    (∀ name, (s.connect name).1 = true ↔ s.serving.length < u.config.maxConnections.toNat) ∧
    (∀ name, (s.connect name).1 = true → (s.connect name).2.connection? name = some .new) ∧
    (∀ name c, s.connection? name = some c → (s.handlers.lent.get? name).map (·.buffer) = some c.buffer ∧
      (c.reading = true → ∃ ms, Frame.Taken u.config.maxMessageSize (arrived name) ms c.buffer)) := by
  intro hs given
  obtain ⟨K, hcapacity, clean⟩ := (Handlers.kept_new capacity).run ms
  have A : Handlers.Accounted (given.map (·.id)) hs.lent.values hs := by simpa using K.accounted
  have T := reached.tended
  obtain ⟨taken, KS⟩ := T.handlers
  have total := KS.accounted.length_add
  have size : s.handlers.lent.values.length = s.handlers.lent.size := List.length_map _
  have hcapacity : hs.capacity = capacity := hcapacity
  have length := T.length_serving
  have admits : ∀ name, (s.connect name).1 = true ↔ s.serving.length < u.config.maxConnections.toNat := by
    intro name
    rcases T.connect_cases name with ⟨full, -, hout⟩ | ⟨h, handlers, room, -, -, hout⟩
    · rw [hout]
      exact ⟨nofun, fun room => absurd room (by omega)⟩
    · rw [hout]
      exact ⟨fun _ => room, fun _ => rfl⟩
  refine ⟨?_, K.borrowers, ?_, A.rightly, ?_, clean, A.served, T.serving_perm.nodup_iff.mpr KS.borrowers,
    ?_, ?_, admits, ?_, ?_⟩
  · rw [List.map_append, ← hcapacity]
    exact A.ids
  · rw [← hcapacity]
    exact A.inUse_eq
  · intro name
    rcases K.lend name with ⟨full, hlend⟩ | ⟨h, room, hlend, -⟩
    · exact ⟨fun _ => full.trans hcapacity, fun _ => by rw [hlend]⟩
    · refine ⟨fun hnone => ?_, fun full => absurd full (Nat.ne_of_lt (hcapacity ▸ room))⟩
      rw [hlend] at hnone
      cases hnone
  · unfold Handlers.busy Handlers.available
    omega
  · have := T.capacity
    omega
  · intro name h
    rcases T.connect_cases name with ⟨-, -, hout⟩ | ⟨h, handlers, -, -, -, hout⟩
    · rw [hout] at h
      cases h
    · rw [hout, connection?_insert, if_pos rfl]
  · intro name c hc
    exact ⟨(T.buffers name).trans (by rw [hc]; rfl), T.own name c hc⟩

/-! ### The sample -/

/-- Two handlers and three borrowers: one finds no handler, and one goes without giving its handler back. -/
def sampleMoves : List Handlers.Move :=
  [.lend "p", .fill "p" [1, 9], .lend "q", .lend "r", .reassign "p", .lend "r", .drop "q", .lend "p"]

/-- A peer whose stream is cut inside its second frame. -/
def sampleServer : Server × Volume :=
  ((Server.new sampleSetup.config).connect "p").2.deliver sampleSetup "p"
    (Frame.encode (.ping 7) ++ [9, 3]) (sampleVolume [])

theorem sample_served : Reaches sampleSetup sampleServer.1 sampleServer.2
    (Function.update (Function.update (fun _ => []) "p" []) "p"
      (Function.update (fun _ => []) "p" [] "p" ++ (Frame.encode (.ping 7) ++ [9, 3]))) :=
  ((Reaches.start _).connect "p" rfl).deliver "p" _

theorem sample_exclusive_handlers :
    (Handlers.handedOut sampleMoves (.new 2)).map (·.id) = [0, 1, 0, 1] ∧
    (∀ h ∈ Handlers.handedOut sampleMoves (.new 2), h.buffer = []) ∧
    (Handlers.run sampleMoves (.new 2)).inUse = [true, true] ∧
    ((Handlers.run sampleMoves (.new 2)).lend "q").1 = none ∧
    sampleServer.1.serving = ["p"] ∧
    sampleServer.1.handlers.busy = 1 ∧
    ∃ c, sampleServer.1.connection? "p" = some c ∧ c.buffer = [9, 3] ∧
      ∃ ms, Frame.Taken sampleSetup.config.maxMessageSize (Frame.encode (.ping 7) ++ [9, 3]) ms [9, 3] := by
  obtain ⟨-, -, flags, -, full, clean, -, -, busy, -, -, -, own⟩ := exclusive_handlers 2 sampleMoves sample_served
  have serving : sampleServer.1.serving = ["p"] := by decide +kernel
  have held : (sampleServer.1.connection? "p").map (fun c => (c.buffer, c.reading)) = some ([9, 3], true) := by
    decide +kernel
  obtain ⟨c, hc, heq⟩ := Option.map_eq_some_iff.mp held
  obtain ⟨hbuffer, hreading⟩ := Prod.mk.inj heq
  refine ⟨by decide +kernel, clean, flags.trans (by decide +kernel), (full "q").mpr (by decide +kernel), serving,
    busy.symm.trans (by rw [serving]; rfl), c, hc, hbuffer, ?_⟩
  have := (own "p" c hc).2 hreading
  rwa [Function.update_self, Function.update_self, List.nil_append, hbuffer] at this

end Server

end TreeReplica
