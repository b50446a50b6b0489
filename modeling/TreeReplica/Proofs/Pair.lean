import TreeReplica.Proofs.Tracked

/-! Two nodes that are joined by one connection, on which messages arrive in the order in which they were sent.
    Only the users of one node, the editor, change a file. What the editor announces may be sent later, but in
    order. A failure that ends the connection ends it for both sides. -/

namespace TreeReplica
open Volume

structure Side where
  node : Node
  volume : Volume

namespace Side

def store (s : Side) : Store := s.node.setup.store

/-- What the record file of a path holds. -/
def record? (s : Side) (path : String) : Option (Except RecordFault Record) := s.store.recorded? path s.volume

def bytes? (s : Side) (path : String) : Option Bytes :=
  match s.store.resolve path with
  | .ok file => s.volume.bytesAt? file
  | .error _ => none

theorem tracked_iff {s : Side} {path : String} {r : Record} {bytes : Bytes} :
    Tracked s.store path s.volume r bytes ↔ s.record? path = some (.ok r) ∧ s.bytes? path = some bytes := by
  unfold bytes?
  constructor
  · rintro ⟨hrec, file, hr, hb⟩
    rw [hr]
    exact ⟨hrec, hb⟩
  · rintro ⟨hrec, hb⟩
    split at hb
    · rename_i file hr
      exact ⟨hrec, file, hr, hb⟩
    · cases hb

def session (s : Side) (link : String) : Session := s.node.session link

def answer (link : String) (m : Message) (s : Side) : Except Fault Answer × Side :=
  ((s.node.answer link m s.volume).1, ⟨(s.node.answer link m s.volume).2.1, (s.node.answer link m s.volume).2.2⟩)

def close (link : String) (s : Side) : Side := ⟨(s.node.close link s.volume).1, (s.node.close link s.volume).2⟩

end Side

/-! ### Answers -/

def replies : Except Fault Answer → List Message
  | .ok answer => answer.replies
  | .error _ => []

/-- Whether the connection ends with an answer. -/
def ends : Except Fault Answer → Bool
  | .ok answer => answer.ends
  | .error _ => true

namespace Side
variable {s : Side} {link path : String} {m : Message} {r r' : Record} {bytes : Bytes}

theorem orderly_answer (ho : s.node.Orderly s.volume) (link : String) (m : Message) :
    (s.answer link m).2.node.Orderly (s.answer link m).2.volume := ho.event (.message link m)

theorem session_answer (s : Side) (link : String) (m : Message) :
    (s.answer link m).2.session link = ((s.session link).answer s.node.setup m s.volume).2.1 := by
  show (s.node.setSession link _).session link = _
  rw [Node.session_setSession, if_pos rfl]
  rfl

/-- What a receiver puts in place when it hears a message: the content of no bytes that was announced, or what a
    transfer on the base has gathered, with the last chunk. -/
inductive Brings (s : Side) (link path : String) (base : UInt64) : Message → UInt64 → Bytes → Prop
  | nothing {notice : NewVersion} (hb : notice.base = base) (hz : notice.size = 0) :
    Brings s link path base (.newVersion notice) notice.client []
  | gathered {chunk : FileChunk} {x : Transfer} {whole : Bytes} (hx : (s.session link).transfers.get? path = some x)
    (pulls : x.pull = .peerEdit base) (hw : ∀ all, x.Gathers s.volume all →
      (chunk.client = x.client → chunk.data ≠ [] → chunk.data <+: all.drop chunk.offset.toNat) → whole = all) :
    Brings s link path base (.fileChunk chunk) x.client whole

/-- What a receiver with a synced record hears of this base or an earlier one. -/
def Hears (path : String) (base : UInt64) : Message → Prop
  | .newVersion notice => notice.path = path ∧ notice.base ≤ base
  | .fileChunk chunk => chunk.path = path
  | .nack _ => True
  | _ => False

theorem handle_hears {base : UInt64} (t : Tracked s.store path s.volume ⟨base, 0, .synced⟩ bytes)
    (ho : s.node.Orderly s.volume) (hm : Hears path base m) (link : String) :
    (Tracked s.store path ((s.session link).handle s.node.setup m s.volume).2.2 ⟨base, 0, .synced⟩ bytes ∧
        ∀ reply ∈ replies ((s.session link).handle s.node.setup m s.volume).1, Asks path reply) ∨
      ∃ client whole, Tracked s.store path ((s.session link).handle s.node.setup m s.volume).2.2
        ⟨base + 1, 0, .synced⟩ whole ∧
        ((s.session link).handle s.node.setup m s.volume).1 = .ok (.all [.commit path ⟨base, base + 1, client⟩]) ∧
        s.Brings link path base m client whole := by
  have staged := (ho.held link).staged (ho.distinct link)
  have asks : ∀ {answer : Except Fault (List Message)}, (∀ ms, answer = .ok ms → ∀ m ∈ ms, Asks path m) →
      ∀ reply ∈ replies (answer.map .all), Asks path reply := by
    intro answer h
    cases answer with
    | error e => exact fun _ hm => by cases hm
    | ok ms => exact h ms rfl
  cases m with
  | newVersion notice =>
    rcases t.announced rfl rfl staged s.node.setup.config.chunkSize hm.1 hm.2 with ⟨t', hr⟩ | ⟨hb, hz, t', hr⟩
    · exact Or.inl ⟨t', asks hr⟩
    · exact Or.inr ⟨notice.client, [], t', congrArg (·.map Answer.all) hr, .nothing hb hz⟩
  | fileChunk chunk =>
    rcases t.receiveChunk rfl (ho.held link) (ho.distinct link) hm with ⟨t', hr⟩ | ⟨x, whole, hx, pulls, t', hr, hw⟩
    · exact Or.inl ⟨t', asks hr⟩
    · exact Or.inr ⟨x.client, whole, t', congrArg (·.map Answer.all) hr, .gathered hx pulls hw⟩
  | nack nack => exact Or.inl ⟨t.staging (staged.drop nack.path s.volume).2, fun _ hr => by cases hr⟩
  | _ => exact hm.elim

/-- A receiver keeps record and file, and says no more than it asks, or it takes a version and commits it. -/
theorem hears {base : UInt64} (t : Tracked s.store path s.volume ⟨base, 0, .synced⟩ bytes)
    (ho : s.node.Orderly s.volume) (hm : Hears path base m) :
    (Tracked s.store path (s.answer link m).2.volume ⟨base, 0, .synced⟩ bytes ∧
        ∀ reply ∈ replies (s.answer link m).1, Asks path reply) ∨
      ∃ client whole, Tracked s.store path (s.answer link m).2.volume ⟨base + 1, 0, .synced⟩ whole ∧
        replies (s.answer link m).1 = [.commit path ⟨base, base + 1, client⟩] ∧
        s.Brings link path base m client whole := by
  show (Tracked s.store path ((s.session link).answer s.node.setup m s.volume).2.2 _ bytes ∧
      ∀ reply ∈ replies ((s.session link).answer s.node.setup m s.volume).1, Asks path reply) ∨
    ∃ client whole, Tracked s.store path ((s.session link).answer s.node.setup m s.volume).2.2 _ whole ∧
      replies ((s.session link).answer s.node.setup m s.volume).1 = _ ∧ s.Brings link path base m client whole
  have refused : ∀ {nack : Nack}, ∀ reply ∈ replies (.ok (.reply (.nack nack))),
      Asks path reply := fun reply hr => by
    rw [List.mem_singleton.mp hr]
    trivial
  have handled := handle_hears t ho hm link
  rcases (s.session link).answer_cases s.node.setup m s.volume with ⟨-, nack, -, h⟩ |
    ⟨-, a, c, w, hh, ⟨answer, rfl, h⟩ | ⟨e, answer, rfl, h, hanswer⟩⟩ <;> rw [h]
  · exact Or.inl ⟨t, refused⟩
  · rw [hh] at handled
    rcases handled with hkept | ⟨client, whole, t', hr, brings⟩
    · exact Or.inl hkept
    · exact Or.inr ⟨client, whole, t', by rw [hr]; rfl, brings⟩
  · rw [hh] at handled
    rcases handled with ⟨t', -⟩ | ⟨client, whole, -, hr, -⟩
    · refine Or.inl ⟨t', ?_⟩
      rcases hanswer with ⟨-, rfl⟩ | ⟨-, nack, -, rfl⟩
      · exact fun _ hm => by cases hm
      · exact refused
    · cases hr

/-- What an editor with this record and these bytes replies: pieces of its file, or refusals. -/
def Answers (path : String) (r : Record) (bytes : Bytes) : Message → Prop
  | .fileChunk chunk => chunk.path = path ∧ chunk.client = r.client ∧
      (chunk.data ≠ [] → chunk.data <+: bytes.drop chunk.offset.toNat)
  | .nack _ => True
  | _ => False

theorem handle_serves (t : Tracked s.store path s.volume r bytes) (idle : (s.session link).transfers = .empty)
    (hm : Asks path m) {a : Except Fault Answer} {c : Session} {w : Volume}
    (hh : (s.session link).handle s.node.setup m s.volume = (a, c, w)) :
    c = s.session link ∧ Tracked s.store path w r bytes ∧ w.locked = s.volume.locked ∧
    ∀ reply ∈ replies a, Answers path r bytes reply := by
  cases m with
  | requestChunk request =>
    obtain ⟨answer, w', hs, t', hlocked, hreply⟩ := t.serveChunk s.node.setup.config.chunkSize hm
    have hh' : (s.session link).handle s.node.setup (.requestChunk request) s.volume =
        (answer.map .reply, s.session link, w') := by
      show ((s.store.serveChunk s.node.setup.config.chunkSize request s.volume).1.map _, _,
        (s.store.serveChunk s.node.setup.config.chunkSize request s.volume).2) = _
      rw [hs]
    rw [hh'] at hh
    cases hh
    refine ⟨rfl, t', hlocked, fun reply hr => ?_⟩
    cases answer with
    | error e => cases hr
    | ok sent =>
      rw [List.mem_singleton.mp hr]
      obtain ⟨data, rfl, hpiece⟩ := hreply sent rfl
      exact ⟨rfl, rfl, hpiece⟩
  | nack nack =>
    have dropped : (s.session link).transfers.drop nack.path s.volume = ((s.session link).transfers, s.volume) := by
      rw [idle]
      rfl
    have hh' : (s.session link).handle s.node.setup (.nack nack) s.volume =
        (.ok .silent, s.session link, s.volume) := by
      show (_, { s.session link with transfers := ((s.session link).transfers.drop nack.path s.volume).1 },
        ((s.session link).transfers.drop nack.path s.volume).2) = _
      rw [dropped]
    rw [hh'] at hh
    cases hh
    exact ⟨rfl, t, rfl, fun _ hr => by cases hr⟩
  | _ => exact hm.elim

/-- An editor that is asked for something keeps record, file and session. -/
theorem serves (t : Tracked s.store path s.volume r bytes)
    (idle : (s.session link).transfers = .empty) (hm : Asks path m) :
    (s.answer link m).2.session link = s.session link ∧ Tracked s.store path (s.answer link m).2.volume r bytes ∧
      (s.answer link m).2.volume.locked = s.volume.locked ∧
      ∀ reply ∈ replies (s.answer link m).1, Answers path r bytes reply := by
  rw [session_answer]
  show ((s.session link).answer s.node.setup m s.volume).2.1 = _ ∧
    Tracked s.store path ((s.session link).answer s.node.setup m s.volume).2.2 r bytes ∧
      ((s.session link).answer s.node.setup m s.volume).2.2.locked = _ ∧
        ∀ reply ∈ replies ((s.session link).answer s.node.setup m s.volume).1, Answers path r bytes reply
  have refused : ∀ {nack : Nack}, ∀ reply ∈ replies (.ok (.reply (.nack nack))),
      Answers path r bytes reply := fun reply hr => by
    rw [List.mem_singleton.mp hr]
    trivial
  rcases (s.session link).answer_cases s.node.setup m s.volume with ⟨-, nack, -, h⟩ |
    ⟨-, a, c, w, hh, ⟨answer, rfl, h⟩ | ⟨e, answer, rfl, h, hanswer⟩⟩ <;> rw [h]
  · exact ⟨rfl, t, rfl, refused⟩
  · exact handle_serves t idle hm hh
  · obtain ⟨hc, t', hlocked, -⟩ := handle_serves t idle hm hh
    refine ⟨hc, t', hlocked, ?_⟩
    rcases hanswer with ⟨-, rfl⟩ | ⟨-, nack, -, rfl⟩
    · exact fun _ hr => by cases hr
    · exact refused

/-- An editor that hears a peer applies its commit. -/
theorem commits (t : Tracked s.store path s.volume r bytes) (unlocked : s.volume.locked = [])
    (heard : s.node.setup.config.requireAuth = true → (s.session link).authenticated = true) {c : Commit}
    (hc : r.commit c = .ok r') :
    (s.answer link (.commit path c)).1 = .ok .silent ∧
    (s.answer link (.commit path c)).2.session link = s.session link ∧
      Tracked s.store path (s.answer link (.commit path c)).2.volume r' bytes ∧
      (s.answer link (.commit path c)).2.volume.locked = [] := by
  obtain ⟨w, hw, t', hlocked⟩ := t.commits unlocked hc
  have gated : Session.gated s.node.setup (.commit path c) (s.session link) = false := by
    unfold Session.gated
    cases hauth : s.node.setup.config.requireAuth with
    | false => rfl
    | true => rw [heard hauth]; rfl
  have hh : (s.session link).answer s.node.setup (.commit path c) s.volume = (.ok .silent, s.session link, w) := by
    unfold Session.answer
    dsimp only
    rw [if_neg (by rw [gated]; simp)]
    have : (s.session link).handle s.node.setup (.commit path c) s.volume = (.ok .silent, s.session link, w) := by
      show ((s.store.committed path c s.volume).1.map _, _, (s.store.committed path c s.volume).2) = _
      rw [hw]
      rfl
    rw [this]
  rw [session_answer, hh]
  show ((s.session link).answer s.node.setup (.commit path c) s.volume).1 = _ ∧ _ ∧
    Tracked s.store path ((s.session link).answer s.node.setup (.commit path c) s.volume).2.2 r' bytes ∧
      ((s.session link).answer s.node.setup (.commit path c) s.volume).2.2.locked = []
  rw [hh]
  exact ⟨rfl, rfl, t', hlocked⟩

theorem session_close (s : Side) (link : String) : (s.close link).session link = .new := by
  show (s.node.close link s.volume).1.session link = .new
  rw [Node.session_close, if_pos rfl]

theorem closes (t : Tracked s.store path s.volume r bytes) (staged : (s.session link).transfers.Staged) :
    Tracked s.store path (s.close link).volume r bytes ∧ (s.close link).volume.locked = s.volume.locked :=
  ⟨t.staging (staged.abandonAll s.volume), (staged.abandonAll s.volume).locked⟩

end Side

/-! ### Pairs -/

structure Pair where
  editor : Side
  receiver : Side
  /-- What the editor has announced and not sent yet. -/
  waiting : List NewVersion
  toReceiver : List Message
  toEditor : List Message
  connected : Bool

namespace Pair

/-- The end of the connection: what is on its way is lost. -/
def close (link : String) (p : Pair) : Pair :=
  { p with editor := p.editor.close link, receiver := p.receiver.close link, toReceiver := [],
           toEditor := [], connected := false }

/-- The editor's users have changed files, which gave this volume, and report it. -/
def write (e : LocalEdit) (path : String) (v : Volume) (p : Pair) : Pair :=
  match e.report p.editor.store path v with
  | (.ok (_, some notice), w) => { p with editor := ⟨p.editor.node, w⟩, waiting := p.waiting ++ [notice] }
  | (_, w) => { p with editor := ⟨p.editor.node, w⟩ }

/-- The editor sends the oldest notice that waits, if its session sends notices of this path. -/
def send (link : String) (p : Pair) : Pair :=
  match p.connected, p.waiting with
  | true, notice :: rest =>
    { p with
      waiting := rest
      toReceiver := p.toReceiver ++ ((p.editor.session link).forward p.editor.node.setup notice).replies }
  | _, _ => p

def receive (link : String) (p : Pair) : Pair :=
  match p.toReceiver with
  | [] => p
  | m :: rest =>
    let (answer, side) := p.receiver.answer link m
    let p := { p with receiver := side, toReceiver := rest, toEditor := p.toEditor ++ replies answer }
    if ends answer then p.close link else p

def serve (link : String) (p : Pair) : Pair :=
  match p.toEditor with
  | [] => p
  | m :: rest =>
    let (answer, side) := p.editor.answer link m
    let p := { p with editor := side, toEditor := rest, toReceiver := p.toReceiver ++ replies answer }
    if ends answer then p.close link else p

section Steps
variable {link : String} {p : Pair} {m : Message} {rest : List Message}

theorem receive_of_nil (hm : p.toReceiver = []) : p.receive link = p := by
  unfold receive
  rw [hm]

theorem receive_of_cons (hm : p.toReceiver = m :: rest) :
    p.receive link =
      let q := { p with
        receiver := (p.receiver.answer link m).2, toReceiver := rest,
        toEditor := p.toEditor ++ replies (p.receiver.answer link m).1 }
      if ends (p.receiver.answer link m).1 then q.close link else q := by
  unfold receive
  rw [hm]

theorem serve_of_nil (hm : p.toEditor = []) : p.serve link = p := by
  unfold serve
  rw [hm]

theorem serve_of_cons (hm : p.toEditor = m :: rest) :
    p.serve link =
      let q := { p with
        editor := (p.editor.answer link m).2, toEditor := rest,
        toReceiver := p.toReceiver ++ replies (p.editor.answer link m).1 }
      if ends (p.editor.answer link m).1 then q.close link else q := by
  unfold serve
  rw [hm]

end Steps

/-- What a pair comes to with a number of writes: the editor's users change the path, which stays a file, and report
    it; notices are sent; both sides handle messages. -/
inductive Reaches (link path : String) (p : Pair) : Nat → Pair → Prop
  | start : Reaches link path p 0 p
  | write {k : Nat} {q : Pair} {v : Volume} {bytes : Bytes} (e : LocalEdit)
    (h : Reaches link path p k q) (he : e ≠ .deleted)
    (use : Kept (fun l => ¬RecordPlace l ∧ ¬StagingPlace l) q.editor.volume v)
    (written : Side.bytes? ⟨q.editor.node, v⟩ path = some bytes) (size : bytes.length ≤ maxSize) :
    Reaches link path p (k + 1) (q.write e path v)
  | send {k : Nat} {q : Pair} (h : Reaches link path p k q) : Reaches link path p k (q.send link)
  | receive {k : Nat} {q : Pair} (h : Reaches link path p k q) : Reaches link path p k (q.receive link)
  | serve {k : Nat} {q : Pair} (h : Reaches link path p k q) : Reaches link path p k (q.serve link)

/-- Both sides have the path at base `b`, with the same bytes, and nothing is going on. No lease is held at the
    editor, and it hears the receiver. -/
structure Settled (link path : String) (b : UInt64) (p : Pair) : Prop where
  editor : p.editor.record? path = some (.ok ⟨b, 0, .synced⟩)
  receiver : p.receiver.record? path = some (.ok ⟨b, 0, .synced⟩)
  bytes : ∃ bytes, p.editor.bytes? path = some bytes ∧ p.receiver.bytes? path = some bytes
  idle : ∀ name, (p.editor.session name).transfers = .empty ∧ (p.receiver.session name).transfers = .empty
  silent : p.waiting = [] ∧ p.toReceiver = [] ∧ p.toEditor = []
  unlocked : p.editor.volume.locked = []
  heard : p.editor.node.setup.config.requireAuth = true → (p.editor.session link).authenticated = true

/-- What the two sides agree on, whatever is still on its way. -/
structure Agrees (link path : String) (p : Pair) (e r : Record) : Prop where
  editor : p.editor.record? path = some (.ok e)
  receiver : p.receiver.record? path = some (.ok r)
  calm : ∀ state ∈ [e.state, r.state], state ≠ .conflict ∧ state ≠ .stale
  base : r.base.toNat = e.base.toNat ∨ r.base.toNat = e.base.toNat + 1
  committed : ∀ q c rest, p.toEditor = .commit q c :: rest →
    q = path ∧ (p.editor.answer link (.commit q c)).1 = .ok .silent ∧
      ∃ e', e.commit c = .ok e' ∧ (p.serve link).editor.record? path = some (.ok e')
  synced : e.state = .synced → r.state = .synced ∧ r.base = e.base ∧
    ∃ bytes, p.editor.bytes? path = some bytes ∧ p.receiver.bytes? path = some bytes

end Pair

end TreeReplica
