import TreeReplica.Proofs.Courses

/-! Runs in which chunks meet mishaps (`Endures`). Every transfer of a session was begun by an announcement
    and was fed by chunks that came to its session for its path, and in between its staging file was left
    alone. So what is true of a transfer and its staging file when it begins, and stays true when it is fed,
    is true of every transfer of a run (`Endures.transfers`). -/

namespace TreeReplica
open Volume

/-! ### Mishaps in a session -/

namespace Node

/-- A session handles a chunk, and something goes wrong on the disk. -/
def mishap (x : Mishap) (name : String) (chunk : FileChunk) (n : Node) (v : Volume) :
    Except Fault (List Message) × Node × Volume :=
  let s := n.session name
  let (answer, ts, v) := n.setup.store.receiveChunkAmid (some x) chunk s.transfers v
  (answer, n.setSession name { s with transfers := ts }, v)

/-- What a node and its volume come to, with all events that went well or were refused. Between them the files
    below the root change as their users please, but for records and staging files, and chunks fail for
    mishaps of the disk. -/
inductive Endures (n : Node) (v : Volume) : List Moment → Node → Volume → Prop
  | rest : Endures n v [] n v
  | event {h : List Moment} {m : Node} {w : Volume} (e : Event) (run : Endures n v h m w) :
    Endures n v (h ++ [⟨m, e, w⟩]) (m.step e w).1 (m.step e w).2
  | mishap {h : List Moment} {m : Node} {w : Volume} (x : Mishap) (name : String) (chunk : FileChunk)
    (run : Endures n v h m w) (failed : ∃ e, (m.mishap x name chunk w).1 = .error e) :
    Endures n v h (m.mishap x name chunk w).2.1 (m.mishap x name chunk w).2.2
  | use {h : List Moment} {m : Node} {w w' : Volume} (run : Endures n v h m w)
    (kept : Kept (fun l => ¬RecordPlace l ∧ ¬StagingPlace l) w w') : Endures n v h m w'

theorem endures_of_passes {n m : Node} {v w : Volume} {h : List Moment} (run : Passes n v h m w) :
    Endures n v h m w := by
  induction run with
  | rest => exact .rest
  | event e _ ih => exact ih.event e
  | use _ kept ih => exact ih.use kept

end Node

/-! ### Orderly nodes -/

theorem Course.turn {chunkSize : UInt32} {m : Message} {ts ts' : Transfers} {v w : Volume}
    {answer : Except Fault Answer} (h : Course chunkSize m ts v answer ts' w) : Turn m ts v ts' w := by
  cases h with
  | same unchanged restaged _ _ => exact .same unchanged restaged.spares
  | gone _ ht differs restaged _ _ => exact .gone ht differs restaged.spares
  | @begun notice p t hm pulls began _ _ _ differs restaged _ _ =>
    refine .begun hm pulls (began.requests chunkSize) differs ⟨restaged.next, fun l id content hp hq he => ?_⟩
    refine (restaged.same l id content hp fun h => h.elim (fun hl => ?_) hq).mpr he
    -- Where the new staging file is, there was none.
    rw [hl, began.unused.2] at he
    cases he
  | fed hm ht hd hf _ differs hw _ => exact .fed hm ht hd hf differs hw

namespace Node

section Orderly
variable {n n' m : Node} {v w : Volume} {h : List Moment}

theorem message_course (ho : n.Orderly v) (name : String) (msg : Message) :
    Course n.setup.config.chunkSize msg (n.session name).transfers v (n.answer name msg v).1
      ((n.step (.message name msg) v).1.session name).transfers (n.step (.message name msg) v).2 := by
  have course := answer_course (ho.held name) n.setup msg
  rw [n.message_transfers name msg v name, if_pos rfl]
  exact course

theorem mishap_course (ho : n.Orderly v) (x : Mishap) (name : String) (chunk : FileChunk) :
    Course n.setup.config.chunkSize (.fileChunk chunk) (n.session name).transfers v
      ((n.mishap x name chunk v).1.map .all) ((n.mishap x name chunk v).2.1.session name).transfers
      (n.mishap x name chunk v).2.2 := by
  have course := receiveChunkAmid_course (ho.held name) (some x) n.setup.store n.setup.config.chunkSize chunk
  unfold mishap
  dsimp only
  rw [session_setSession, if_pos rfl]
  exact course

theorem mishap_elsewhere (n : Node) (x : Mishap) {name name' : String} (hne : name ≠ name')
    (chunk : FileChunk) (v : Volume) :
    (n.mishap x name chunk v).2.1.session name' = n.session name' := by
  unfold mishap
  dsimp only
  rw [session_setSession, if_neg hne]

theorem message_elsewhere (n : Node) {name name' : String} (hne : name ≠ name') (msg : Message) (v : Volume) :
    ((n.step (.message name msg) v).1.session name').transfers = (n.session name').transfers := by
  rw [n.message_transfers name msg v name', if_neg hne]

/-- A course of one session leaves all sessions orderly. -/
theorem Orderly.course {chunkSize : UInt32} {msg : Message} {answer : Except Fault Answer}
    {name : String} (ho : n.Orderly v)
    (course : Course chunkSize msg (n.session name).transfers v answer (n'.session name).transfers w)
    (elsewhere : ∀ name', name ≠ name' → (n'.session name').transfers = (n.session name').transfers) :
    n'.Orderly w :=
  ho.turn course.turn fun name' => by
    by_cases hname : name = name'
    · subst hname
      rw [if_pos rfl]
    · rw [if_neg hname, elsewhere name' hname]

theorem Orderly.mishap (ho : n.Orderly v) (x : Mishap) (name : String) (chunk : FileChunk) :
    (n.mishap x name chunk v).2.1.Orderly (n.mishap x name chunk v).2.2 :=
  ho.course (mishap_course ho x name chunk) fun _ hne => by rw [n.mishap_elsewhere x hne chunk v]

theorem Endures.orderly (run : Endures n v h m w) (start : n.Orderly v) :
    m.Orderly w ∧ ∀ x ∈ h, x.node.Orderly x.volume := by
  induction run with
  | rest => exact ⟨start, fun _ hx => by cases hx⟩
  | event e _ ih =>
    refine ⟨ih.1.event e, fun x hx => ?_⟩
    rcases List.mem_append.mp hx with hx | hx
    · exact ih.2 x hx
    · rw [List.mem_singleton.mp hx]
      exact ih.1
  | mishap x name chunk _ _ ih => exact ⟨ih.1.mishap x name chunk, ih.2⟩
  | use _ kept ih => exact ⟨ih.1.use kept, ih.2⟩

theorem Endures.setup (run : Endures n v h m w) : m.setup = n.setup := by
  induction run with
  | rest => rfl
  | event e _ ih => cases e <;> exact ih
  | mishap _ _ _ _ _ ih => exact ih
  | use _ _ ih => exact ih

end Orderly

end Node

/-! ### Where transfers come from -/

namespace Moment

/-- What the node has become after an event. -/
def next (x : Moment) : Node := (x.node.step x.event x.volume).1

/-- The chunk of a path that a session's transfer of it took: it came with data and was not refused. -/
def accepted? (x : Moment) (name path : String) : Option FileChunk :=
  match x.event, x.answer? with
  | .message name' (.fileChunk chunk), some answer =>
    if name' = name ∧ chunk.path = path ∧ chunk.data ≠ [] ∧
      answer.replies.all (·.kind ≠ .nack) then some chunk else none
  | _, _ => none

/-- An event leaves a session's transfer of a path as it is. -/
structure Leaves (x : Moment) (name path : String) (t : Transfer) : Prop where
  before : (x.node.session name).transfers.get? path = some t
  after : (x.next.session name).transfers.get? path = some t
  accepts : x.accepted? name path = none

/-- With an announcement a session's transfer begins, and all of it is asked for. -/
structure Begins (x : Moment) (name : String) (notice : NewVersion) (p : Pull) (t : Transfer) : Prop where
  event : x.event = .message name (.newVersion notice)
  pulls : p = .catchUp notice.base ∨ p = .peerEdit notice.base
  began : Transfer.Begun notice p x.volume x.after t
  empty : t.outstanding = .empty
  size : notice.size ≠ 0
  bounded : notice.size.toNat ≤ maxSize
  asks : x.answer? = some (.all ((t.requests x.node.setup.config.chunkSize).1.map .requestChunk))
  held : (x.next.session name).transfers.get? notice.path = some (t.requests x.node.setup.config.chunkSize).2

/-- A chunk feeds a session's transfer, which is not complete with it. -/
structure Feeds (x : Moment) (name : String) (chunk : FileChunk) (t : Transfer) : Prop where
  event : x.event = .message name (.fileChunk chunk)
  held : (x.node.session name).transfers.get? chunk.path = some t
  data : chunk.data ≠ []
  fault : t.fault? chunk = none
  incomplete : (t.note chunk).2.complete = false
  asks : x.answer? = some (.all ((t.note chunk).1.toList.map .requestChunk))
  after : (x.next.session name).transfers.get? chunk.path = some (t.note chunk).2

section Moment
variable {x : Moment} {name path : String} {chunk : FileChunk} {t : Transfer}

theorem answer?_message {msg : Message} (he : x.event = .message name msg) :
    x.answer? = (x.node.answer name msg x.volume).1.toOption := by
  unfold answer?
  rw [he]

theorem accepted?_of_refusing
    (he : ∀ chunk, x.event = .message name (.fileChunk chunk) → chunk.path = path → chunk.data ≠ [] →
    Refusing (x.node.answer name (.fileChunk chunk) x.volume).1) : x.accepted? name path = none := by
  unfold accepted?
  split
  · rename_i name' chunk answer hevent hanswer
    split
    · rename_i hc
      obtain ⟨rfl, hpath, hd, hall⟩ := hc
      rw [answer?_message hevent] at hanswer
      cases ha : (x.node.answer name' (.fileChunk chunk) x.volume).1 with
      | error e =>
        rw [ha] at hanswer
        cases hanswer
      | ok a =>
        obtain ⟨nack, rfl⟩ := he chunk hevent hpath hd a ha
        rw [ha] at hanswer
        cases hanswer
        simp [Answer.reply, Message.kind] at hall
    · rfl
  · rfl

theorem Feeds.accepted? (f : x.Feeds name chunk t) : x.accepted? name chunk.path = some chunk := by
  unfold Moment.accepted?
  rw [f.event, f.asks]
  dsimp only
  rw [if_pos ⟨rfl, rfl, f.data, by simp [Answer.all, Message.kind]⟩]

end Moment

end Moment

/-! ### Every transfer of a run -/

namespace Node

section Traces
variable {n n' : Node} {v w : Volume} {chunkSize : UInt32} {msg : Message} {answer : Except Fault Answer}
  {name : String}

/-- A transfer after a course is one that was left alone, or it has just begun, or it was fed. -/
theorem Orderly.traces (ho : n.Orderly v)
    (course : Course chunkSize msg (n.session name).transfers v answer (n'.session name).transfers w)
    (elsewhere : ∀ name', name ≠ name' → (n'.session name').transfers = (n.session name').transfers)
    {name' path : String} {t' : Transfer} (ht : (n'.session name').transfers.get? path = some t') :
    ((n.session name').transfers.get? path = some t' ∧ w.read? t'.staging = v.read? t'.staging ∧
        (name = name' → ∀ chunk, msg = .fileChunk chunk → chunk.path = path →
          chunk.data ≠ [] → Refusing answer)) ∨
      (name = name' ∧ ∃ notice p t, notice.path = path ∧ t' = (t.requests chunkSize).2 ∧
        msg = .newVersion notice ∧
        (p = .catchUp notice.base ∨ p = .peerEdit notice.base) ∧ Transfer.Begun notice p v w t ∧
        t.outstanding = .empty ∧
        notice.size ≠ 0 ∧ notice.size.toNat ≤ maxSize ∧
        answer = .ok (.all ((t.requests chunkSize).1.map .requestChunk))) ∨
      name = name' ∧ ∃ chunk t, chunk.path = path ∧ t' = (t.note chunk).2 ∧ msg = .fileChunk chunk ∧
        (n.session name).transfers.get? chunk.path = some t ∧ chunk.data ≠ [] ∧ t.fault? chunk = none ∧
        (t.note chunk).2.complete = false ∧ w = v.modify t.staging (·.write chunk.offset.toNat chunk.data) ∧
        answer = .ok (.all ((t.note chunk).1.toList.map .requestChunk)) := by
  -- What another transfer has staged is read as before.
  have read : ∀ {Q : Location → Prop} {q : String} {t : Transfer}, Restaged Q v w →
      (n.session name').transfers.get? q = some t → ¬Q t.staging.location → w.read? t.staging = v.read? t.staging :=
    fun restaged ht hq => restaged.read? (ho.held name' _ _ ht).2.1 hq
  by_cases hname : name = name'
  · subst hname
    cases course with
    | same unchanged restaged _ refused =>
      rw [unchanged] at ht
      exact Or.inl ⟨ht, read restaged ht id, fun _ chunk hm _ hd => refused chunk hm hd⟩
    | @gone key t hm hold differs restaged _ _ =>
      rw [differs.get] at ht
      split at ht
      · cases ht
      rename_i hkey
      refine Or.inl ⟨ht, read restaged ht fun he => hkey (ho.apart ht hold he).2.symm, fun _ chunk hc hpath => ?_⟩
      subst hc
      exact absurd ((Option.some.inj hm).symm.trans hpath) hkey
    | @begun notice p t hm pulls began empty size bounded differs restaged _ asks =>
      rw [differs.get] at ht
      split at ht
      · rename_i hkey
        cases ht
        exact Or.inr (Or.inl ⟨rfl, notice, p, t, hkey, rfl, hm, pulls, began, empty, size, bounded, asks⟩)
      rename_i hkey
      refine Or.inl ⟨ht, read restaged ht fun hq => ?_, fun _ chunk hc => by rw [hm] at hc; cases hc⟩
      rcases hq with he | ⟨old, hold, he⟩
      · obtain ⟨-, -, content, hread⟩ := ho.held name path t' ht
        have hfree := began.unused.2
        rw [← he, read?_eq_some.mp hread] at hfree
        cases hfree
      · exact hkey (ho.apart ht hold he).2.symm
    | @fed chunk t hm hold hd hf incomplete differs hw asks =>
      rw [differs.get] at ht
      split at ht
      · rename_i hkey
        cases ht
        exact Or.inr (Or.inr ⟨rfl, chunk, t, hkey, rfl, hm, hold, hd, hf, incomplete, hw, asks⟩)
      rename_i hkey
      have restaged : Restaged (· = t.staging.location) v w := hw ▸ (modify_kept _).restaged fun _ _ => id
      refine Or.inl ⟨ht, read restaged ht fun he => hkey (ho.apart ht hold he).2.symm, fun _ chunk' hc hpath => ?_⟩
      rw [hm] at hc
      cases hc
      exact absurd hpath hkey
  · rw [elsewhere name' hname] at ht
    obtain ⟨_, _, -, spares, -⟩ := course.turn.touches (ho.held name)
    obtain ⟨-, hp, content, hread⟩ := ho.held name' path t' ht
    refine Or.inl ⟨ht, ?_, fun h => absurd h hname⟩
    rw [hread]
    refine spares.read? hp ?_ hread
    rintro ⟨old, hold, he⟩
    exact hname (ho.apart ht hold he).1.symm

end Traces

section Transfers
variable {u : Setup} {m : Node} {v w : Volume} {h : List Moment}

/-- What is true of every transfer that begins, and stays true of one that is left alone or fed, is true of
    every transfer. -/
theorem Endures.transfers {I : List Moment → String → String → Transfer → Content → Prop}
    (run : Endures ⟨u, .empty⟩ v h m w)
    (stays : ∀ {h x name path t content}, x.Leaves name path t → I h name path t content →
      I (h ++ [x]) name path t content)
    (begins : ∀ {h x name notice p t content}, x.node.setup = u → x.Begins name notice p t →
      x.after.read? t.staging = some content →
      I (h ++ [x]) name notice.path (t.requests u.config.chunkSize).2 content)
    (feeds : ∀ {h x name chunk t content}, x.Feeds name chunk t → I h name chunk.path t content →
      I (h ++ [x]) name chunk.path (t.note chunk).2 (content.write chunk.offset.toNat chunk.data))
    {name path : String} {t : Transfer} (ht : (m.session name).transfers.get? path = some t) :
    ∃ content, w.read? t.staging = some content ∧ I h name path t content := by
  induction run generalizing name path t with
  | rest => cases ht
  | @event h m w e run ih =>
    have ho := (run.orderly (orderly_start u v)).1
    cases e with
    | edit e p =>
      obtain ⟨content, hread, hI⟩ := ih ht
      have restaged : Restaged (fun _ => False) w (m.step (.edit e p) w).2 := report_restaged e m.setup.store p w
      refine ⟨content, ?_, stays ⟨ht, ht, rfl⟩ hI⟩
      rw [restaged.read? (ho.held name path t ht).2.1 id, hread]
    | close name' =>
      obtain ⟨hold, hq⟩ := ho.closed ht
      obtain ⟨content, hread, hI⟩ := ih hold
      exact ⟨content, (m.close_spares name' w).read? (ho.held name path t hold).2.1 hq hread,
        stays ⟨hold, ht, rfl⟩ hI⟩
    | message name' msg =>
      rcases ho.traces (message_course ho name' msg) (fun _ hne => m.message_elsewhere hne msg w) ht with
        ⟨hold, hsame, refusing⟩ |
        ⟨rfl, notice, p, t, rfl, rfl, rfl, pulls, began, empty, size, bounded, asks⟩ |
        ⟨rfl, chunk, t, rfl, rfl, rfl, hold, hd, hf, incomplete, hw, asks⟩
      · obtain ⟨content, hread, hI⟩ := ih hold
        refine ⟨content, hsame.trans hread, stays ⟨hold, ht, ?_⟩ hI⟩
        refine Moment.accepted?_of_refusing fun chunk he hpath hd => ?_
        cases he
        exact refusing rfl chunk rfl hpath hd
      · obtain ⟨outstanding, hreq⟩ := t.requests_snd m.setup.config.chunkSize
        obtain ⟨content, hread, -⟩ := began.blank
        refine ⟨content, by rw [hreq]; exact hread, ?_⟩
        rw [run.setup]
        refine begins (x := ⟨m, .message name' (.newVersion notice), w⟩) run.setup
          ⟨rfl, pulls, began, empty, size, bounded, ?_, ht⟩ hread
        rw [Moment.answer?_message rfl, asks]
        rfl
      · obtain ⟨content, hread, hI⟩ := ih hold
        refine ⟨content.write chunk.offset.toNat chunk.data, ?_, ?_⟩
        · rw [Transfer.staging_note, hw, read?_eq_some, lookup_modify, hread]
          exact if_pos rfl
        · refine feeds (x := ⟨m, .message name' (.fileChunk chunk), w⟩) ⟨rfl, hold, hd, hf, incomplete, ?_, ht⟩ hI
          rw [Moment.answer?_message rfl, asks]
          rfl
  | @mishap h m w x name' chunk run failed ih =>
    have ho := (run.orderly (orderly_start u v)).1
    obtain ⟨e, he⟩ := failed
    have course := mishap_course ho x name' chunk
    rw [he] at course
    rcases ho.traces course (fun _ hne => by rw [m.mishap_elsewhere x hne chunk w]) ht with ⟨ht, hsame, -⟩ |
      ⟨-, _, _, _, -, -, -, -, -, -, -, -, asks⟩ | ⟨-, _, _, -, -, -, -, -, -, -, -, asks⟩
    · obtain ⟨content, hread, hI⟩ := ih ht
      exact ⟨content, hsame.trans hread, hI⟩
    · cases asks
    · cases asks
  | @use h m w w' run kept ih =>
    have ho := (run.orderly (orderly_start u v)).1
    obtain ⟨content, hread, hI⟩ := ih ht
    have restaged : Restaged (fun _ => False) w w' := kept.restaged fun _ hp hl => hl.2 hp
    exact ⟨content, by rw [restaged.read? (ho.held name path t ht).2.1 id, hread], hI⟩

end Transfers

end Node

end TreeReplica
