import TreeReplica.Proofs.Agreement
import TreeReplica.Proofs.Transfer.Asking

/-! A receiver that is level pulls what is announced and asks for all of it. What it is answered takes the
    transfer on, and the few messages at which it gives a notice up can be told before they are handled
    (`Side.late`, `Side.drops`, `Side.fails`). -/

namespace TreeReplica
open Volume

/-! ### A receiver that is level -/

section Level
variable {s : Store} {path : String} {v : Volume} {base : UInt64} {bytes : Bytes} {notice : NewVersion}
  {t x : Transfer}

theorem Record.plan_of_level (hc : notice.client ≠ 0) :
    (⟨notice.base, 0, .synced⟩ : Record).plan notice = .pull (.peerEdit notice.base) := by
  simp [Record.plan, Record.observation, Record.pending, RecordState.terminal, hc]

theorem Record.settle_of_level (hp : t.pull = .peerEdit base) (why : Staleness) :
    t.settle ⟨base, 0, .synced⟩ ≠ .error why := by
  unfold Transfer.settle
  rw [hp]
  simp [Record.pending, RecordState.terminal]

/-- A level receiver pulls what is announced, or takes content of no bytes at once. -/
theorem Tracked.begins (tracked : Tracked s notice.path v ⟨notice.base, 0, .synced⟩ bytes) (hc : notice.client ≠ 0)
    (chunkSize : UInt32) (ts : Transfers) :
    (∃ e, (s.announced chunkSize notice ts v).1 = .error e ∧ ∀ why, e ≠ .stale why) ∨
      (∃ x w, s.announced chunkSize notice ts v =
          (.ok ((x.requests chunkSize).1.map .requestChunk), ts.add (x.requests chunkSize).2 w) ∧
        Transfer.Begun notice (.peerEdit notice.base) v w x ∧ x.outstanding = .empty ∧ notice.size ≠ 0) ∨
      (s.announced chunkSize notice ts v).1 =
        .ok [.commit notice.path ⟨notice.base, notice.base + 1, notice.client⟩] := by
  have plan := Record.plan_of_level hc
  have same := (Record.announced_of_synced (r := ⟨notice.base, 0, .synced⟩) rfl rfl (UInt64.le_refl notice.base)).1
  rcases s.announced_cases chunkSize notice ts v with ⟨e, w, ha, hw⟩ | ⟨σ, fresh, r, w, ⟨answer, hw, hnone, hl⟩ |
    ⟨p, x, hplan, hz, hw, hl, began, empty⟩ |
    ⟨p, x, r', replies, file, content, hplan, -, hw, hpath, -, hclient, hset, hl, hr, hf, -⟩⟩
  · rw [hw]
    exact Or.inl ⟨e, rfl, Store.not_stale_of_acquire_error ha⟩
  · obtain ⟨-, rfl, -⟩ := tracked.leased hl fun h => hl.leads.file_not_staging h.1
    rcases hnone with ⟨-, hnone⟩ | ⟨e, rfl, hstale⟩
    · exact absurd plan (hnone _)
    · rw [hw]
      refine Or.inl ⟨e, rfl, fun why he => ?_⟩
      rcases hstale why he with hrefuse | ⟨x, hpull, hset⟩
      · rw [plan] at hrefuse
        cases hrefuse
      · rw [plan] at hpull
        rw [same] at hset
        exact Record.settle_of_level (Plan.pull.inj hpull).symm why hset
  · obtain ⟨-, rfl, -⟩ := tracked.leased hl fun h => hl.leads.file_not_staging h.1
    rw [plan] at hplan
    cases hplan
    exact Or.inr (Or.inl ⟨x, w, hw, began, empty, hz⟩)
  · obtain ⟨rfl, -⟩ := tracked.installed hl hr hf
    rw [same] at hset
    obtain ⟨-, -, rfl⟩ := Record.settle_of_synced rfl hset
    rw [hw, hclient, hpath]
    exact Or.inr (Or.inr rfl)

/-- A level receiver keeps a good chunk of what it pulls and asks for the rest of its range, or it takes the
    whole. -/
theorem Tracked.feeds (tracked : Tracked s path v ⟨base, 0, .synced⟩ bytes) {ts : Transfers} (hts : ts.Held v)
    (hx : ts.get? path = some x) (pulls : x.pull = .peerEdit base) {chunk : FileChunk} (hp : chunk.path = path)
    (hd : chunk.data ≠ []) (hf : x.fault? chunk = none) :
    (∃ e, (s.receiveChunk chunk ts v).1 = .error e ∧ ∀ why, e ≠ .stale why) ∨
      ((x.note chunk).2.complete = false ∧ (s.receiveChunk chunk ts v).2.1.get? path = some (x.note chunk).2 ∧
        (s.receiveChunk chunk ts v).1 = .ok ((x.note chunk).1.toList.map .requestChunk)) ∨
      (s.receiveChunk chunk ts v).1 = .ok [.commit path ⟨base, base + 1, x.client⟩] := by
  subst hp
  obtain ⟨hpath, hplace, -⟩ := hts _ _ hx
  rcases s.receiveChunk_cases chunk ts v with ⟨hnone, -⟩ |
    ⟨x', hx', ⟨hbad, -⟩ | ⟨-, -, ⟨hc, hw⟩ | ⟨-, answer, w, hi, hw⟩⟩⟩
  · rw [hx] at hnone
    cases hnone
  · rw [hx] at hx'
    cases hx'
    rcases hbad with h | h
    · exact absurd h hd
    · exact absurd hf h
  · rw [hx] at hx'
    cases hx'
    rw [hw]
    exact Or.inr (Or.inl ⟨hc, by rw [Table.get?_insert, if_pos rfl], rfl⟩)
  · rw [hx] at hx'
    cases hx'
    rw [hw]
    have hpath' : (x.note chunk).2.path = chunk.path := (x.path_note chunk).trans hpath
    have hplace' : StagingPlace (x.note chunk).2.staging.location := x.staging_note chunk ▸ hplace
    have tracked' := tracked.staging (modify_staging v hplace (·.write chunk.offset.toNat chunk.data))
    rcases s.install_cases (x.note chunk).2 _ hplace' with ⟨e, w', ha, hw'⟩ |
      ⟨σ, fresh, r, w', ⟨e, hw', hl, hstale⟩ |
      ⟨r', replies, file, content, hw', hset, hl, hr, -, hfind⟩⟩ <;> rw [hi] at hw' <;> cases hw'
    · exact Or.inl ⟨e, rfl, Store.not_stale_of_acquire_error ha⟩
    · rw [hpath'] at hl
      obtain ⟨-, rfl, -⟩ := tracked'.leased hl fun h => hl.leads.file_not_staging (h ▸ hplace')
      exact Or.inl ⟨e, rfl, fun why he =>
        Record.settle_of_level ((x.pull_note chunk).trans pulls) why (hstale why he)⟩
    · rw [hpath'] at hl hr
      obtain ⟨rfl, -⟩ := tracked'.installed hl hr hfind
      obtain ⟨-, -, rfl⟩ := Record.settle_of_synced rfl hset
      rw [hpath', x.client_note]
      exact Or.inr (Or.inr rfl)

end Level

/-! ### Answers -/

namespace Side
variable {s : Side} {link path : String} {m : Message} {r : Record} {bytes : Bytes} {base client : UInt64}
  {x : Transfer}

/-- Whether a side refuses a message for another reason than that it is stale. -/
def fails (link : String) (m : Message) (s : Side) : Bool :=
  (replies (s.answer link m).1).any fun
    | .nack nack => nack.code ≠ .stale
    | _ => false

def Breaks (link : String) (m : Message) (s : Side) : Prop :=
  s.fails link m = true ∨ ends (s.answer link m).1 = true

theorem breaks_of_error {e : Fault} (hh : ((s.session link).handle s.node.setup m s.volume).1 = .error e)
    (hstale : ∀ why, e ≠ .stale why) : s.Breaks link m := by
  have ha : (s.answer link m).1 = ((s.session link).answer s.node.setup m s.volume).1 := rfl
  unfold Breaks fails
  rw [ha]
  rcases (s.session link).answer_cases s.node.setup m s.volume with ⟨-, nack, hcode, h⟩ |
    ⟨-, a, c, w, hh', ⟨answer, rfl, h⟩ | ⟨e', answer, rfl, h, ⟨-, rfl⟩ | ⟨-, nack, hcode, rfl⟩⟩⟩ <;>
    rw [h]
  · exact Or.inl (by simp [replies, Answer.reply, hcode])
  · rw [hh'] at hh
    cases hh
  · exact Or.inr rfl
  · rw [hh'] at hh
    cases hh
    have hc : nack.code ≠ .stale := fun hc => by
      obtain ⟨why, he⟩ := hcode hc
      exact hstale why he
    exact Or.inl (by simp [replies, Answer.reply, hc])

theorem answered {answer : Answer} (hh : ((s.session link).handle s.node.setup m s.volume).1 = .ok answer) :
    s.Breaks link m ∨ (s.answer link m).1 = .ok answer ∧
      (s.answer link m).2.session link = ((s.session link).handle s.node.setup m s.volume).2.1 := by
  have hs := s.session_answer link m
  have ha : (s.answer link m).1 = ((s.session link).answer s.node.setup m s.volume).1 := rfl
  unfold Breaks fails
  rw [ha, hs]
  rcases (s.session link).answer_cases s.node.setup m s.volume with ⟨-, nack, hcode, h⟩ |
    ⟨-, a, c, w, hh', ⟨answer', rfl, h⟩ | ⟨e, answer', rfl, h, -⟩⟩ <;> rw [h]
  · exact Or.inl (Or.inl (by simp [replies, Answer.reply, hcode]))
  · rw [hh'] at hh ⊢
    cases hh
    exact Or.inr ⟨rfl, rfl⟩
  · rw [hh'] at hh
    cases hh

/-- A version on this base, with this edit count, is being pulled, and each range of it that did not arrive is
    awaited. -/
structure Pulling (s : Side) (link path : String) (base client : UInt64) (x : Transfer) : Prop where
  transfer : (s.session link).transfers.get? path = some x
  path : x.path = path
  pull : x.pull = .peerEdit base
  client : x.client = client
  accounted : x.Accounted
  partly : x.complete = false

theorem begins {notice : NewVersion}
    (tracked : Tracked s.store notice.path s.volume ⟨notice.base, 0, .synced⟩ bytes)
    (hc : notice.client ≠ 0) (link : String) :
    s.Breaks link (.newVersion notice) ∨
      (∃ x, ∃ requests : List ChunkRequest,
        (s.answer link (.newVersion notice)).2.Pulling link notice.path notice.base notice.client x ∧
        replies (s.answer link (.newVersion notice)).1 = requests.map .requestChunk ∧
        ∀ a z, x.outstanding.get? a = some z → x.requestFor a z ∈ requests) ∨
      replies (s.answer link (.newVersion notice)).1 =
        [.commit notice.path ⟨notice.base, notice.base + 1, notice.client⟩] := by
  have hh : (s.session link).handle s.node.setup (.newVersion notice) s.volume =
      ((s.store.announced s.node.setup.config.chunkSize notice (s.session link).transfers s.volume).1.map .all,
        { s.session link with
          transfers := (s.store.announced s.node.setup.config.chunkSize notice
            (s.session link).transfers s.volume).2.1 },
        (s.store.announced s.node.setup.config.chunkSize notice (s.session link).transfers s.volume).2.2) := rfl
  rcases tracked.begins hc s.node.setup.config.chunkSize (s.session link).transfers with ⟨e, he, hstale⟩ |
    ⟨x, w, hw, began, empty, hz⟩ | hcommit
  · exact Or.inl (breaks_of_error (by rw [hh, he]; rfl) hstale)
  · rw [hw] at hh
    rcases answered (congrArg Prod.fst hh) with h | ⟨ha, hs⟩
    · exact Or.inl h
    have whole := began.requests s.node.setup.config.chunkSize
    have asked : ∀ a z, (x.requests s.node.setup.config.chunkSize).2.requestFor a z =
        x.requestFor a z := fun a z => by
      obtain ⟨outstanding, hx⟩ := x.requests_snd s.node.setup.config.chunkSize
      rw [hx]
      rfl
    refine Or.inr (Or.inl ⟨(x.requests s.node.setup.config.chunkSize).2,
      (x.requests s.node.setup.config.chunkSize).1, ⟨?_, whole.path, whole.pull, whole.client,
        Transfer.accounted_requests empty began.received _, ?_⟩, by rw [ha]; rfl,
      fun a z h => asked a z ▸ Transfer.requested empty h⟩)
    · rw [hs, hh, ← whole.path]
      exact Transfers.get?_add _ _ _
    · rw [whole.complete]
      exact decide_eq_false hz
  · rw [hcommit] at hh
    rcases answered (congrArg Prod.fst hh) with h | ⟨ha, -⟩
    · exact Or.inl h
    · rw [ha]
      exact Or.inr (Or.inr rfl)

theorem feeds (tracked : Tracked s.store path s.volume ⟨base, 0, .synced⟩ bytes) (ho : s.node.Orderly s.volume)
    (p : s.Pulling link path base client x) {chunk : FileChunk} (hp : chunk.path = path) (hd : chunk.data ≠ [])
    (hf : x.fault? chunk = none) (hle : Transfer.stopOf chunk ≤ x.size.toNat) :
    s.Breaks link (.fileChunk chunk) ∨
      ((s.answer link (.fileChunk chunk)).2.Pulling link path base client (x.note chunk).2 ∧
        replies (s.answer link (.fileChunk chunk)).1 = (x.note chunk).1.toList.map .requestChunk) ∨
      replies (s.answer link (.fileChunk chunk)).1 = [.commit path ⟨base, base + 1, client⟩] := by
  have held : (s.session link).transfers.Held s.volume := ho.held link
  have hh : (s.session link).handle s.node.setup (.fileChunk chunk) s.volume =
      ((s.store.receiveChunk chunk (s.session link).transfers s.volume).1.map .all,
        { s.session link with transfers := (s.store.receiveChunk chunk (s.session link).transfers s.volume).2.1 },
        (s.store.receiveChunk chunk (s.session link).transfers s.volume).2.2) := rfl
  rcases tracked.feeds held p.transfer p.pull hp hd hf with ⟨e, he, hstale⟩ | ⟨hc, hx, hw⟩ | hcommit
  · exact Or.inl (breaks_of_error (by rw [hh, he]; rfl) hstale)
  · rw [hw] at hh
    rcases answered (congrArg Prod.fst hh) with h | ⟨ha, hs⟩
    · exact Or.inl h
    refine Or.inr (Or.inl ⟨⟨?_, ?_, ?_, ?_, p.accounted.note hd hle, hc⟩, by rw [ha]; rfl⟩)
    · rw [hs, hh]
      exact hx
    · rw [x.path_note, p.path]
    · rw [x.pull_note, p.pull]
    · rw [x.client_note, p.client]
  · rw [hcommit, p.client] at hh
    rcases answered (congrArg Prod.fst hh) with h | ⟨ha, -⟩
    · exact Or.inl h
    · rw [ha]
      exact Or.inr (Or.inr rfl)

theorem stays (tracked : Tracked s.store path s.volume ⟨base, 0, .synced⟩ bytes) (ho : s.node.Orderly s.volume)
    (hm : Hears path base m) {requests : List ChunkRequest}
    (hr : replies (s.answer link m).1 = requests.map .requestChunk) :
    Tracked s.store path (s.answer link m).2.volume ⟨base, 0, .synced⟩ bytes := by
  rcases hears tracked ho hm with ⟨tracked', -⟩ | ⟨client, whole, -, hr', -⟩
  · exact tracked'
  · rw [hr] at hr'
    cases requests <;> cases hr'

/-- An editor answers a request with a chunk at the same offset, and a refusal not at all. -/
theorem replies_of_asks (tracked : Tracked s.store path s.volume r bytes) (ha : Asks path m) (link : String) :
    s.Breaks link m ∨
      (∃ request data, m = .requestChunk request ∧
        replies (s.answer link m).1 = [.fileChunk ⟨path, r.client, request.offset, data⟩]) ∨
      ∃ nack, m = .nack nack ∧ replies (s.answer link m).1 = [] := by
  cases m with
  | requestChunk request =>
    have hh : ((s.session link).handle s.node.setup (.requestChunk request) s.volume).1 =
        (s.store.serveChunk s.node.setup.config.chunkSize request s.volume).1.map .reply := rfl
    have hstale := s.store.serveChunk_not_stale s.node.setup.config.chunkSize request s.volume
    obtain ⟨answer, w, hs, -, -, hreply⟩ := tracked.serveChunk s.node.setup.config.chunkSize ha
    rw [hs] at hh hstale
    cases answer with
    | error e => exact Or.inl (breaks_of_error hh fun why he => hstale why (congrArg Except.error he))
    | ok reply =>
      obtain ⟨data, rfl, -⟩ := hreply reply rfl
      rcases answered hh with h | ⟨ha, -⟩
      · exact Or.inl h
      · exact Or.inr (Or.inl ⟨request, data, rfl, by rw [ha]; rfl⟩)
  | nack nack =>
    have hh : ((s.session link).handle s.node.setup (.nack nack) s.volume).1 = .ok .silent := rfl
    rcases answered hh with h | ⟨ha, -⟩
    · exact Or.inl h
    · exact Or.inr (Or.inr ⟨nack, rfl, by rw [ha]; rfl⟩)
  | _ => exact ha.elim

end Side

/-! ### What can be lost -/

namespace Side

def base? (path : String) (s : Side) : Option UInt64 :=
  match s.record? path with
  | some (.ok r) => some r.base
  | _ => none

/-- The notice comes too late: the receiver is past its base. -/
def late (path : String) (notice : NewVersion) (s : Side) : Message → Bool
  | .newVersion n => n = notice && (s.base? path).any (notice.base < ·)
  | _ => false

/-- What was announced is being pulled, and a chunk without bytes ends that. -/
def drops (link path : String) (notice : NewVersion) (s : Side) : Message → Bool
  | .fileChunk chunk => chunk.data = [] && ((s.session link).transfers.get? path).any fun x =>
      x.pull = .peerEdit notice.base && x.client = notice.client
  | _ => false

theorem late_of_lt {path : String} {notice : NewVersion} {s : Side} {r : Record}
    (hr : s.record? path = some (.ok r)) (hlt : notice.base < r.base) :
    s.late path notice (.newVersion notice) = true := by
  simp [late, base?, hr, hlt]

end Side

end TreeReplica
