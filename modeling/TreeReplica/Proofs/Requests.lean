import TreeReplica.Proofs.Endures
import TreeReplica.Proofs.Sample
import TreeReplica.Proofs.Transfer.Answering

/-! Transfers in progress always have something to wait for. Each is incomplete, and what has not arrived of
    its file is covered by ranges that were asked for and not answered, none of them longer than a chunk
    (`Transfer.Waiting`). Every request that is sent asks for just one of these ranges
    (`Node.Endures.never_stalls`). -/

namespace TreeReplica
open Volume

/-! ### What a transfer waits for -/

namespace Transfer

/-- A transfer is incomplete, and waits for what has not arrived in ranges of at most `step` bytes. -/
structure Waiting (t : Transfer) (step : Nat) : Prop where
  accounted : t.Accounted
  narrow : ∀ a z, t.outstanding.get? a = some z → z - a ≤ step
  incomplete : t.complete = false

section Waiting
variable {t : Transfer} {chunk : FileChunk} {step : Nat}

/-- What is incomplete is waited for. -/
theorem Waiting.waits (h : t.Waiting step) : ∃ a z, t.outstanding.get? a = some z := by
  by_contra hnone
  have all : ∀ a, t.outstanding.get? a = none := fun a => by
    rw [Option.eq_none_iff_forall_ne_some]
    exact fun z hz => hnone ⟨a, z, hz⟩
  have complete := h.accounted.complete all
  rw [h.incomplete] at complete
  cases complete

theorem waiting_requests (empty : t.outstanding = .empty) (fresh : t.received = []) (hz : t.size ≠ 0)
    (chunkSize : UInt32) :
    (t.requests chunkSize).2.Waiting (max chunkSize.toNat 1) := by
  obtain ⟨outstanding, hreq⟩ := t.requests_snd chunkSize
  refine ⟨accounted_requests empty fresh chunkSize, fun a z hget => ?_, ?_⟩
  · obtain ⟨i, -, rfl, rfl⟩ := mem_spans.mp ((get?_requests empty chunkSize a z).mp hget)
    omega
  · rw [hreq]
    exact (complete_of_received_nil fresh).trans (decide_eq_false hz)

/-- The rest of a range that is asked for again is awaited then, and was a part of a range that was awaited. -/
theorem asked_note {request : ChunkRequest} (hd : chunk.data ≠ []) (h : (t.note chunk).1 = some request) :
    ∃ a z, (t.note chunk).2.outstanding.get? a = some z ∧ request = t.requestFor a z ∧
      t.outstanding.get? chunk.offset.toNat = some z ∧ chunk.offset.toNat ≤ a := by
  rcases t.note_cases hd with ⟨-, hn⟩ | ⟨requested, hsome, ⟨-, hn⟩ | ⟨-, hn⟩⟩ <;> rw [hn] at h <;> cases h
  refine ⟨stopOf chunk, requested, ?_, rfl, hsome, start_le_stopOf chunk⟩
  rw [hn]
  simp [Table.get?_insert]

theorem Waiting.note (h : t.Waiting step) (hd : chunk.data ≠ []) (hf : t.fault? chunk = none)
    (incomplete : (t.note chunk).2.complete = false) : (t.note chunk).2.Waiting step := by
  refine ⟨h.accounted.note hd (stopOf_le_of_fault? hf), fun a z hget => ?_, incomplete⟩
  rcases t.note_cases hd with ⟨-, hn⟩ | ⟨requested, hsome, ⟨-, hn⟩ | ⟨-, hn⟩⟩ <;>
    rw [hn] at hget <;> dsimp only at hget
  · exact h.narrow a z hget
  · rw [Table.get?_erase] at hget
    split at hget
    · cases hget
    · exact h.narrow a z hget
  · rw [Table.get?_insert, Table.get?_erase] at hget
    split at hget
    · rename_i ha
      cases hget
      have := h.narrow _ _ hsome
      have := start_le_stopOf chunk
      omega
    · split at hget
      · cases hget
      · exact h.narrow a z hget

/-- A request asks for one of the ranges that a transfer waits for, all of it and nothing else. -/
structure AsksFor (t : Transfer) (request : ChunkRequest) (a z : Nat) : Prop where
  path : request.path = t.path
  client : request.client = t.client
  offset : request.offset.toNat = a
  size : request.size.toNat = z - a
  awaited : t.outstanding.get? a = some z

/-- No request asks for two ranges. -/
theorem AsksFor.unique {request : ChunkRequest} {a z a' z' : Nat} (h : t.AsksFor request a z)
    (h' : t.AsksFor request a' z') :
    (a, z) = (a', z') := by
  have ha : a = a' := h.offset.symm.trans h'.offset
  subst ha
  rw [Option.some.inj (h.awaited.symm.trans h'.awaited)]

theorem requests_asksFor (empty : t.outstanding = .empty) (fresh : t.received = []) {chunkSize : UInt32}
    {request : ChunkRequest} (hr : request ∈ (t.requests chunkSize).1) :
    ∃ a z, (t.requests chunkSize).2.AsksFor request a z := by
  obtain ⟨outstanding, hreq⟩ := t.requests_snd chunkSize
  obtain ⟨a, z, hget, rfl, -, -, ha, hz⟩ := (awaits_requests empty fresh chunkSize).range hr
  exact ⟨a, z, rfl, rfl, ha, hz, hget⟩

theorem Waiting.note_asksFor (h : t.Waiting step) (hs : step < UInt32.size) (hd : chunk.data ≠ [])
    (hf : t.fault? chunk = none) {request : ChunkRequest} (hr : (t.note chunk).1 = some request) :
    ∃ a z, (t.note chunk).2.AsksFor request a z := by
  obtain ⟨a, z, hget, rfl, hold, hle⟩ := asked_note hd hr
  have narrow := h.narrow _ _ hold
  obtain ⟨hlt, -⟩ := (h.accounted.note hd (stopOf_le_of_fault? hf)).asked a z hget
  obtain ⟨-, hle'⟩ := h.accounted.asked _ _ hold
  have := t.size.toNat_lt_size
  exact ⟨a, z, (t.path_note chunk).symm, (t.client_note chunk).symm, toNat_offset (by omega),
    toNat_size (by omega), hget⟩

end Waiting

end Transfer

/-! ### Runs -/

/-- The requests that a session sent at a moment. -/
def Moment.requests (x : Moment) (name : String) : List ChunkRequest :=
  match x.event with
  | .message name' _ =>
    if name' = name then
      (x.answer?.elim [] (·.replies)).filterMap fun
        | .requestChunk request => some request
        | _ => none
    else []
  | _ => []

theorem Moment.mem_requests {x : Moment} {name : String} {request : ChunkRequest} : request ∈ x.requests name ↔
    ∃ msg answer, x.event = .message name msg ∧ x.answer? = some answer ∧
    .requestChunk request ∈ answer.replies := by
  unfold Moment.requests
  split
  · rename_i name' msg he
    split
    · rename_i hname
      subst hname
      rw [List.mem_filterMap]
      constructor
      · rintro ⟨reply, hr, hs⟩
        split at hs <;> cases hs
        cases ha : x.answer? with
        | none =>
          rw [ha] at hr
          cases hr
        | some answer =>
          rw [ha] at hr
          exact ⟨msg, answer, he, rfl, hr⟩
      · rintro ⟨_, answer, -, ha, hr⟩
        exact ⟨_, by rw [ha]; exact hr, rfl⟩
    · rename_i hname
      refine ⟨fun h => (by cases h), fun ⟨_, _, he', _⟩ => ?_⟩
      rw [he] at he'
      cases he'
      exact absurd rfl hname
  · rename_i hne
    exact ⟨fun h => (by cases h), fun ⟨_, _, he, _⟩ => absurd he (hne _ _)⟩

namespace Node

section Runs
variable {u : Setup} {n m : Node} {v w : Volume} {h : List Moment}

/-- Whatever has happened in a run happened at the end of a shorter one. -/
theorem Endures.before (run : Endures n v h m w) {x : Moment} (hx : x ∈ h) :
    ∃ h', Endures n v h' x.node x.volume := by
  induction run with
  | rest => cases hx
  | event e run ih =>
    rcases List.mem_append.mp hx with hx | hx
    · exact ih hx
    · rw [List.mem_singleton.mp hx]
      exact ⟨_, run⟩
  | mishap _ _ _ _ _ ih => exact ih hx
  | use _ _ ih => exact ih hx

/-- A transfer of a session waits, and for nothing that the session has not asked for. -/
structure Sought (step : Nat) (h : List Moment) (name : String) (t : Transfer) : Prop where
  waiting : t.Waiting step
  sent : ∀ a z, t.outstanding.get? a = some z → ∃ x ∈ h, t.requestFor a z ∈ x.requests name

theorem Sought.later {step : Nat} {name : String} {t : Transfer} (s : Sought step h name t) (x : Moment) :
    Sought step (h ++ [x]) name t where
  waiting := s.waiting
  sent a z hget := by
    obtain ⟨x', hx, hr⟩ := s.sent a z hget
    exact ⟨x', List.mem_append_left _ hx, hr⟩

theorem sought_of_begins {x : Moment} {name : String} {notice : NewVersion} {p : Pull} {t : Transfer}
    (b : x.Begins name notice p t) :
    Sought (max x.node.setup.config.chunkSize.toNat 1) (h ++ [x]) name
      (t.requests x.node.setup.config.chunkSize).2 where
  waiting := Transfer.waiting_requests b.empty b.began.received (b.began.size ▸ b.size) _
  sent a z hget := by
    refine ⟨x, List.mem_append_right _ List.mem_cons_self, Moment.mem_requests.mpr ⟨_, _, b.event, b.asks, ?_⟩⟩
    rw [Transfer.requestFor_requests]
    exact List.mem_map_of_mem (Transfer.requested b.empty hget)

theorem Sought.feeds {step : Nat} {x : Moment} {name : String} {chunk : FileChunk} {t : Transfer}
    (s : Sought step h name t) (f : x.Feeds name chunk t) : Sought step (h ++ [x]) name (t.note chunk).2 where
  waiting := s.waiting.note f.data f.fault f.incomplete
  sent a z hget := by
    rw [Transfer.requestFor_note]
    rcases Transfer.awaited_note f.data hget with ⟨-, hold⟩ | hasked
    · obtain ⟨x', hx, hr⟩ := s.sent a z hold
      exact ⟨x', List.mem_append_left _ hx, hr⟩
    · refine ⟨x, List.mem_append_right _ List.mem_cons_self, Moment.mem_requests.mpr ⟨_, _, f.event, f.asks, ?_⟩⟩
      rw [hasked]
      exact List.mem_cons_self

theorem Endures.sought (run : Endures ⟨u, .empty⟩ v h m w) {name path : String} {t : Transfer}
    (ht : (m.session name).transfers.get? path = some t) : Sought (max u.config.chunkSize.toNat 1) h name t := by
  obtain ⟨_, -, s⟩ := run.transfers (I := fun h name _ t _ => Sought (max u.config.chunkSize.toNat 1) h name t)
    (fun _ s => s.later _) (fun hu b _ => hu ▸ sought_of_begins b) (fun f s => s.feeds f) ht
  exact s

/-- Every request is sent for one range that the transfer of its path waits for then. -/
theorem Endures.asks (run : Endures ⟨u, .empty⟩ v h m w) {x : Moment} (hx : x ∈ h) {name : String}
    {request : ChunkRequest} (hr : request ∈ x.requests name) :
    ∃ t, (x.next.session name).transfers.get? request.path = some t ∧ ∃ a z, t.AsksFor request a z := by
  obtain ⟨h', run'⟩ := run.before hx
  have ho := (run'.orderly (orderly_start u v)).1
  obtain ⟨msg, answer, he, ha, hm⟩ := Moment.mem_requests.mp hr
  have course := message_course ho name msg
  have hnext : (x.node.step (.message name msg) x.volume).1 = x.next := by rw [Moment.next, he]
  have hanswer : (x.node.answer name msg x.volume).1 = .ok answer := by
    rw [Moment.answer?_message he] at ha
    exact ok_of_toOption ha
  rw [hnext] at course
  cases course with
  | same _ _ silent _ => exact absurd hm (silent answer hanswer request)
  | gone _ _ _ _ _ silent => exact absurd hm (silent answer hanswer request)
  | @begun notice p t _ _ began empty _ _ differs _ _ asks =>
    rw [hanswer] at asks
    cases asks
    obtain ⟨request', hr', he'⟩ := List.mem_map.mp hm
    cases he'
    refine ⟨_, ?_, Transfer.requests_asksFor empty began.received hr'⟩
    rw [differs.get, if_pos ((Transfer.path_of_mem_requests hr').trans began.path).symm]
  | @fed chunk t _ ht hd hf _ differs _ asks =>
    rw [hanswer] at asks
    cases asks
    obtain ⟨request', hr', he'⟩ := List.mem_map.mp hm
    cases he'
    have hrest := Option.mem_toList.mp hr'
    have bound : max u.config.chunkSize.toNat 1 < UInt32.size := by
      have := u.config.chunkSize.toNat_lt_size
      have : 1 < UInt32.size := by decide
      omega
    refine ⟨_, ?_, (run'.sought ht).waiting.note_asksFor bound hd hf hrest⟩
    rw [differs.get, if_pos ((Transfer.note_fst hrest).1.trans (ho.held name _ t ht).1).symm]

/-- A transfer in progress is never left without a request. Every offset of its file has arrived or lies in a
    range that was asked for; these ranges are not empty, do not overlap, lie inside the file and are no
    longer than a chunk; and there is one. Every request that is sent asks for just one of them. -/
theorem Endures.never_stalls (run : Endures ⟨u, .empty⟩ v h m w) :
    (∀ name path t, (m.session name).transfers.get? path = some t →
      (∀ i < t.size.toNat, Ranges.Holds t.received i ∨ ∃ a z, t.outstanding.get? a = some z ∧ a ≤ i ∧ i < z) ∧
      (∀ a z, t.outstanding.get? a = some z → a < z ∧ z ≤ t.size.toNat ∧
        z - a ≤ max u.config.chunkSize.toNat 1 ∧
        ∃ x ∈ h, t.requestFor a z ∈ x.requests name) ∧
      (∀ a z a' z', t.outstanding.get? a = some z → t.outstanding.get? a' = some z' → a < a' → z ≤ a') ∧
      t.complete = false ∧ ∃ a z, t.outstanding.get? a = some z) ∧
    ∀ x ∈ h, ∀ name, ∀ request ∈ x.requests name, ∃ t,
    (x.next.session name).transfers.get? request.path = some t ∧
      ∃! range : Nat × Nat, t.AsksFor request range.1 range.2 := by
  refine ⟨fun name path t ht => ?_, fun x hx name request hr => ?_⟩
  · obtain ⟨waiting, sent⟩ := run.sought ht
    have accounted := waiting.accounted
    refine ⟨accounted.covered, fun a z hget => ?_, accounted.disjoint, waiting.incomplete, waiting.waits⟩
    exact ⟨(accounted.asked a z hget).1, (accounted.asked a z hget).2, waiting.narrow a z hget, sent a z hget⟩
  · obtain ⟨t, ht, a, z, asks⟩ := run.asks hx hr
    exact ⟨t, ht, (a, z), asks, fun range h => h.unique asks⟩

end Runs

/-- Five bytes are announced, and of the first two only one comes. -/
def sampleShort : List Event :=
  [.message "peer" (.newVersion ⟨"a", 0, 1, 5⟩), .message "peer" (.fileChunk ⟨"a", 1, 0, [7]⟩)]

theorem sample_waits :
    Endures ⟨sampleSetup, .empty⟩ (sampleVolume []) (moments sampleShort ⟨sampleSetup, .empty⟩ (sampleVolume []))
        (Node.run sampleShort ⟨sampleSetup, .empty⟩ (sampleVolume [])).1
        (Node.run sampleShort ⟨sampleSetup, .empty⟩ (sampleVolume [])).2 ∧
      ∃ t, ((Node.run sampleShort ⟨sampleSetup, .empty⟩ (sampleVolume [])).1.session
          "peer").transfers.get? "a" = some t ∧
        t.received = [(0, 1)] ∧ t.outstanding.entries = [(2, 4), (4, 5), (1, 2)] ∧ t.complete = false ∧
        ∃ a z, t.outstanding.get? a = some z := by
  have run := endures_of_passes (passes_run sampleShort ⟨sampleSetup, .empty⟩ (sampleVolume []))
  obtain ⟨-, -, -, incomplete, waits⟩ := run.never_stalls.1 "peer" "a" _ rfl
  exact ⟨run, _, rfl, rfl, rfl, incomplete, waits⟩

end Node
end TreeReplica
