import TreeReplica.Proofs.Agreement.Phases
import TreeReplica.Proofs.Sample

/-! Two nodes agree on a path that is edited at one of them only. Every step of the pair leaves it consistent
    with the versions that the editor has come to (`Pair.Consistent`), and then the records and the files of
    both sides are those of one version (`Pair.agreement`). -/

namespace TreeReplica
open Volume

namespace Pair

/-- What holds of a pair whose editor has come to these versions, with base and edit count below the bound. -/
structure Consistent (link path : String) (bound : Nat) (h : Versions) (p : Pair) : Prop where
  editor : Tracked p.editor.store path p.editor.volume h.record h.current
  unlocked : p.editor.volume.locked = []
  idle : (p.editor.session link).transfers = .empty
  heard : p.connected = true → p.editor.node.setup.config.requireAuth = true →
    (p.editor.session link).authenticated = true
  lost : p.connected = false → p.toReceiver = [] ∧ p.toEditor = []
  counted : h.base.toNat + h.client.toNat ≤ bound
  waiting : ∀ notice ∈ p.waiting, h.Told path notice
  sent : h.Sent path (h.Live path (p.receiver.session link).transfers) p.toReceiver
  orderly : p.receiver.node.Orderly p.receiver.volume
  pulls : h.Pulls path (p.receiver.session link).transfers p.receiver.volume
  phase : h.Phase path p.receiver p.toEditor

namespace Consistent
variable {link path : String} {bound : Nat} {h : Versions} {p : Pair}

theorem connected (c : Consistent link path bound h p) {m : Message} {rest : List Message}
    (hm : p.toEditor = m :: rest) :
    p.connected = true := by
  cases hc : p.connected with
  | true => rfl
  | false =>
    rw [(c.lost hc).2] at hm
    cases hm

theorem close (c : Consistent link path bound h p) : Consistent link path bound h (p.close link) := by
  have quiet : (p.editor.session link).transfers.Staged := by
    rw [c.idle]
    exact Transfers.staged_empty
  have staged := (c.orderly.held link).staged (c.orderly.distinct link)
  obtain ⟨te, hlocked⟩ := Side.closes c.editor quiet
  exact {
    editor := te
    unlocked := hlocked.trans c.unlocked
    idle := congrArg Session.transfers (p.editor.session_close link)
    heard := fun hc => by cases hc
    lost := fun _ => ⟨rfl, rfl⟩
    counted := c.counted
    waiting := c.waiting
    sent := trivial
    orderly := c.orderly.close link
    pulls := by
      show h.Pulls path ((p.receiver.close link).session link).transfers _
      rw [Side.session_close]
      exact h.pulls_empty path _
    phase := by
      cases c.phase with
      | level tracked asks => exact .level (Side.closes tracked staged).1 fun _ hm => by cases hm
      | ahead counted covered tracked commits =>
        exact .ahead counted covered (Side.closes tracked staged).1 trivial }

theorem write (c : Consistent link path bound h p) (room : bound + 1 < UInt64.size) {e : LocalEdit}
    (he : e ≠ .deleted) {v : Volume} (use : Kept (fun l => ¬RecordPlace l ∧ ¬StagingPlace l) p.editor.volume v)
    {bytes : Bytes} (written : Side.bytes? ⟨p.editor.node, v⟩ path = some bytes) (size : bytes.length ≤ maxSize) :
    ∃ w, p.write e path v =
        { p with editor := ⟨p.editor.node, w⟩, waiting := p.waiting ++ [(h.edit bytes).notice path] } ∧
      Consistent link path (bound + 1) (h.edit bytes) (p.write e path v) := by
  have room' : h.base.toNat + h.client.toNat + 1 < UInt64.size :=
    Nat.lt_of_le_of_lt (Nat.succ_le_succ c.counted) room
  have hlater := Versions.later_edit bytes room'
  have tracked : Tracked p.editor.store path v h.record bytes := by
    refine Side.tracked_iff (s := ⟨p.editor.node, v⟩).mpr ⟨?_, written⟩
    exact use.recorded?_eq (fun σ hσ => hσ.1 σ.recordPlace_record) c.editor.record
  obtain ⟨w, hw, t, hlocked⟩ := tracked.report (use.locked.trans c.unlocked) he
  obtain ⟨hnotice, told⟩ := Versions.notice_edit bytes path room' size
  rw [Versions.record_edit bytes room'] at hw t
  unfold Pair.write
  rw [hw, hnotice]
  exact ⟨w, rfl, {
    c with
    editor := (h.current_edit bytes).symm ▸ t
    unlocked := hlocked
    counted := by
      have := c.counted
      show h.base.toNat + (h.client + 1).toNat ≤ _
      rw [Versions.toNat_edit room']
      omega
    waiting := fun n hn => by
      rcases List.mem_append.mp hn with hn | hn
      · exact (c.waiting n hn).later hlater
      · rw [List.mem_singleton.mp hn]
        exact told
    sent := c.sent.later hlater fun hlive => hlive.later c.pulls hlater
    pulls := c.pulls.later hlater
    phase := c.phase.later hlater rfl }⟩

theorem send (c : Consistent link path bound h p) : Consistent link path bound h (p.send link) := by
  unfold Pair.send
  split
  · rename_i notice rest hc hw
    have told : h.Told path notice := c.waiting notice (by rw [hw]; exact List.mem_cons_self)
    exact {
      c with
      lost := fun hc' => by rw [hc] at hc'; cases hc'
      waiting := fun n hn => c.waiting n (by rw [hw]; exact List.mem_cons_of_mem _ hn)
      sent := c.sent.append fun m hm => by
        rcases Session.replies_forward p.editor.node.setup notice (p.editor.session link) with hf | hf <;>
          rw [hf] at hm
        · cases hm
        · rw [List.mem_singleton.mp hm]
          exact told }
  · exact c

theorem receive (c : Consistent link path bound h p) (room : bound < UInt64.size) :
    Consistent link path bound h (p.receive link) := by
  unfold Pair.receive
  split
  · exact c
  rename_i m rest hm
  have connected : p.connected ≠ false := fun hc => by
    rw [(c.lost hc).1] at hm
    cases hm
  have sent := c.sent
  rw [hm] at sent
  have turn := answer_turn (c.orderly.held link) p.receiver.node.setup m
  have htransfers := congrArg Session.transfers (p.receiver.session_answer link m)
  have next : Consistent link path bound h { p with
      receiver := (p.receiver.answer link m).2
      toReceiver := rest
      toEditor := p.toEditor ++ replies (p.receiver.answer link m).1 } := {
    c with
    lost := fun hc => absurd hc connected
    sent := htransfers ▸ sent.turn c.orderly turn
    orderly := Side.orderly_answer c.orderly link m
    pulls := htransfers ▸ c.pulls.turn c.orderly turn sent
    phase := c.phase.hears c.orderly c.pulls sent (Nat.lt_of_le_of_lt c.counted room) }
  dsimp only
  split
  · exact next.close
  · exact next

theorem asked (c : Consistent link path bound h p) {m : Message} {rest : List Message} (hm : p.toEditor = m :: rest)
    (ha : Asks path m) (phase : h.Phase path p.receiver rest) :
    Consistent link path bound h { p with
      editor := (p.editor.answer link m).2, toEditor := rest,
      toReceiver := p.toReceiver ++ replies (p.editor.answer link m).1 } := by
  obtain ⟨hsession, t, hlocked, hreplies⟩ := Side.serves c.editor c.idle ha
  exact {
    c with
    editor := t
    unlocked := hlocked.trans c.unlocked
    idle := by rw [hsession]; exact c.idle
    heard := by rw [hsession]; exact c.heard
    lost := fun hc => by rw [c.connected hm] at hc; cases hc
    sent := c.sent.append fun reply hr => by
      have := hreplies reply hr
      cases reply with
      | fileChunk chunk =>
        obtain ⟨hpath, hclient, hpiece⟩ := this
        have hclient : chunk.client = h.client := hclient
        exact ⟨hpath, fun hd => ⟨hclient ▸ UInt64.le_refl _, hclient ▸ hpiece hd⟩⟩
      | nack nack => trivial
      | _ => exact this.elim
    phase := phase }

/-- The editor applies the commit of the receiver, and both are level again. -/
theorem committed (c : Consistent link path bound h p) (room : bound < UInt64.size)
    {client : UInt64} {rest : List Message}
    (hm : p.toEditor = .commit path ⟨h.base, h.base + 1, client⟩ :: rest) (asks : ∀ m ∈ rest, Asks path m)
    (counted : client ≠ 0) (covered : client ≤ h.client)
    (tracked : Tracked p.receiver.store path p.receiver.volume ⟨h.base + 1, 0, .synced⟩ (h.bytes client)) :
    (p.editor.answer link (.commit path ⟨h.base, h.base + 1, client⟩)).1 = .ok .silent ∧
      Consistent link path bound (h.commit client) { p with
        editor := (p.editor.answer link (.commit path ⟨h.base, h.base + 1, client⟩)).2, toEditor := rest } := by
  have connected := c.connected hm
  have room' := Nat.lt_of_le_of_lt c.counted room
  have hlater := Versions.later_commit room' counted covered
  obtain ⟨hanswer, hsession, t, hlocked⟩ := Side.commits c.editor c.unlocked (c.heard connected)
    (Versions.record_commit room' counted covered)
  refine ⟨hanswer, ?_⟩
  exact {
    c with
    editor := by rw [Versions.current_commit]; exact t
    unlocked := hlocked
    idle := by rw [hsession]; exact c.idle
    heard := by rw [hsession]; exact c.heard
    lost := fun hc => by rw [connected] at hc; cases hc
    counted := Nat.le_trans (Versions.counted_commit room' counted covered) c.counted
    waiting := fun notice hn => (c.waiting notice hn).later hlater
    sent := c.sent.later hlater fun hlive => hlive.later c.pulls hlater
    pulls := c.pulls.later hlater
    phase := .level (by rw [Versions.base_commit]; exact tracked) asks }

/-- The editor answers what it is asked, or it applies a commit of what it has, and nothing that follows
    commits more. -/
theorem serve (c : Consistent link path bound h p) (room : bound < UInt64.size) {m : Message} {rest : List Message}
    (hm : p.toEditor = m :: rest) :
    (Asks path m ∧ Consistent link path bound h (p.serve link)) ∨
      ∃ client, m = .commit path ⟨h.base, h.base + 1, client⟩ ∧ client ≠ 0 ∧ client ≤ h.client ∧
      (∀ m ∈ rest, Asks path m) ∧
        Consistent link path bound (h.commit client) (p.serve link) := by
  have served : ∀ {h'}, Consistent link path bound h' { p with
      editor := (p.editor.answer link m).2, toEditor := rest,
      toReceiver := p.toReceiver ++ replies (p.editor.answer link m).1 } →
      Consistent link path bound h' (p.serve link) := by
    intro h' next
    rw [Pair.serve_of_cons hm]
    split
    · exact next.close
    · exact next
  have phase := c.phase
  rw [hm] at phase
  cases phase with
  | level tracked asks =>
    have ha := asks m List.mem_cons_self
    exact Or.inl ⟨ha, served (c.asked hm ha (.level tracked fun m hm => asks m (List.mem_cons_of_mem _ hm)))⟩
  | @ahead client counted covered tracked commits =>
    rcases commits with ⟨ha, commits⟩ | ⟨rfl, asks⟩
    · exact Or.inl ⟨ha, served (c.asked hm ha (.ahead counted covered tracked commits))⟩
    · obtain ⟨hanswer, next⟩ := c.committed room hm asks counted covered tracked
      refine Or.inr ⟨client, rfl, counted, covered, asks, served ?_⟩
      rw [hanswer, show replies (.ok .silent) = [] from rfl, List.append_nil]
      exact next

/-- Whatever happens, the pair stays consistent, up to the last edit that can be counted. -/
theorem reaches (c : Consistent link path bound h p) {k : Nat} {q : Pair} (run : p.Reaches link path k q)
    (room : bound + k < UInt64.size) : ∃ h', Consistent link path (bound + k) h' q := by
  induction run with
  | start => exact ⟨h, c⟩
  | write e run he use written size ih =>
    obtain ⟨h', c'⟩ := ih (Nat.lt_of_succ_lt room)
    obtain ⟨w, -, c''⟩ := c'.write room he use written size
    exact ⟨_, c''⟩
  | send run ih =>
    obtain ⟨h', c'⟩ := ih room
    exact ⟨h', c'.send⟩
  | receive run ih =>
    obtain ⟨h', c'⟩ := ih room
    exact ⟨h', c'.receive room⟩
  | @serve k q run ih =>
    obtain ⟨h', c'⟩ := ih room
    cases hm : q.toEditor with
    | nil =>
      rw [Pair.serve_of_nil hm]
      exact ⟨h', c'⟩
    | cons m rest =>
      rcases c'.serve room hm with ⟨-, next⟩ | ⟨client, -, -, -, -, next⟩
      · exact ⟨h', next⟩
      · exact ⟨_, next⟩

theorem applied (c : Consistent link path bound h p) (room : bound < UInt64.size) {path' : String} {commit : Commit}
    {rest : List Message} (hm : p.toEditor = .commit path' commit :: rest) :
    path' = path ∧ (p.editor.answer link (.commit path' commit)).1 = .ok .silent ∧
      ∃ e, h.record.commit commit = .ok e ∧ (p.serve link).editor.record? path = some (.ok e) := by
  have phase := c.phase
  rw [hm] at phase
  cases phase with
  | level tracked asks => exact (asks _ List.mem_cons_self).elim
  | @ahead client counted covered tracked commits =>
    rcases commits with ⟨ha, -⟩ | ⟨he, asks⟩
    · exact ha.elim
    cases he
    obtain ⟨hanswer, next⟩ := c.committed room hm asks counted covered tracked
    refine ⟨rfl, hanswer, _, Versions.record_commit (Nat.lt_of_le_of_lt c.counted room) counted covered, ?_⟩
    have hserve : (p.serve link).editor = (p.editor.answer link (.commit path ⟨h.base, h.base + 1, client⟩)).2 := by
      unfold Pair.serve
      rw [hm]
      dsimp only
      rw [hanswer]
      rfl
    rw [hserve]
    exact (Side.tracked_iff.mp next.editor).1

theorem agrees (c : Consistent link path bound h p) (room : bound < UInt64.size) :
    ∃ e r, p.Agrees link path e r := by
  obtain ⟨hrec, hbytes⟩ := Side.tracked_iff.mp c.editor
  have calm : ∀ state ∈ [h.record.state, .synced], state ≠ .conflict ∧ state ≠ .stale := by
    intro state hs
    have : state = .synced ∨ state = .dirty := by
      rcases List.mem_cons.mp hs with rfl | hs
      · exact h.state_cases
      · exact Or.inl (List.mem_singleton.mp hs)
    rcases this with rfl | rfl <;> decide
  cases c.phase with
  | level tracked asks =>
    obtain ⟨hrec', hbytes'⟩ := Side.tracked_iff.mp tracked
    refine ⟨h.record, _, hrec, hrec', calm, Or.inl rfl, fun _ _ _ hm => c.applied room hm, fun hs => ?_⟩
    refine ⟨rfl, rfl, h.bytes 0, ?_, hbytes'⟩
    rw [hbytes, Versions.current, h.client_of_synced hs]
  | ahead counted covered tracked commits =>
    obtain ⟨hrec', -⟩ := Side.tracked_iff.mp tracked
    have hnext := Versions.toNat_next (Nat.lt_of_le_of_lt c.counted room) counted covered
    refine ⟨h.record, _, hrec, hrec', calm, Or.inr hnext, fun _ _ _ hm => c.applied room hm, fun hs => ?_⟩
    -- An edit was counted that the commit on its way covers, so the editor is not synced yet.
    rw [h.client_of_synced hs, UInt64.le_zero_iff] at covered
    exact absurd covered counted

end Consistent

/-- At first the editor has one version, which the receiver has too. -/
theorem Settled.consistent {link path : String} {b : UInt64} {p : Pair} (settled : p.Settled link path b) :
    ∃ h, Consistent link path b.toNat h p := by
  obtain ⟨bytes, he, hr⟩ := settled.bytes
  obtain ⟨hwaiting, hreceiver, heditor⟩ := settled.silent
  have empty := fun name => (settled.idle name).2
  have none : ∀ name path t, ¬(p.receiver.node.session name).transfers.get? path =
      some t := fun name path t ht => by
    rw [show (p.receiver.node.session name).transfers = .empty from empty name] at ht
    cases ht
  refine ⟨⟨b, 0, fun _ => bytes⟩, ?_⟩
  exact {
    editor := Side.tracked_iff.mpr ⟨settled.editor, he⟩
    unlocked := settled.unlocked
    idle := (settled.idle link).1
    heard := fun _ => settled.heard
    lost := fun _ => ⟨hreceiver, heditor⟩
    counted := Nat.le_refl _
    waiting := fun notice hn => by
      rw [hwaiting] at hn
      cases hn
    sent := by
      rw [hreceiver]
      trivial
    orderly := ⟨fun name path t ht => absurd ht (none name path t), fun name => by
      rw [show (p.receiver.node.session name).transfers = .empty from empty name]
      exact Table.distinct_empty, fun ht => absurd ht (none _ _ _)⟩
    pulls := by
      rw [empty link]
      exact Versions.pulls_empty _ path _
    phase := by
      rw [heditor]
      exact .level (Side.tracked_iff.mpr ⟨settled.receiver, hr⟩) fun _ hm => by cases hm }

/-- Two nodes agree on a path that only one of them edits, whatever was written, sent and handled, in whatever
    order, as long as no version counter overflows. -/
theorem agreement {link path : String} {b : UInt64} {p q : Pair} {k : Nat} (settled : p.Settled link path b)
    (run : p.Reaches link path k q) (room : b.toNat + k < UInt64.size) : ∃ e r, q.Agrees link path e r := by
  obtain ⟨h, c⟩ := settled.consistent
  obtain ⟨h', c'⟩ := c.reaches run room
  exact c'.agrees room

/-! ### The sample -/

/-- The sample with its record, and a session that has subscribed to it. -/
def sampleSide : Side where
  node := ⟨sampleSetup, Table.empty.insert "link" { Session.new with subscriptions := ["a"] }⟩
  volume := (LocalEdit.report .created sampleSetup.store "a" (sampleVolume [1, 2, 3, 4])).2

def samplePair : Pair := ⟨sampleSide, sampleSide, [], [], [], true⟩

def sampleWrite (bytes : Bytes) (p : Pair) : Pair :=
  p.write .written "a" (p.editor.volume.modify ⟨["r", "a"], 0⟩ fun _ => .ofBytes bytes)

/-- The sample is written, and its new bytes are pulled; the commit is on its way. -/
def samplePulled : Pair :=
  let p := samplePair.write .written "a" (sampleSide.volume.modify ⟨["r", "a"], 0⟩ fun _ => .ofBytes [5, 6, 7])
  let p := (p.send "link").receive "link"
  let p := (p.serve "link").serve "link"
  (p.receive "link").receive "link"

theorem samplePair_settled : samplePair.Settled "link" "a" 0 where
  editor := rfl
  receiver := rfl
  bytes := ⟨[1, 2, 3, 4], rfl, rfl⟩
  idle name := by
    have idle : (sampleSide.session name).transfers = .empty := by
      unfold Side.session Node.session sampleSide
      dsimp only
      rw [Table.get?_insert]
      split <;> rfl
    exact ⟨idle, idle⟩
  silent := ⟨rfl, rfl, rfl⟩
  unlocked := rfl
  heard h := by cases h

theorem sample_use (bytes : Bytes) (v : Volume) : Kept (fun l => ¬RecordPlace l ∧ ¬StagingPlace l) v
    (v.modify ⟨["r", "a"], 0⟩ fun _ => .ofBytes bytes) := (modify_kept _).mono fun l hl => by
  have hl : l = ["r"] ++ ["a"] := hl
  rw [hl]
  exact ⟨not_recordPlace rfl, not_stagingPlace rfl⟩

theorem reaches_sampleWrite {k : Nat} {q : Pair} (bytes : Bytes) (run : samplePair.Reaches "link" "a" k q)
    (written : Side.bytes? ⟨q.editor.node,
      q.editor.volume.modify ⟨["r", "a"], 0⟩ fun _ => .ofBytes bytes⟩ "a" = some bytes)
    (size : bytes.length ≤ maxSize) : samplePair.Reaches "link" "a" (k + 1) (sampleWrite bytes q) :=
  run.write .written (by decide) (sample_use bytes q.editor.volume) written size

theorem samplePair_reaches : samplePair.Reaches "link" "a" 1 samplePulled := by
  have written : samplePair.Reaches "link" "a" 1 (sampleWrite [5, 6, 7] samplePair) :=
    reaches_sampleWrite [5, 6, 7] .start rfl (by decide)
  exact written.send.receive.serve.serve.receive.receive

/-- The receiver is ahead of the editor, until its commit is handled. -/
theorem sample_agreement :
    samplePair.Settled "link" "a" 0 ∧ samplePair.Reaches "link" "a" 1 samplePulled ∧
    (0 : UInt64).toNat + 1 < UInt64.size ∧
      (∃ e r, samplePulled.Agrees "link" "a" e r) ∧ samplePulled.receiver.bytes? "a" = some [5, 6, 7] :=
  ⟨samplePair_settled, samplePair_reaches, by decide,
    agreement samplePair_settled samplePair_reaches (by decide), rfl⟩

end Pair

end TreeReplica
