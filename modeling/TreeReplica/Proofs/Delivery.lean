import TreeReplica.Proofs.Delivery.Stages

/-! What becomes of the last write of a file that one of two nodes edits. Once nothing is on its way, both
    nodes have what was written, unless its notice was lost (`Pair.delivered`); and it can be lost
    (`Pair.quiet_behind`). -/

namespace TreeReplica
open Volume

namespace Pair

/-! ### Runs after the last write -/

section Delivery
variable {link path : String} {bound : Nat} {notice : NewVersion} {bytes : Bytes} {p q : Pair}

/-- The editor still has what was written last, and as long as the connection lasts the notice of it is
    somewhere. -/
structure Underway (link path : String) (bound : Nat) (notice : NewVersion) (bytes : Bytes) (h : Versions)
    (p : Pair) : Prop where
  consistent : Consistent link path bound h p
  current : h.current = bytes
  subscribed : p.connected = true → (p.editor.session link).subscribed path = true
  stage : p.connected = true → Stage link path notice h p

theorem Underway.send {h : Versions} (u : Underway link path bound notice bytes h p) :
    Underway link path bound notice bytes h (p.send link) := by
  have same : (p.send link).connected = p.connected ∧ (p.send link).editor = p.editor := by
    unfold Pair.send
    split
    · exact ⟨rfl, rfl⟩
    · exact ⟨rfl, rfl⟩
  refine ⟨u.consistent.send, u.current, fun hc => ?_, fun hc => ?_⟩
  · rw [same.1] at hc
    rw [same.2]
    exact u.subscribed hc
  · rw [same.1] at hc
    exact (u.stage hc).send u.consistent (u.subscribed hc)

theorem Underway.receive {h : Versions} (u : Underway link path bound notice bytes h p) (room : bound < UInt64.size)
    (keeps : p.loses link path notice = false) : Underway link path bound notice bytes h (p.receive link) := by
  cases hm : p.toReceiver with
  | nil =>
    rw [receive_of_nil hm]
    exact u
  | cons m rest =>
    have next := u.consistent.receive room
    rw [receive_of_cons hm] at next ⊢
    dsimp only at next ⊢
    cases goes : ends (p.receiver.answer link m).1 with
    | true =>
      rw [goes] at next
      exact ⟨next, u.current, fun hc => (by cases hc), fun hc => (by cases hc)⟩
    | false =>
      rw [goes] at next
      refine ⟨next, u.current, u.subscribed, fun hc => ?_⟩
      exact (u.stage hc).receive u.consistent room hm keeps goes

theorem Underway.serve {h : Versions} (u : Underway link path bound notice bytes h p) (room : bound < UInt64.size)
    (serves : p.refuses link = false) : ∃ h', Underway link path bound notice bytes h' (p.serve link) := by
  cases hm : p.toEditor with
  | nil =>
    rw [serve_of_nil hm]
    exact ⟨h, u⟩
  | cons m rest =>
    have works : p.editor.fails link m = false := by
      unfold refuses at serves
      rwa [hm] at serves
    have c := u.consistent
    have connected := c.connected hm
    have st := u.stage connected
    have step := c.serve room hm
    rw [serve_of_cons hm] at step ⊢
    dsimp only at step ⊢
    rcases step with ⟨ha, next⟩ | ⟨client, rfl, counted, covered, asks, next⟩
    · refine ⟨h, ?_⟩
      cases goes : ends (p.editor.answer link m).1 with
      | true =>
        rw [goes] at next
        exact ⟨next, u.current, fun hc => (by cases hc), fun hc => (by cases hc)⟩
      | false =>
        rw [goes] at next
        refine ⟨next, u.current, fun hc => ?_, fun _ => st.asked c hm ha works goes⟩
        exact (Side.serves c.editor c.idle ha).1 ▸ u.subscribed hc
    · refine ⟨h.commit client, ?_⟩
      obtain ⟨hanswer, hsession, -⟩ := Side.commits c.editor c.unlocked (c.heard connected)
        (Versions.record_commit (Nat.lt_of_le_of_lt c.counted room) counted covered)
      have goes : ends (p.editor.answer link (.commit path ⟨h.base, h.base + 1, client⟩)).1 = false := by
        rw [hanswer]
        rfl
      rw [goes] at next ⊢
      refine ⟨next, (h.current_commit client).trans u.current, fun hc => ?_,
        fun _ => st.applied c room hm counted covered asks _ _⟩
      exact hsession ▸ u.subscribed hc

theorem Underway.follows {h : Versions} (u : Underway link path bound notice bytes h p) (room : bound < UInt64.size)
    (run : p.Follows link path notice q) : ∃ h', Underway link path bound notice bytes h' q := by
  induction run with
  | start => exact ⟨h, u⟩
  | send run ih =>
    obtain ⟨h', u'⟩ := ih
    exact ⟨h', u'.send⟩
  | receive run keeps ih =>
    obtain ⟨h', u'⟩ := ih
    exact ⟨h', u'.receive room keeps⟩
  | serve run serves ih =>
    obtain ⟨h', u'⟩ := ih
    exact u'.serve room serves

/-- Both sides have the path synced at one base, with these bytes. -/
structure Delivered (path : String) (bytes : Bytes) (p : Pair) : Prop where
  records : ∃ base, p.editor.record? path = some (.ok ⟨base, 0, .synced⟩) ∧
    p.receiver.record? path = some (.ok ⟨base, 0, .synced⟩)
  bytes : p.editor.bytes? path = some bytes ∧ p.receiver.bytes? path = some bytes

/-- Once nothing is on its way, both sides have what was written last, unless its notice was lost. -/
theorem delivered {b : UInt64} {r : Pair} {k : Nat} {e : LocalEdit} {v : Volume} (settled : p.Settled link path b)
    (run : p.Reaches link path k q) (subscribed : (q.editor.session link).subscribed path = true)
    (he : e ≠ .deleted) (use : Kept (fun l => ¬RecordPlace l ∧ ¬StagingPlace l) q.editor.volume v)
    (written : Side.bytes? ⟨q.editor.node, v⟩ path = some bytes) (size : bytes.length ≤ maxSize)
    (announced : (q.write e path v).waiting = q.waiting ++ [notice])
    (follows : (q.write e path v).Follows link path notice r) (quiet : r.Quiet)
    (room : b.toNat + (k + 1) < UInt64.size) : r.Delivered path bytes := by
  obtain ⟨h₀, c₀⟩ := settled.consistent
  obtain ⟨h₁, c₁⟩ := c₀.reaches run (Nat.lt_of_succ_lt room)
  obtain ⟨w, hw, c₂⟩ := c₁.write room he use written size
  have hnotice : notice = (h₁.edit bytes).notice path := by
    rw [hw] at announced
    exact (List.singleton_inj.mp (List.append_cancel_left announced)).symm
  have start : Underway link path (b.toNat + k + 1) notice bytes (h₁.edit bytes) (q.write e path v) := by
    refine ⟨c₂, h₁.current_edit bytes, fun _ => by rw [hw]; exact subscribed, fun _ => ?_⟩
    rw [hnotice]
    exact .told (by rw [hw]) (UInt64.le_refl _) fun _ => rfl
  obtain ⟨h, u⟩ := start.follows room follows
  have level := (u.stage quiet.connected).quiet quiet
  have c := u.consistent
  obtain ⟨hrec, hbytes⟩ := Side.tracked_iff.mp c.editor
  rw [u.current] at hbytes
  rw [show h.record = ⟨h.base, 0, .synced⟩ by simp [Versions.record, level]] at hrec
  cases c.phase with
  | ahead counted covered tracked commits =>
    rw [level, UInt64.le_zero_iff] at covered
    exact absurd covered counted
  | level tracked asks =>
    obtain ⟨hrec', hbytes'⟩ := Side.tracked_iff.mp tracked
    rw [← level] at hbytes'
    rw [show h.bytes h.client = bytes from u.current] at hbytes'
    exact ⟨⟨h.base, hrec, level ▸ hrec'⟩, hbytes, hbytes'⟩

end Delivery

/-! ### The sample -/

theorem sample_delivered :
    samplePair.Settled "link" "a" 0 ∧
      (sampleWrite [5, 6, 7] samplePair).Follows "link" "a" ⟨"a", 0, 1, 3⟩ (samplePulled.serve "link") ∧
      (samplePulled.serve "link").Quiet ∧ (samplePulled.serve "link").Delivered "a" [5, 6, 7] := by
  have asked : (sampleWrite [5, 6, 7] samplePair).Follows "link" "a" ⟨"a", 0, 1, 3⟩ _ :=
    Follows.start.send.receive (by decide +kernel)
  have served := (asked.serve (by decide +kernel)).serve (by decide +kernel)
  have pulled := (served.receive (by decide +kernel)).receive (by decide +kernel)
  have follows : (sampleWrite [5, 6, 7] samplePair).Follows "link" "a" ⟨"a", 0, 1, 3⟩ (samplePulled.serve "link") :=
    pulled.serve (by decide +kernel)
  have quiet : (samplePulled.serve "link").Quiet := by decide +kernel
  exact ⟨samplePair_settled, follows, quiet, delivered samplePair_settled .start (by decide +kernel) (by decide)
    (sample_use [5, 6, 7] _) (by decide +kernel) (by decide) (by decide +kernel) follows quiet (by decide)⟩

/-! ### The ways to lose a write -/

/-- A second write is announced before the editor serves the first one: the chunk without bytes that answers a
    request of the first transfer ends the second one. -/
def sampleDropped : Pair :=
  let p := ((sampleWrite [5, 6, 7] samplePair).send "link").receive "link"
  let p := (((sampleWrite [8, 9] p).send "link").serve "link").serve "link"
  let p := ((p.receive "link").receive "link").serve "link"
  let p := (p.receive "link").receive "link"
  (p.serve "link").serve "link"

/-- The file is written while a commit is on its way: the receiver is past the base of the notice. -/
def sampleLate : Pair :=
  let p := ((sampleWrite [8, 9] samplePulled).send "link").receive "link"
  (p.serve "link").serve "link"

theorem sampleDropped_reaches : samplePair.Reaches "link" "a" 2 sampleDropped := by
  have first := (reaches_sampleWrite [5, 6, 7] .start (by decide +kernel) (by decide)).send.receive
  have second := (reaches_sampleWrite [8, 9] first (by decide +kernel) (by decide)).send.serve.serve
  exact second.receive.receive.serve.receive.receive.serve.serve

/-- Nothing is on its way, and yet the receiver can be behind. -/
theorem quiet_behind :
    ¬∀ (link path : String) (b : UInt64) (p q : Pair) (k : Nat), p.Settled link path b →
      (p.editor.session link).subscribed path = true → p.editor.node.setup.config.chunkSize ≠ 0 →
      p.receiver.node.setup.config.chunkSize ≠ 0 → b.toNat + k < UInt64.size → p.Reaches link path k q → q.Quiet →
      q.receiver.bytes? path = q.editor.bytes? path ∧ ∃ r, q.editor.record? path = some (.ok r) ∧
      r.state = .synced := by
  intro hall
  obtain ⟨behind, -⟩ :=
    hall "link" "a" 0 samplePair sampleDropped 2 samplePair_settled (by decide +kernel) (by decide) (by decide)
    (by decide) sampleDropped_reaches (by decide +kernel)
  revert behind
  decide +kernel

example : sampleLate.Quiet ∧ sampleLate.receiver.bytes? "a" ≠ sampleLate.editor.bytes? "a" := by decide +kernel

end Pair

end TreeReplica
