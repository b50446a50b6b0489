import TreeReplica.Proofs.Delivery.Receiving

/-! Where the last notice is: it waits, is on its way, is being pulled, or its commit is on the way back
    (`Pair.Stage`). Each step moves it on, unless the receiver gives the notice up (`Pair.loses`). -/

namespace TreeReplica
open Volume

namespace Pair

/-- The receiver gives the notice up with the next message. -/
def loses (link path : String) (notice : NewVersion) (p : Pair) : Bool :=
  match p.toReceiver with
  | [] => false
  | m :: _ => p.receiver.late path notice m || p.receiver.drops link path notice m || p.receiver.fails link m

def refuses (link : String) (p : Pair) : Bool :=
  match p.toEditor with
  | [] => false
  | m :: _ => p.editor.fails link m

/-- What a pair comes to after the last write, as long as its notice is not lost. -/
inductive Follows (link path : String) (notice : NewVersion) (p : Pair) : Pair → Prop
  | start : Follows link path notice p p
  | send {q : Pair} (h : Follows link path notice p q) : Follows link path notice p (q.send link)
  | receive {q : Pair} (h : Follows link path notice p q) (keeps : q.loses link path notice = false) :
    Follows link path notice p (q.receive link)
  | serve {q : Pair} (h : Follows link path notice p q) (serves : q.refuses link = false) :
    Follows link path notice p (q.serve link)

/-- The connection lasts, and nothing is on its way. -/
structure Quiet (p : Pair) : Prop where
  connected : p.connected = true
  waiting : p.waiting = []
  toReceiver : p.toReceiver = []
  toEditor : p.toEditor = []

instance (p : Pair) : Decidable p.Quiet :=
  decidable_of_iff (p.connected = true ∧ p.waiting = [] ∧ p.toReceiver = [] ∧ p.toEditor = [])
    ⟨fun ⟨hc, hw, hr, he⟩ => ⟨hc, hw, hr, he⟩, fun q => ⟨q.connected, q.waiting, q.toReceiver, q.toEditor⟩⟩

/-! ### Where the last notice is -/

/-- Chunks that tell the last version. -/
def Fresh (client : UInt64) (ms : List Message) : Prop :=
  ∀ m ∈ ms, ∃ chunk, m = .fileChunk chunk ∧ chunk.client = client

/-- Where the last notice has got to, as long as it is not lost. -/
inductive Stage (link path : String) (notice : NewVersion) (h : Versions) (p : Pair) : Prop
  | told {before : List NewVersion} (waits : p.waiting = before ++ [notice]) (base : notice.base ≤ h.base)
    (latest : notice.base = h.base → notice.client = h.client)
  | sent {before after : List Message} (waits : p.waiting = [])
    (way : p.toReceiver = before ++ .newVersion notice :: after) (base : notice.base ≤ h.base)
    (latest : notice.base = h.base → notice.client = h.client ∧ Fresh h.client after)
  | pulling {x : Transfer} {bytes : Bytes} (waits : p.waiting = []) (base : notice.base = h.base)
    (client : notice.client = h.client) (pulls : p.receiver.Pulling link path h.base h.client x)
    (way : ∀ a z, x.outstanding.get? a = some z → .requestChunk (x.requestFor a z) ∈ p.toEditor ∨
      ∃ chunk, .fileChunk chunk ∈ p.toReceiver ∧ chunk.offset.toNat = a)
    (fresh : Fresh h.client p.toReceiver)
    (level : Tracked p.receiver.store path p.receiver.volume ⟨h.base, 0, .synced⟩ bytes)
  | committed (waits : p.waiting = []) (way : .commit path ⟨h.base, h.base + 1, h.client⟩ ∈ p.toEditor)
  | done (level : h.client = 0)

namespace Stage
variable {link path : String} {bound : Nat} {notice : NewVersion} {h : Versions} {p : Pair} {m : Message}
  {rest : List Message}

theorem send (st : Stage link path notice h p) (c : Consistent link path bound h p)
    (subscribed : (p.editor.session link).subscribed path = true) : Stage link path notice h (p.send link) := by
  unfold Pair.send
  split
  · rename_i n rest hc hw
    have told := c.waiting n (by rw [hw]; exact List.mem_cons_self)
    cases st with
    | @told before waits base latest =>
      cases before with
      | cons n' before =>
        rw [hw] at waits
        exact .told (List.cons.inj waits).2 base latest
      | nil =>
        rw [hw] at waits
        obtain ⟨rfl, rfl⟩ := List.cons.inj waits
        have forwarded : ((p.editor.session link).forward p.editor.node.setup n).replies = [.newVersion n] := by
          unfold Session.forward
          rw [told.path, subscribed, if_neg (by simpa using c.heard hc), if_pos rfl]
          rfl
        exact .sent rfl (by rw [forwarded]) base fun he => ⟨latest he, fun m hm => by cases hm⟩
    | sent waits way base latest => rw [hw] at waits; cases waits
    | pulling waits base client pulls way fresh level => rw [hw] at waits; cases waits
    | committed waits way => rw [hw] at waits; cases waits
    | done level => exact .done level
  · exact st

/-- The notice arrives at a receiver that is not past its base. -/
theorem heard (c : Consistent link path bound h p) (room : bound < UInt64.size)
    (hm : p.toReceiver = .newVersion notice :: rest) (waits : p.waiting = []) (base : notice.base ≤ h.base)
    (latest : notice.base = h.base → notice.client = h.client ∧ Fresh h.client rest)
    (intime : p.receiver.late path notice (.newVersion notice) = false)
    (whole : ¬p.receiver.Breaks link (.newVersion notice)) :
    Stage link path notice h { p with
      receiver := (p.receiver.answer link (.newVersion notice)).2
      toReceiver := rest
      toEditor := p.toEditor ++ replies (p.receiver.answer link (.newVersion notice)).1 } := by
  have sent := c.sent
  rw [hm] at sent
  obtain ⟨told, -⟩ := sent
  have notLate : ∀ {r bytes}, Tracked p.receiver.store path p.receiver.volume r bytes → ¬notice.base < r.base := by
    intro r bytes tracked hlt
    rw [Side.late_of_lt tracked.record hlt] at intime
    cases intime
  cases c.phase with
  | ahead counted covered tracked commits =>
    have hlt := Versions.lt_next (Nat.lt_of_le_of_lt c.counted room) counted covered
    exact absurd (UInt64.lt_of_le_of_lt base hlt) (notLate tracked)
  | level tracked asks =>
    have same : notice.base = h.base := UInt64.le_antisymm base (UInt64.not_lt.mp (notLate tracked))
    obtain ⟨client, fresh⟩ := latest same
    obtain rfl := told.path
    have tracked' := tracked
    rw [← same] at tracked'
    rcases Side.begins tracked' told.counted link with hb | ⟨x, requests, pulls, hr, asked⟩ | hr
    · exact absurd hb whole
    · rw [same, client] at pulls
      have level := Side.stays (m := .newVersion notice) tracked c.orderly ⟨rfl, base⟩ hr
      refine .pulling waits same client pulls (fun a z ha => Or.inl ?_) fresh level
      rw [hr]
      exact List.mem_append_right _ (List.mem_map_of_mem (asked a z ha))
    · refine .committed waits (List.mem_append_right _ ?_)
      rw [hr, same, client]
      exact List.mem_singleton_self _

/-- A chunk of what is pulled arrives. -/
theorem fed {chunk : FileChunk} {x : Transfer} {bytes : Bytes} (c : Consistent link path bound h p)
    (hm : p.toReceiver = .fileChunk chunk :: rest) (waits : p.waiting = []) (base : notice.base = h.base)
    (client : notice.client = h.client) (pulls : p.receiver.Pulling link path h.base h.client x)
    (way : ∀ a z, x.outstanding.get? a = some z → .requestChunk (x.requestFor a z) ∈ p.toEditor ∨
      ∃ other, .fileChunk other ∈ p.toReceiver ∧ other.offset.toNat = a)
    (hclient : chunk.client = h.client) (fresh : Fresh h.client rest)
    (level : Tracked p.receiver.store path p.receiver.volume ⟨h.base, 0, .synced⟩ bytes)
    (kept : p.receiver.drops link path notice (.fileChunk chunk) = false)
    (whole : ¬p.receiver.Breaks link (.fileChunk chunk)) :
    Stage link path notice h { p with
      receiver := (p.receiver.answer link (.fileChunk chunk)).2
      toReceiver := rest
      toEditor := p.toEditor ++ replies (p.receiver.answer link (.fileChunk chunk)).1 } := by
  have sent := c.sent
  rw [hm] at sent way
  obtain ⟨hpath, hpiece, -⟩ := sent
  have hd : chunk.data ≠ [] := by
    intro hd
    simp [Side.drops, hd, pulls.transfer, pulls.pull, pulls.client, base, client] at kept
  obtain ⟨-, gathers⟩ := c.pulls x _ pulls.transfer pulls.pull
  obtain ⟨-, -, g⟩ := gathers rfl
  have hcount : chunk.client = x.client := hclient.trans pulls.client.symm
  obtain ⟨hf, hle⟩ :=
    Transfer.fault?_of_piece g.size hcount hd (hcount ▸ (hpiece ⟨x, pulls.transfer, pulls.pull⟩ hd).2)
  rcases Side.feeds level c.orderly pulls hpath hd hf hle with hb | ⟨pulls', hr⟩ | hr
  · exact absurd hb whole
  · have level' := Side.stays (m := .fileChunk chunk) level c.orderly hpath hr
    refine .pulling waits base client pulls' (fun a z ha => ?_) fresh level'
    rw [x.requestFor_note, hr]
    -- A span that was awaited before is not the one that the chunk answers; the one after the chunk is asked
    -- for now.
    rcases Transfer.awaited_note hd ha with ⟨hne, ha⟩ | hrest
    · rcases way a z ha with hw | ⟨other, hw, ho⟩
      · exact Or.inl (List.mem_append_left _ hw)
      · rcases List.mem_cons.mp hw with he | hw
        · cases he
          exact absurd ho.symm hne
        · exact Or.inr ⟨other, hw, ho⟩
    · rw [hrest]
      exact Or.inl (List.mem_append_right _ (List.mem_singleton_self _))
  · refine .committed waits (List.mem_append_right _ ?_)
    rw [hr]
    exact List.mem_singleton_self _

theorem receive (st : Stage link path notice h p) (c : Consistent link path bound h p) (room : bound < UInt64.size)
    (hm : p.toReceiver = m :: rest) (keeps : p.loses link path notice = false)
    (goes : ends (p.receiver.answer link m).1 = false) :
    Stage link path notice h { p with
      receiver := (p.receiver.answer link m).2
      toReceiver := rest
      toEditor := p.toEditor ++ replies (p.receiver.answer link m).1 } := by
  unfold loses at keeps
  rw [hm] at keeps
  simp only [Bool.or_eq_false_iff] at keeps
  obtain ⟨⟨intime, kept⟩, works⟩ := keeps
  have whole : ¬p.receiver.Breaks link m := by
    rintro (hf | he)
    · rw [works] at hf
      cases hf
    · rw [goes] at he
      cases he
  cases st with
  | told waits base latest => exact .told waits base latest
  | @sent before after waits way base latest =>
    rw [hm] at way
    cases before with
    | cons first before => exact .sent waits (List.cons.inj way).2 base latest
    | nil =>
      obtain ⟨rfl, rfl⟩ := List.cons.inj way
      exact heard c room hm waits base latest intime whole
  | pulling waits base client pulls way fresh level =>
    rw [hm] at fresh
    obtain ⟨chunk, rfl, hclient⟩ := fresh m List.mem_cons_self
    exact fed c hm waits base client pulls way hclient
      (fun m hm => fresh m (List.mem_cons_of_mem _ hm)) level kept whole
  | committed waits way => exact .committed waits (List.mem_append_left _ way)
  | done level => exact .done level

/-- The editor answers what it is asked, and what was awaited is on its way. -/
theorem asked (st : Stage link path notice h p) (c : Consistent link path bound h p) (hm : p.toEditor = m :: rest)
    (ha : Asks path m) (works : p.editor.fails link m = false) (goes : ends (p.editor.answer link m).1 = false) :
    Stage link path notice h { p with
      editor := (p.editor.answer link m).2
      toEditor := rest
      toReceiver := p.toReceiver ++ replies (p.editor.answer link m).1 } := by
  have answers : (∃ request data, m = .requestChunk request ∧
      replies (p.editor.answer link m).1 = [.fileChunk ⟨path, h.client, request.offset, data⟩]) ∨
        ∃ nack, m = .nack nack ∧ replies (p.editor.answer link m).1 = [] := by
    rcases Side.replies_of_asks c.editor ha link with (hf | he) | hr
    · rw [works] at hf
      cases hf
    · rw [goes] at he
      cases he
    · exact hr
  have fresh' : Fresh h.client (replies (p.editor.answer link m).1) := by
    intro reply hr
    rcases answers with ⟨request, data, -, h⟩ | ⟨nack, -, h⟩ <;> rw [h] at hr
    · exact ⟨_, List.mem_singleton.mp hr, rfl⟩
    · cases hr
  have append : ∀ {ms}, Fresh h.client ms →
      Fresh h.client (ms ++ replies (p.editor.answer link m).1) := fun hms m hm =>
    (List.mem_append.mp hm).elim (hms m) (fresh' m)
  cases st with
  | told waits base latest => exact .told waits base latest
  | @sent before after waits way base latest =>
    have way' : p.toReceiver ++ replies (p.editor.answer link m).1 =
        before ++ .newVersion notice :: (after ++ replies (p.editor.answer link m).1) := by
      rw [way, List.append_assoc, List.cons_append]
    exact .sent waits way' base fun he => ⟨(latest he).1, append (latest he).2⟩
  | @pulling x bytes waits base client pulls way fresh level =>
    refine .pulling waits base client pulls (fun a z hget => ?_) (append fresh) level
    rcases way a z hget with hw | ⟨chunk, hw, ho⟩
    · rw [hm] at hw
      rcases List.mem_cons.mp hw with rfl | hw
      · obtain ⟨hlt, hle⟩ := pulls.accounted.asked a z hget
        have hsize := x.size.toNat_lt_size
        rcases answers with ⟨request, data, he, hr⟩ | ⟨nack, he, -⟩ <;> cases he
        refine Or.inr ⟨_, List.mem_append_right _ (by rw [hr]; exact List.mem_singleton_self _), ?_⟩
        exact UInt64.toNat_ofNat_of_lt' (by omega)
      · exact Or.inl hw
    · exact Or.inr ⟨chunk, List.mem_append_left _ hw, ho⟩
  | committed waits way =>
    refine .committed waits ?_
    rw [hm] at way
    rcases List.mem_cons.mp way with rfl | hw
    · exact ha.elim
    · exact hw
  | done level => exact .done level

/-- The editor applies a commit: it was the last one, or a notice that is not pulled yet will come too late. -/
theorem applied (st : Stage link path notice h p) (c : Consistent link path bound h p) (room : bound < UInt64.size)
    {client : UInt64} (hm : p.toEditor = .commit path ⟨h.base, h.base + 1, client⟩ :: rest)
    (counted : client ≠ 0) (covered : client ≤ h.client) (asks : ∀ m ∈ rest, Asks path m)
    (side : Side) (ms : List Message) :
    Stage link path notice (h.commit client)
      { p with editor := side, toEditor := rest, toReceiver := p.toReceiver ++ ms } := by
  have hlt := Versions.lt_next (Nat.lt_of_le_of_lt c.counted room) counted covered
  have behind : ∀ {base}, base ≤ h.base → base ≤ (h.commit client).base ∧
      base ≠ (h.commit client).base := fun hle =>
    ⟨UInt64.le_trans hle (UInt64.le_of_lt hlt), UInt64.ne_of_lt (UInt64.lt_of_le_of_lt hle hlt)⟩
  cases st with
  | told waits base latest => exact .told waits (behind base).1 fun he => absurd he (behind base).2
  | @sent before after waits way base latest =>
    have way' : p.toReceiver ++ ms = before ++ .newVersion notice :: (after ++ ms) := by
      rw [way, List.append_assoc, List.cons_append]
    exact .sent waits way' (behind base).1 fun he => absurd he (behind base).2
  | pulling waits base client pulls way fresh level =>
    have phase := c.phase
    rw [hm] at phase
    cases phase with
    | level tracked asks => exact (asks _ List.mem_cons_self).elim
    | ahead counted covered tracked commits =>
      have heq := level.record.symm.trans tracked.record
      simp only [Option.some.injEq, Except.ok.injEq, Record.mk.injEq] at heq
      exact absurd heq.1 (UInt64.ne_of_lt hlt)
  | committed waits way =>
    rw [hm] at way
    rcases List.mem_cons.mp way with he | hw
    · cases he
      exact .done (UInt64.sub_self _)
    · exact (asks _ hw).elim
  | done level =>
    rw [level, UInt64.le_zero_iff] at covered
    exact absurd covered counted

/-- Once nothing is on its way, the last notice has been pulled and committed. -/
theorem quiet (st : Stage link path notice h p) (q : p.Quiet) : h.client = 0 := by
  cases st with
  | @told before waits base latest =>
    rw [q.waiting] at waits
    exact absurd waits.symm (by simp)
  | @sent before after waits way base latest =>
    rw [q.toReceiver] at way
    exact absurd way.symm (by simp)
  | pulling waits base client pulls way fresh level =>
    -- Nothing is awaited any more, but then the transfer is complete.
    have complete := pulls.accounted.complete fun a => by
      cases hget : Table.get? _ a with
      | none => rfl
      | some z =>
        rcases way a z hget with hw | ⟨chunk, hw, -⟩
        · rw [q.toEditor] at hw
          cases hw
        · rw [q.toReceiver] at hw
          cases hw
    rw [pulls.partly] at complete
    cases complete
  | committed waits way =>
    rw [q.toEditor] at way
    cases way
  | done level => exact level

end Stage

end Pair

end TreeReplica
