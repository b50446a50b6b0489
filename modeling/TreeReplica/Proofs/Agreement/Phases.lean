import TreeReplica.Proofs.Agreement.Versions

/-! Where the two nodes stand. The receiver is level with the editor, or it has put a version in place and is
    one base ahead until its commit arrives (`Versions.Phase`); so each edit and each commit is the next thing
    that the editor can come to (`Versions.toNat_next`). -/

namespace TreeReplica
open Volume

namespace Versions

/-! ### Both sides -/

/-- What is on its way to the editor is asked, but for at most one commit. -/
def Commits (path : String) (c : Commit) : List Message → Prop
  | [] => True
  | m :: ms => (Asks path m ∧ Commits path c ms) ∨ (m = .commit path c ∧ ∀ m ∈ ms, Asks path m)

/-- The receiver is level with the editor, with the bytes of its base, or it is one base ahead, with the bytes of a
    version that it has committed. -/
inductive Phase (h : Versions) (path : String) (r : Side) (ms : List Message) : Prop
  | level (tracked : Tracked r.store path r.volume ⟨h.base, 0, .synced⟩ (h.bytes 0)) (asks : ∀ m ∈ ms, Asks path m)
  | ahead {client : UInt64} (counted : client ≠ 0) (covered : client ≤ h.client)
    (tracked : Tracked r.store path r.volume ⟨h.base + 1, 0, .synced⟩ (h.bytes client))
    (commits : Commits path ⟨h.base, h.base + 1, client⟩ ms)

section Phase
variable {h h' : Versions} {path link : String} {c : Commit} {r : Side} {m : Message} {ms rs : List Message}

theorem commits_of_asks (ha : ∀ m ∈ ms, Asks path m) : Commits path c ms := by
  induction ms with
  | nil => trivial
  | cons m ms ih => exact Or.inl ⟨ha m List.mem_cons_self, ih fun m hm => ha m (List.mem_cons_of_mem _ hm)⟩

theorem asks_append (ha : ∀ m ∈ ms, Asks path m) (hr : ∀ m ∈ rs, Asks path m) :
    ∀ m ∈ ms ++ rs, Asks path m := fun m hm =>
  (List.mem_append.mp hm).elim (ha m) (hr m)

theorem Commits.append (hc : Commits path c ms) (hr : ∀ m ∈ rs, Asks path m) : Commits path c (ms ++ rs) := by
  induction ms with
  | nil => exact commits_of_asks hr
  | cons m ms ih =>
    rcases hc with ⟨hm, hc⟩ | ⟨hm, ha⟩
    · exact Or.inl ⟨hm, ih hc⟩
    · exact Or.inr ⟨hm, asks_append ha hr⟩

theorem commits_snoc (ha : ∀ m ∈ ms, Asks path m) : Commits path c (ms ++ [.commit path c]) := by
  induction ms with
  | nil => exact Or.inr ⟨rfl, fun _ hm => by cases hm⟩
  | cons m ms ih => exact Or.inl ⟨ha m List.mem_cons_self, ih fun m hm => ha m (List.mem_cons_of_mem _ hm)⟩

theorem Phase.later (hp : h.Phase path r ms) (hl : h.Later h') (he : h'.base = h.base) : h'.Phase path r ms := by
  obtain ⟨hclient, hbytes⟩ := hl.kept he
  cases hp with
  | level tracked asks =>
    refine .level ?_ asks
    rw [he, hbytes 0 UInt64.zero_le]
    exact tracked
  | ahead counted covered tracked commits =>
    refine .ahead counted (UInt64.le_trans covered hclient) ?_ (by rw [he]; exact commits)
    rw [he, hbytes _ covered]
    exact tracked

/-- Where an edit was counted, the base is not the last one, as long as all versions are below the bound. -/
theorem toNat_next {client : UInt64} (room : h.base.toNat + h.client.toNat < UInt64.size) (counted : client ≠ 0)
    (covered : client ≤ h.client) : (h.base + 1).toNat = h.base.toNat + 1 := by
  have hpos : client.toNat ≠ 0 := fun h => counted (UInt64.toNat_inj.mp h)
  rw [UInt64.le_iff_toNat_le] at covered
  exact toNat_succ (by omega)

/-- Nothing that arrives is of a base that the receiver has not reached. -/
theorem hears_of_sent {live : Prop} {rest : List Message} {base : UInt64} (hs : h.Sent path live (m :: rest))
    (hle : h.base ≤ base) :
    Side.Hears path base m := by
  cases m with
  | newVersion notice => exact ⟨hs.1.path, UInt64.le_trans hs.1.base hle⟩
  | fileChunk chunk => exact hs.1
  | nack nack => trivial
  | _ => exact hs.elim

/-- What is put in place is a version of the current base. -/
theorem version_of_brings {rest : List Message} {base client : UInt64} {whole : Bytes}
    (pulls : h.Pulls path (r.session link).transfers r.volume)
    (hs : h.Sent path (h.Live path (r.session link).transfers) (m :: rest)) (hle : h.base ≤ base)
    (hb : r.Brings link path base m client whole) :
    base = h.base ∧ client ≠ 0 ∧ client ≤ h.client ∧ whole = h.bytes client := by
  cases hb with
  | @nothing notice hb hz =>
    obtain ⟨told, -⟩ := hs
    have heq : notice.base = h.base := UInt64.le_antisymm told.base (hb ▸ hle)
    obtain ⟨hc, hsize⟩ := told.version heq
    rw [hz] at hsize
    exact ⟨hb ▸ heq, told.counted, hc, (List.eq_nil_of_length_eq_zero hsize.symm).symm⟩
  | @gathered chunk x whole hx hpull hw =>
    obtain ⟨hle', hgathers⟩ := pulls x _ hx hpull
    have heq := UInt64.le_antisymm hle' hle
    obtain ⟨hne, hc, hg⟩ := hgathers heq
    refine ⟨heq, hne, hc, hw _ hg fun hcount hd => ?_⟩
    rw [← hcount]
    exact (hs.2.1 ⟨x, hx, by rw [hpull, heq]⟩ hd).2

/-- The receiver stays in its phase, or takes a version of the base on which it was level. -/
theorem Phase.hears (hp : h.Phase path r ms) (ho : r.node.Orderly r.volume)
    (pulls : h.Pulls path (r.session link).transfers r.volume) {rest : List Message}
    (hs : h.Sent path (h.Live path (r.session link).transfers) (m :: rest))
    (room : h.base.toNat + h.client.toNat < UInt64.size) :
    h.Phase path (r.answer link m).2 (ms ++ replies (r.answer link m).1) := by
  cases hp with
  | level tracked asks =>
    have hle := UInt64.le_refl h.base
    rcases Side.hears tracked ho (hears_of_sent hs hle) with ⟨t, hr⟩ | ⟨client, whole, t, hr, hb⟩
    · exact .level t (asks_append asks hr)
    · obtain ⟨-, hne, hc, rfl⟩ := version_of_brings pulls hs hle hb
      rw [hr]
      exact .ahead hne hc t (commits_snoc asks)
  | ahead counted covered tracked commits =>
    have hnext := toNat_next room counted covered
    have hle : h.base ≤ h.base + 1 := by
      rw [UInt64.le_iff_toNat_le]
      omega
    rcases Side.hears tracked ho (hears_of_sent hs hle) with ⟨t, hr⟩ | ⟨client, whole, -, -, hb⟩
    · exact .ahead counted covered t (commits.append hr)
    · -- The receiver is past the base of every version that can still arrive.
      have heq := congrArg UInt64.toNat (version_of_brings pulls hs hle hb).1
      omega

end Phase

/-! ### Edits and commits -/

section Next
variable {h : Versions} {client : UInt64} (bytes : Bytes)

theorem toNat_edit (room : h.base.toNat + h.client.toNat + 1 < UInt64.size) :
    (h.client + 1).toNat = h.client.toNat + 1 :=
  toNat_succ (Nat.lt_of_le_of_lt (Nat.succ_le_succ (Nat.le_add_left _ _)) room)

theorem edit_ne_zero (room : h.base.toNat + h.client.toNat + 1 < UInt64.size) : h.client + 1 ≠ 0 := fun h0 => by
  rw [← UInt64.toNat_inj, toNat_edit room] at h0
  cases h0

theorem later_edit (room : h.base.toNat + h.client.toNat + 1 < UInt64.size) : h.Later (h.edit bytes) := by
  have hnext := toNat_edit room
  refine ⟨UInt64.le_refl _, fun _ => ⟨?_, fun k hk => if_neg fun he => ?_⟩⟩
  · show h.client ≤ h.client + 1
    rw [UInt64.le_iff_toNat_le]
    omega
  · rw [UInt64.le_iff_toNat_le, he, hnext] at hk
    omega

theorem record_edit (room : h.base.toNat + h.client.toNat + 1 < UInt64.size) :
    h.record.edit = (h.edit bytes).record := by
  have hne := edit_ne_zero room
  show h.record.edit = ⟨h.base, h.client + 1, if h.client + 1 = 0 then .synced else .dirty⟩
  rw [if_neg hne]
  by_cases hz : h.client = 0 <;> simp [record, Record.edit, hz]

theorem current_edit (h : Versions) (bytes : Bytes) : (h.edit bytes).current = bytes := if_pos rfl

theorem notice_edit (path : String) (room : h.base.toNat + h.client.toNat + 1 < UInt64.size)
    (size : bytes.length ≤ maxSize) :
    LocalEdit.notice? path (h.edit bytes).record bytes.length = some ((h.edit bytes).notice path) ∧
      (h.edit bytes).Told path ((h.edit bytes).notice path) := by
  have hne := edit_ne_zero room
  have hstate : (h.edit bytes).record.state ≠ .deleted := by
    show (if h.client + 1 = 0 then RecordState.synced else .dirty) ≠ .deleted
    rw [if_neg hne]
    decide
  have hlen : bytes.length = (h.edit bytes).current.length := by rw [current_edit]
  refine ⟨(if_neg hstate).trans (by rw [hlen]; rfl), rfl, UInt64.le_refl _, hne, fun _ => ⟨UInt64.le_refl _, ?_⟩⟩
  show (UInt64.ofNat (h.edit bytes).current.length).toNat = (h.edit bytes).current.length
  rw [current_edit, UInt64.toNat_ofNat']
  unfold maxSize at size
  omega

theorem current_commit (h : Versions) (client : UInt64) : (h.commit client).current = h.current := by
  show h.bytes (h.client - client + client) = h.bytes h.client
  rw [UInt64.sub_add_cancel]

theorem base_commit (h : Versions) (client : UInt64) : (h.commit client).bytes 0 = h.bytes client :=
  congrArg h.bytes (UInt64.zero_add client)

variable (room : h.base.toNat + h.client.toNat < UInt64.size) (counted : client ≠ 0) (covered : client ≤ h.client)
include room counted covered

theorem lt_next : h.base < h.base + 1 := by
  rw [UInt64.lt_iff_toNat_lt, toNat_next room counted covered]
  exact Nat.lt_succ_self _

theorem later_commit : h.Later (h.commit client) := by
  have hlt := lt_next room counted covered
  refine ⟨UInt64.le_of_lt hlt, fun he => ?_⟩
  rw [show h.base + 1 = h.base from he] at hlt
  exact absurd hlt (UInt64.lt_irrefl _)

theorem record_commit : h.record.commit ⟨h.base, h.base + 1, client⟩ = .ok (h.commit client).record :=
  Record.commit_of_le h.state_cases rfl (lt_next room counted covered) covered

theorem counted_commit : (h.commit client).base.toNat + (h.commit client).client.toNat ≤
    h.base.toNat + h.client.toNat := by
  have hpos : client.toNat ≠ 0 := fun h => counted (UInt64.toNat_inj.mp h)
  show (h.base + 1).toNat + (h.client - client).toNat ≤ _
  rw [toNat_next room counted covered, UInt64.toNat_sub_of_le _ _ covered]
  rw [UInt64.le_iff_toNat_le] at covered
  omega

end Next

end Versions

end TreeReplica
