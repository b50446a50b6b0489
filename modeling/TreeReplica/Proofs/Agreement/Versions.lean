import TreeReplica.Proofs.Pair

/-! The versions of a file at the current base of the one node that edits it (`Versions`). What waits and what
    is on its way tells the truth about them (`Versions.Sent`), and what is pulled is one of them
    (`Versions.Pulls`). -/

namespace TreeReplica
open Volume

/-! ### Versions -/

/-- The base and the edit count of the editor, and the bytes of its file at each count of this base. -/
structure Versions where
  base : UInt64
  client : UInt64
  bytes : UInt64 → Bytes

namespace Versions

def record (h : Versions) : Record := ⟨h.base, h.client, if h.client = 0 then .synced else .dirty⟩

theorem state_cases (h : Versions) : h.record.state = .synced ∨ h.record.state = .dirty := by
  unfold record
  dsimp only
  split
  · exact Or.inl rfl
  · exact Or.inr rfl

theorem client_of_synced (h : Versions) (hs : h.record.state = .synced) : h.client = 0 := by
  unfold record at hs
  dsimp only at hs
  split at hs
  · assumption
  · cases hs

def current (h : Versions) : Bytes := h.bytes h.client

/-- What the editor announces of its current version. -/
def notice (h : Versions) (path : String) : NewVersion := ⟨path, h.base, h.client, .ofNat h.current.length⟩

/-- A notice that the editor has made. -/
structure Told (h : Versions) (path : String) (notice : NewVersion) : Prop where
  path : notice.path = path
  base : notice.base ≤ h.base
  counted : notice.client ≠ 0
  version : notice.base = h.base → notice.client ≤ h.client ∧ notice.size.toNat = (h.bytes notice.client).length

/-- A chunk that has a piece of the version that it tells. -/
def Piece (h : Versions) (chunk : FileChunk) : Prop :=
  chunk.data ≠ [] → chunk.client ≤ h.client ∧ chunk.data <+: (h.bytes chunk.client).drop chunk.offset.toNat

def Says (h : Versions) (path : String) : Message → Prop
  | .newVersion notice => h.Told path notice
  | .fileChunk chunk => chunk.path = path ∧ h.Piece chunk
  | .nack _ => True
  | _ => False

/-- What is on its way to the receiver. Once the receiver pulls a version of the current base (`live`), all
    chunks have pieces of the versions of this base; before, chunks of earlier bases may still arrive. -/
def Sent (h : Versions) (path : String) (live : Prop) : List Message → Prop
  | [] => True
  | .newVersion notice :: ms => h.Told path notice ∧ h.Sent path (live ∨ notice.base = h.base) ms
  | .fileChunk chunk :: ms => chunk.path = path ∧ (live → h.Piece chunk) ∧ h.Sent path live ms
  | .nack _ :: ms => h.Sent path live ms
  | _ :: _ => False

/-- Where the editor has come to: further on the same base, or to a later base. -/
structure Later (h h' : Versions) : Prop where
  base : h.base ≤ h'.base
  kept : h'.base = h.base → h.client ≤ h'.client ∧ ∀ k ≤ h.client, h'.bytes k = h.bytes k

section Later
variable {h h' : Versions} {path : String} {live live' : Prop} {ms rs : List Message}

theorem Later.of_base_eq (hl : h.Later h') {base : UInt64} (hb : base ≤ h.base) (he : base = h'.base) :
    base = h.base ∧ h'.base = h.base := by
  have := UInt64.le_antisymm (he ▸ hb) hl.base
  exact ⟨he.trans this, this⟩

theorem Told.later {notice : NewVersion} (ht : h.Told path notice) (hl : h.Later h') : h'.Told path notice where
  path := ht.path
  base := UInt64.le_trans ht.base hl.base
  counted := ht.counted
  version he := by
    obtain ⟨heq, hsame⟩ := hl.of_base_eq ht.base he
    obtain ⟨hc, hs⟩ := ht.version heq
    obtain ⟨hclient, hbytes⟩ := hl.kept hsame
    exact ⟨UInt64.le_trans hc hclient, by rw [hs, hbytes _ hc]⟩

theorem Piece.later {chunk : FileChunk} (hp : h.Piece chunk) (hl : h.Later h') (he : h'.base = h.base) :
    h'.Piece chunk := by
  intro hd
  obtain ⟨hc, hpiece⟩ := hp hd
  obtain ⟨hclient, hbytes⟩ := hl.kept he
  exact ⟨UInt64.le_trans hc hclient, by rw [hbytes _ hc]; exact hpiece⟩

/-- On a later base nothing that is on its way is of this base. -/
theorem Sent.later (hs : h.Sent path live ms) (hl : h.Later h') (himp : live' → live ∧ h'.base = h.base) :
    h'.Sent path live' ms := by
  induction ms generalizing live live' with
  | nil => trivial
  | cons m ms ih =>
    cases m with
    | newVersion notice =>
      obtain ⟨ht, hs⟩ := hs
      refine ⟨ht.later hl, ih hs fun hlive => ?_⟩
      rcases hlive with hlive | he
      · exact ⟨Or.inl (himp hlive).1, (himp hlive).2⟩
      · obtain ⟨heq, hsame⟩ := hl.of_base_eq ht.base he
        exact ⟨Or.inr heq, hsame⟩
    | fileChunk chunk =>
      obtain ⟨hpath, hpiece, hs⟩ := hs
      exact ⟨hpath, fun hlive => (hpiece (himp hlive).1).later hl (himp hlive).2, ih hs himp⟩
    | nack nack =>
      have hs : h.Sent path live ms := hs
      exact ih hs himp
    | _ => exact hs

def edit (h : Versions) (bytes : Bytes) : Versions :=
  ⟨h.base, h.client + 1, fun k => if k = h.client + 1 then bytes else h.bytes k⟩

/-- The edits up to this count are committed. -/
def commit (h : Versions) (client : UInt64) : Versions :=
  ⟨h.base + 1, h.client - client, fun k => h.bytes (k + client)⟩

theorem Later.refl (h : Versions) : h.Later h := ⟨UInt64.le_refl _, fun _ => ⟨UInt64.le_refl _, fun _ _ => rfl⟩⟩

theorem Sent.mono (hs : h.Sent path live ms) (himp : live' → live) : h.Sent path live' ms :=
  hs.later (.refl h) fun hlive => ⟨himp hlive, rfl⟩

theorem Sent.append (hs : h.Sent path live ms) (hr : ∀ m ∈ rs, h.Says path m) : h.Sent path live (ms ++ rs) := by
  induction ms generalizing live with
  | nil =>
    induction rs generalizing live with
    | nil => trivial
    | cons r rs ih =>
      have hfirst := hr r List.mem_cons_self
      have hrest : ∀ live, h.Sent path live ([] ++ rs) := fun live =>
        ih (fun m hm => hr m (List.mem_cons_of_mem _ hm)) trivial
      cases r with
      | newVersion notice => exact ⟨hfirst, hrest _⟩
      | fileChunk chunk => exact ⟨hfirst.1, fun _ => hfirst.2, hrest _⟩
      | nack nack => exact hrest live
      | _ => exact hfirst
  | cons m ms ih =>
    cases m with
    | newVersion notice => exact ⟨hs.1, ih hs.2⟩
    | fileChunk chunk => exact ⟨hs.1, hs.2.1, ih hs.2.2⟩
    | nack nack =>
      have hs : h.Sent path live ms := hs
      exact ih hs
    | _ => exact hs

end Later

/-! ### Transfers -/

/-- The transfer of the path, if it is of the current base, has gathered pieces of the version that it tells. -/
def Pulls (h : Versions) (path : String) (ts : Transfers) (v : Volume) : Prop :=
  ∀ x base, ts.get? path = some x → x.pull = .peerEdit base → base ≤ h.base ∧
    (base = h.base → x.client ≠ 0 ∧ x.client ≤ h.client ∧ x.Gathers v (h.bytes x.client))

/-- A version of the current base is being pulled. -/
def Live (h : Versions) (path : String) (ts : Transfers) : Prop :=
  ∃ x, ts.get? path = some x ∧ x.pull = .peerEdit h.base

section Pulls
variable {h h' : Versions} {path link : String} {ts ts' : Transfers} {v w : Volume} {n : Node} {m : Message}
  {rest : List Message}

theorem Pulls.later (hp : h.Pulls path ts v) (hl : h.Later h') : h'.Pulls path ts v := by
  intro x base hx hpull
  obtain ⟨hle, hgathers⟩ := hp x base hx hpull
  refine ⟨UInt64.le_trans hle hl.base, fun he => ?_⟩
  obtain ⟨heq, hsame⟩ := hl.of_base_eq hle he
  obtain ⟨hne, hc, hg⟩ := hgathers heq
  obtain ⟨hclient, hbytes⟩ := hl.kept hsame
  exact ⟨hne, UInt64.le_trans hc hclient, by rw [hbytes _ hc]; exact hg⟩

theorem Live.later (hlive : h'.Live path ts) (hp : h.Pulls path ts v) (hl : h.Later h') :
    h.Live path ts ∧ h'.base = h.base := by
  obtain ⟨x, hx, hpull⟩ := hlive
  obtain ⟨heq, hsame⟩ := hl.of_base_eq (hp x _ hx hpull).1 rfl
  exact ⟨⟨x, hx, by rw [hpull, hsame]⟩, hsame⟩

theorem pulls_empty (h : Versions) (path : String) (v : Volume) : h.Pulls path .empty v := fun _ _ hx => by cases hx

theorem base_of_begun {notice : NewVersion} {p : Pull} {t : Transfer} {base : UInt64}
    (began : Transfer.Begun notice p v w t) (pulls : p = .catchUp notice.base ∨ p = .peerEdit notice.base)
    (hpull : t.pull = .peerEdit base) : base = notice.base := by
  rw [began.pull] at hpull
  rcases pulls with rfl | rfl
  · cases hpull
  · exact (Pull.peerEdit.inj hpull).symm

/-- The next message leaves the transfer, feeds it with a piece of its version, or starts one of a told version. -/
theorem Pulls.turn (hp : h.Pulls path (n.session link).transfers v) (ho : n.Orderly v)
    (turn : Turn m (n.session link).transfers v ts' w)
    (hs : h.Sent path (h.Live path (n.session link).transfers) (m :: rest)) :
    h.Pulls path ts' w := by
  intro x base hx hpull
  rcases ho.follows turn hx with ⟨notice, p, rfl, -, pulls, began⟩ | ⟨x₀, hx₀, on⟩
  · obtain ⟨told, -⟩ := hs
    obtain rfl := base_of_begun began pulls hpull
    refine ⟨told.base, fun he => ?_⟩
    obtain ⟨hc, hsize⟩ := told.version he
    rw [began.client]
    exact ⟨told.counted, hc, began.gathers hsize⟩
  · obtain ⟨hle, hrest⟩ := hp x₀ base hx₀ (on.pull ▸ hpull)
    refine ⟨hle, fun he => ?_⟩
    obtain ⟨hne, hc, hg⟩ := hrest he
    rw [on.client]
    refine ⟨hne, hc, on.gathers _ hg fun chunk hm _ hcount hd => ?_⟩
    subst hm
    obtain ⟨-, hpiece, -⟩ := hs
    rw [← hcount]
    exact (hpiece ⟨x₀, hx₀, by rw [← on.pull, hpull, he]⟩ hd).2

/-- A version is live after a message that was live before, or that the message announces. -/
theorem Live.turn (ho : n.Orderly v) (turn : Turn m (n.session link).transfers v ts' w) (hlive : h.Live path ts') :
    h.Live path (n.session link).transfers ∨ ∃ notice, m = .newVersion notice ∧ notice.base = h.base := by
  obtain ⟨x, hx, hpull⟩ := hlive
  rcases ho.follows turn hx with ⟨notice, p, hm, -, pulls, began⟩ | ⟨x₀, hx₀, on⟩
  · exact Or.inr ⟨notice, hm, (base_of_begun began pulls hpull).symm⟩
  · exact Or.inl ⟨x₀, hx₀, by rw [← on.pull, hpull]⟩

theorem Sent.turn (ho : n.Orderly v) (turn : Turn m (n.session link).transfers v ts' w)
    (hs : h.Sent path (h.Live path (n.session link).transfers) (m :: rest)) :
    h.Sent path (h.Live path ts') rest := by
  cases m with
  | newVersion notice =>
    refine hs.2.mono fun hlive => (hlive.turn ho turn).imp id fun ⟨notice', he, hb⟩ => ?_
    cases he
    exact hb
  | fileChunk chunk =>
    exact hs.2.2.mono fun hlive => (hlive.turn ho turn).elim id fun ⟨notice', he, _⟩ => by cases he
  | nack nack =>
    have hs : h.Sent path (h.Live path (n.session link).transfers) rest := hs
    exact hs.mono fun hlive => (hlive.turn ho turn).elim id fun ⟨notice', he, _⟩ => by cases he
  | _ => exact hs.elim

end Pulls

end Versions

end TreeReplica
