import TreeReplica.Proofs.Fetching
import TreeReplica.Proofs.Record
import TreeReplica.Proofs.Sample

/-! A pull succeeds. An announcement that the receiver can pull has it ask for every byte (`Ready.starts`).
    Each answer that is given and each one that arrives then counts against the bytes that are awaited, two
    for each byte (`Runs.stage`). So there is an end to both, whatever the order, and at the end the receiver
    has the file (`pull_succeeds`). -/

namespace TreeReplica
open Volume

namespace Fetch

/-- A pull after `k` answers and arrivals: it is underway, and what is awaited bounds what is left to do, or
    it is over. -/
inductive Stage (l : Route) (e : Errand) (k : Nat) (f : Fetch) : Prop
  | underway {t : Transfer} {pending : List ChunkRequest} (u : f.Underway l e t pending)
    (steps : k + 2 * Transfer.bytesAsked (f.asked ++ pending) ≤ 2 * e.bytes.length + pending.length)
  | finished (asked : f.asked = []) (coming : f.coming = [])
    (arrived : f.Arrived l e.path e.bytes e.settled e.replies) (steps : k ≤ 2 * e.bytes.length)

section Stage
variable {l : Route} {e : Errand} {t : Transfer} {f f₀ g : Fetch} {k : Nat} {request : ChunkRequest}
  {chunk : FileChunk}

theorem Stage.elsewhere (st : f.Stage l e k) (h : f.Elsewhere l e.path g) : g.Stage l e k := by
  cases st with
  | underway u steps => exact .underway (u.elsewhere h) (h.asked ▸ steps)
  | finished asked coming arrived steps =>
    exact .finished (h.asked.trans asked) (h.coming.trans coming) (arrived.elsewhere h) steps

theorem Stage.answer (st : f.Stage l e k) (s : f.Serving l e) (readable : e.bytes.length ≤ lastPage)
    (hr : request ∈ f.asked) : ∃ g, f.answer l request = .ok g ∧ g.Serving l e ∧ g.Stage l e (k + 1) := by
  cases st with
  | finished asked _ _ _ =>
    rw [asked] at hr
    cases hr
  | @underway t pending u steps =>
    obtain ⟨g, hg, s', u', order⟩ := u.answer s readable hr
    refine ⟨g, hg, s', .underway u' ?_⟩
    rw [Transfer.bytesAsked_perm order, List.length_append, List.length_singleton]
    omega

theorem Stage.arrive (st : f.Stage l e k) (s : f.Serving l e) (settles : e.Settles) (chunks : 0 < l.serverChunk)
    (hc : chunk ∈ f.coming) : ∃ g, f.arrive l chunk = .ok g ∧ g.Serving l e ∧ g.Stage l e (k + 1) := by
  cases st with
  | finished _ coming _ _ =>
    rw [coming] at hc
    cases hc
  | @underway t pending u steps =>
    obtain ⟨g, hg, hserver, next⟩ := u.arrive settles chunks hc
    refine ⟨g, hg, ⟨hserver ▸ s.file, hserver ▸ s.unlocked⟩, ?_⟩
    rcases next with ⟨t', pending', u', hlen, fewer⟩ | ⟨asked, coming, arrived⟩
    · exact .underway u' (by omega)
    · -- What has just arrived was awaited until then.
      have most := u.awaits.length_le (List.subset_append_right f.asked pending)
      have sum := Transfer.bytesAsked_append f.asked pending
      have some : pending ≠ [] := fun hnil => by
        rw [u.coming, hnil] at hc
        cases hc
      have hpos := List.length_pos_iff.mpr some
      exact .finished asked coming arrived (by omega)

/-- After `k` answers and arrivals nothing that is left to do can fail, and there is an end to it. -/
structure Live (l : Route) (bound k : Nat) (f : Fetch) : Prop where
  bounded : k ≤ bound
  answers : ∀ request ∈ f.asked, ∃ g, f.answer l request = .ok g
  arrives : ∀ chunk ∈ f.coming, ∃ g, f.arrive l chunk = .ok g

theorem Stage.live (st : f.Stage l e k) (s : f.Serving l e) (settles : e.Settles) (chunks : 0 < l.serverChunk)
    (readable : e.bytes.length ≤ lastPage) : f.Live l (2 * e.bytes.length) k := by
  refine ⟨?_, fun request hr => ?_, fun chunk hc => ?_⟩
  · cases st with
    | finished _ _ _ steps => exact steps
    | @underway t pending u steps =>
      have most := u.awaits.length_le (List.subset_append_right f.asked pending)
      have sum := Transfer.bytesAsked_append f.asked pending
      omega
  · obtain ⟨g, hg, -⟩ := st.answer s readable hr
    exact ⟨g, hg⟩
  · obtain ⟨g, hg, -⟩ := st.arrive s settles chunks hc
    exact ⟨g, hg⟩

/-- A transfer that awaited nothing would be complete. -/
theorem Stage.arrived (st : f.Stage l e k) (hasked : f.asked = []) (hcoming : f.coming = []) :
    f.Arrived l e.path e.bytes e.settled e.replies := by
  cases st with
  | finished _ _ arrived _ => exact arrived
  | @underway t pending u steps =>
    rw [u.coming, List.map_eq_nil_iff] at hcoming
    have complete := u.awaits.complete_iff.mpr (by rw [hasked, hcoming]; rfl)
    rw [u.partly] at complete
    cases complete

theorem Runs.stage (run : f₀.Runs l e.path k f) (settles : e.Settles) (chunks : 0 < l.serverChunk)
    (readable : e.bytes.length ≤ lastPage) (serving : f₀.Serving l e) (stage : f₀.Stage l e 0) :
    f.Serving l e ∧ f.Stage l e k := by
  induction run with
  | start => exact ⟨serving, stage⟩
  | answer _ hr ha ih =>
    obtain ⟨g, hg, next⟩ := ih.2.answer ih.1 readable hr
    cases ha.symm.trans hg
    exact next
  | arrive _ hc ha ih =>
    obtain ⟨g, hg, next⟩ := ih.2.arrive ih.1 settles chunks hc
    cases ha.symm.trans hg
    exact next
  | elsewhere _ h ih => exact ⟨ih.1.elsewhere h, ih.2.elsewhere h⟩

/-- What cannot fail and has an end can be taken to it. -/
theorem Runs.completed {f₀ f : Fetch} {path : String} {bound k : Nat} (run : f₀.Runs l path k f)
    (live : ∀ k f, f₀.Runs l path k f → f.Live l bound k) :
    ∃ k f, f₀.Runs l path k f ∧ f.asked = [] ∧ f.coming = [] := by
  have here := live k f run
  cases hasked : f.asked with
  | cons request rest =>
    have hr : request ∈ f.asked := by rw [hasked]; exact List.mem_cons_self
    obtain ⟨g, hg⟩ := here.answers request hr
    have next := (live _ _ (run.answer hr hg)).bounded
    exact (run.answer hr hg).completed live
  | nil =>
    cases hcoming : f.coming with
    | cons chunk rest =>
      have hc : chunk ∈ f.coming := by rw [hcoming]; exact List.mem_cons_self
      obtain ⟨g, hg⟩ := here.arrives chunk hc
      have next := (live _ _ (run.arrive hc hg)).bounded
      exact (run.arrive hc hg).completed live
    | nil => exact ⟨k, f, run, hasked, hcoming⟩
termination_by bound - k

end Stage

/-! ### The announcement -/

/-- Nothing has been asked for, and the receiver can pull what is announced: it can have its lease and make a
    staging file. -/
structure Ready (l : Route) (e : Errand) (notice : NewVersion) (lease : Lease) (t : Transfer)
    (w w₁ : Volume) (f : Fetch) : Prop where
  path : notice.path = e.path
  client : notice.client = e.client
  size : notice.size.toNat = e.bytes.length
  transfer : f.transfers.get? e.path = none
  unlocked : f.receiver.locked = []
  asked : f.asked = []
  coming : f.coming = []
  silent : f.said = []
  held : l.receiver.acquire notice.path f.receiver = (.ok lease, w)
  plan : lease.record.plan notice = .pull e.pull
  waiting : lease.record.announced notice = e.waiting
  begins : Transfer.begin l.receiver notice e.pull w = (.ok t, w₁)
  place : w₁.TakesFile lease.file

section Ready
variable {l : Route} {e : Errand} {notice : NewVersion} {lease : Lease} {t : Transfer} {w w₁ : Volume} {f : Fetch}

/-- Content of no bytes is put in place at once. -/
theorem Ready.at_once (h : f.Ready l e notice lease t w w₁) (s : f.Serving l e) (settles : e.Settles)
    (hz : notice.size = 0) :
    ∃ g, f.announce l notice = .ok g ∧ g.Serving l e ∧ g.Stage l e 0 := by
  obtain ⟨-, began, -⟩ := Transfer.begun_of_begin h.begins
  have settle := settles.settles t (began.path.trans h.path) began.pull (began.client.trans h.client)
  rw [← h.waiting] at settle
  obtain ⟨w', hw, tracked, -⟩ :=
    Store.announced_takes h.held h.plan h.begins h.place hz settle l.receiverChunk f.transfers
  have hbytes : e.bytes = [] := List.length_eq_zero_iff.mp (by rw [← h.size, hz]; rfl)
  refine ⟨{ f with receiver := w', said := f.said ++ e.replies }, ?_, ⟨s.file, s.unlocked⟩,
    .finished h.asked h.coming ⟨h.transfer, ?_, ?_⟩ (Nat.zero_le _)⟩
  · unfold announce
    rw [hw]
    exact congrArg Except.ok (reply_others _ settles.replies)
  · rw [hbytes, ← h.path]
    exact tracked
  · rw [h.silent]
    rfl

/-- A pull once everything was asked for. -/
def asking (l : Route) (path : String) (t : Transfer) (v : Volume) (f : Fetch) : Fetch :=
  { f with
    receiver := v
    transfers := f.transfers.insert path (t.requests l.receiverChunk).2
    asked := f.asked ++ (t.requests l.receiverChunk).1 }

/-- Of other content every byte is asked for. -/
theorem Ready.asks (h : f.Ready l e notice lease t w w₁) (s : f.Serving l e) (hz : notice.size ≠ 0) :
    ∃ g, f.announce l notice = .ok g ∧ g.Serving l e ∧ g.Stage l e 0 := by
  obtain ⟨σ, granted⟩ := Store.acquire_ok h.held
  obtain ⟨w', hw, began, empty, place, hlocked, hrec⟩ :=
    Store.announced_begins h.held h.plan h.begins h.place hz l.receiverChunk f.transfers
  have asks := began.requests l.receiverChunk
  have added : f.transfers.add (t.requests l.receiverChunk).2 w' =
      (f.transfers.insert e.path (t.requests l.receiverChunk).2, w') := by
    unfold Transfers.add Transfers.drop
    rw [asks.path.trans h.path, h.transfer]
  rw [added] at hw
  have awaits : (t.requests l.receiverChunk).2.Awaits ((f.asking l e.path t w').asked ++ []) := by
    unfold asking
    rw [h.asked, List.nil_append, List.append_nil]
    exact Transfer.awaits_requests empty began.received l.receiverChunk
  have underway : (f.asking l e.path t w').Underway l e (t.requests l.receiverChunk).2 [] :=
    { transfer := (Table.get?_insert _ _ _ _).trans (if_pos rfl)
      path := asks.path.trans h.path
      pull := asks.pull
      client := asks.client.trans h.client
      staging := asks.unused.1
      awaits := awaits
      coming := h.coming
      partly := asks.complete.trans (decide_eq_false hz)
      gathers := asks.gathers h.size
      record := by rw [← h.path, ← h.waiting]; exact hrec
      unlocked := hlocked.trans h.unlocked
      place := ⟨lease.file, by rw [← h.path]; exact granted.resolves, place⟩
      silent := h.silent }
  refine ⟨f.asking l e.path t w', ?_, ⟨s.file, s.unlocked⟩, .underway underway ?_⟩
  · unfold announce
    rw [hw]
    exact congrArg Except.ok (reply_requests _ _)
  · unfold asking
    rw [h.asked, List.nil_append, List.append_nil, Transfer.bytesAsked_requests, began.size, h.size]
    exact Nat.le_of_eq (Nat.zero_add _)

theorem Ready.starts (h : f.Ready l e notice lease t w w₁) (s : f.Serving l e) (settles : e.Settles) :
    ∃ g, f.announce l notice = .ok g ∧ g.Serving l e ∧ g.Stage l e 0 := by
  by_cases hz : notice.size = 0
  · exact h.at_once s settles hz
  · exact h.asks s hz

/-- What is announced to a receiver that can pull it comes to its end, in whatever order. -/
theorem Ready.succeeds (h : f.Ready l e notice lease t w w₁) (s : f.Serving l e) (settles : e.Settles)
    (chunks : 0 < l.serverChunk) (readable : e.bytes.length ≤ lastPage) :
    ∃ f₀, f.announce l notice = .ok f₀ ∧
      (∀ k g, f₀.Runs l e.path k g → g.Live l (2 * e.bytes.length) k ∧
        (g.asked = [] → g.coming = [] → g.Arrived l e.path e.bytes e.settled e.replies)) ∧
      ∃ k g, f₀.Runs l e.path k g ∧ g.asked = [] ∧ g.coming = [] := by
  obtain ⟨f₀, hf₀, serving, stage⟩ := h.starts s settles
  have live : ∀ k g, f₀.Runs l e.path k g → g.Live l (2 * e.bytes.length) k := by
    intro k g run
    obtain ⟨serving', stage'⟩ := run.stage settles chunks readable serving stage
    exact stage'.live serving' settles chunks readable
  refine ⟨f₀, hf₀, fun k g run => ⟨live k g run, ?_⟩, Runs.start.completed live⟩
  exact (run.stage settles chunks readable serving stage).2.arrived

end Ready

/-! ### A pull succeeds -/

/-- A node has a file and announces it as its record has it. The file can be read to its end: it is read
    through a mapping of whole pages, and it ends before the one page that no mapping reaches
    (`Volume.lastPage`). Another node has no transfer of the path and no local work on it, and lacks that
    version; it can have its lease, make a staging file and put it in place. Then for all sizes of chunks, in
    whatever order the requests are answered and the answers arrive, and whatever happens on other paths,
    nothing fails, there are at most two answers and arrivals for each byte, and once nothing is left to
    answer or to arrive the receiver has the file: at the announced base if that is a later one, or else at
    the base after its own, and then it has said one commit and no more. -/
theorem pull_succeeds {l : Route} {path : String} {sv rv w w₁ : Volume} {ts : Transfers}
    {r : Record} {bytes : Bytes} {notice : NewVersion} {lease : Lease} {p : Pull} {t : Transfer}
    (serves : Tracked l.server path sv r bytes) (unlocked : sv.locked = []) (readable : bytes.length ≤ lastPage)
    (chunks : 0 < l.serverChunk) (announced : notice = ⟨path, r.base, r.client, .ofNat bytes.length⟩)
    (fresh : ts.get? path = none) (free : rv.locked = []) (held : l.receiver.acquire path rv = (.ok lease, w))
    (calm : lease.record.state.terminal = false) (clean : lease.record.pending = false)
    (lacks : lease.record.base < r.base ∨ (lease.record.base = r.base ∧ r.client ≠ 0))
    (begins : Transfer.begin l.receiver notice p w = (.ok t, w₁)) (place : w₁.TakesFile lease.file) :
    ∃ f₀, announce l notice ⟨sv, rv, ts, [], [], []⟩ = .ok f₀ ∧
      (∀ k f, f₀.Runs l path k f → f.Live l (2 * bytes.length) k ∧
        (f.asked = [] → f.coming = [] →
          (lease.record.base < r.base → f.Arrived l path bytes ⟨r.base, 0, .synced⟩ []) ∧
          (lease.record.base = r.base →
            f.Arrived l path bytes ⟨r.base + 1, 0, .synced⟩ [.commit path ⟨r.base, r.base + 1, r.client⟩]))) ∧
      ∃ k f, f₀.Runs l path k f ∧ f.asked = [] ∧ f.coming = [] := by
  subst announced
  obtain ⟨q, r', replies, plan, settle, outcome⟩ :=
    Record.pulls ⟨path, r.base, r.client, .ofNat bytes.length⟩ calm clean lacks
  have size : (UInt64.ofNat bytes.length).toNat = bytes.length := by
    have hlast : lastPage < UInt64.size := by decide
    exact UInt64.toNat_ofNat_of_lt' (by omega)
  have silent : ∀ m ∈ replies, m.request? = none := by
    intro m hm
    rcases outcome with ⟨-, -, rfl⟩ | ⟨-, -, rfl⟩
    · cases hm
    · rw [List.mem_singleton.mp hm]
      rfl
  have ready : Ready l ⟨path, q, r.client, bytes, _, r', replies⟩ _ lease _ w w₁ ⟨sv, rv, ts, [], [], []⟩ :=
    ⟨rfl, rfl, size, fresh, free, rfl, rfl, rfl, held, plan, rfl, Transfer.begin_pull begins q, place⟩
  obtain ⟨f₀, hf₀, goes, completed⟩ :=
    ready.succeeds ⟨⟨r, serves, rfl⟩, unlocked⟩ ⟨settle, silent⟩ chunks readable
  refine ⟨f₀, hf₀, fun k f run => ?_, completed⟩
  obtain ⟨live, arrived⟩ := goes k f run
  refine ⟨live, fun hasked hcoming => ?_⟩
  have done := arrived hasked hcoming
  rcases outcome with ⟨behind, rfl, rfl⟩ | ⟨level, rfl, rfl⟩
  · exact ⟨fun _ => done, fun level => absurd behind (level ▸ UInt64.lt_irrefl _)⟩
  · exact ⟨fun behind => absurd behind (level ▸ UInt64.lt_irrefl _), fun _ => done⟩

/-- A server that hands out two bytes at a time, and a receiver that asks for three. -/
def sampleRoute : Route := ⟨⟨"r"⟩, 2, ⟨"r"⟩, 3⟩

/-- The volume of a node that has edited `a` once. -/
def sampleEdited : Volume := (LocalEdit.written.report ⟨"r"⟩ "a" (sampleVolume [1, 2, 3, 4, 5])).2

/-- The lease of `a` where it has no record. -/
def sampleLease : Lease := ⟨"a", "r/a", ⟨["r", ".a.tsmeta"], 1⟩, .initial, some .initial, true⟩

def sampleTransfer : Transfer := ⟨"a", .peerEdit 0, 1, 5, [], .empty, ⟨["r", ".a.000002.tsstage"], 2⟩⟩

theorem sample_pull_succeeds :
    ∃ f₀, announce sampleRoute ⟨"a", 0, 1, 5⟩ ⟨sampleEdited, sampleVolume [9], .empty, [], [], []⟩ =
        .ok f₀ ∧
      ∃ k f, f₀.Runs sampleRoute "a" k f ∧ f.asked = [] ∧ f.coming = [] ∧
        f.Arrived sampleRoute "a" [1, 2, 3, 4, 5] ⟨1, 0, .synced⟩ [.commit "a" ⟨0, 1, 1⟩] := by
  have serves : Tracked sampleRoute.server "a" sampleEdited ⟨0, 1, .dirty⟩ [1, 2, 3, 4, 5] := ⟨rfl, "r/a", rfl, rfl⟩
  have held : sampleRoute.receiver.acquire "a" (sampleVolume [9]) = (.ok sampleLease, _) := Prod.ext (by rfl) rfl
  have begins : Transfer.begin sampleRoute.receiver ⟨"a", 0, 1, 5⟩ (.peerEdit 0)
      (sampleRoute.receiver.acquire "a" (sampleVolume [9])).2 = (.ok sampleTransfer, _) := Prod.ext (by rfl) rfl
  obtain ⟨f₀, hf₀, goes, k, f, run, asked, coming⟩ := pull_succeeds serves rfl (by decide) (by decide) rfl
    (Table.get?_empty "a") (rfl : (sampleVolume [9]).locked = []) held rfl rfl (Or.inr ⟨rfl, by decide⟩) begins
    ⟨["r"], "a", rfl, by decide, by decide +kernel⟩
  exact ⟨f₀, hf₀, k, f, run, asked, coming, ((goes k f run).2 asked coming).2 rfl⟩

end Fetch
end TreeReplica
