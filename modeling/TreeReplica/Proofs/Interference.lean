import TreeReplica.Proofs.Lease.Again
import TreeReplica.Proofs.Session

/-! Two tracked paths side by side. All that a node and any holders of leases do for one path is the work of
    that path (`Parties.Confined`), so the record of the other one is left alone, and its lease can still be
    had (`Store.acquires_again`). This takes that no directory of one path has a name that is reserved for the
    other, which is not checked when a path is accepted (`Parties.paths_apart`). -/

namespace TreeReplica
open Volume

/-! ### Operations on one path -/

/-- A node, and holders of leases beside it, on one volume. -/
structure Parties where
  node : Node
  holders : Holders

namespace Parties

inductive Step
  | event (e : Node.Event)
  | lease (st : Holders.Step)

def step (x : Parties) : Step → Parties
  | .event e =>
    let (n, v) := x.node.step e x.holders.volume
    ⟨n, { x.holders with volume := v }⟩
  | .lease st => ⟨x.node, x.holders.step x.node.setup.store st⟩

def run (steps : List Step) (x : Parties) : Parties := steps.foldl step x

/-- Nobody does anything yet. -/
def start (u : Setup) (v : Volume) : Parties := ⟨⟨u, .empty⟩, Holders.start v⟩

/-- The step is about the path, or about none. -/
def Step.On (q : String) : Step → Prop
  | .event (.edit _ path) => path = q
  | .event (.message _ m) => ∀ path, m.path? = some path → path = q
  | .event (.close _) => True
  | .lease (.acquire _ path) => path = q
  | .lease (.acquireTracked _ path) => path = q
  | .lease (.work _) => False
  | .lease _ => True

/-- What has been done is the work of a path, and so is all that is under way. -/
structure Confined (u : Setup) (q : String) (v : Volume) (x : Parties) : Prop where
  setup : x.node.setup = u
  works : Works u.store q v x.holders.volume
  transfers : ∀ name, (x.node.session name).transfers.AllOf q (u.store.site v q)
  leases : ∀ {n l}, x.holders.leases.get? n = some l → l.handle.location = (u.store.site v q).record

namespace Confined
variable {u : Setup} {q : String} {v w : Volume} {x : Parties} {n : String} {l : Lease}

theorem start (u : Setup) (q : String) (v : Volume) : (start u v).Confined u q v where
  setup := rfl
  works := .refl _ q v
  transfers _ _ ht := by cases ht
  leases hl := by cases hl

theorem event (h : x.Confined u q v) {e : Node.Event} (he : Step.On q (.event e)) :
    (x.step (.event e)).Confined u q v := by
  obtain ⟨rfl, works, transfers, leases⟩ := h
  cases e with
  | edit edit path => exact ⟨rfl, works.trans (.report he edit), transfers, leases⟩
  | message name m =>
    obtain ⟨hw, hts⟩ := Works.handle (m := m) (works.site.symm ▸ transfers name) he
    refine ⟨rfl, ?_, fun name' => ?_, leases⟩
    · show Works _ q v (x.node.step (.message name m) x.holders.volume).2
      rcases x.node.step_message name m x.holders.volume with hv | hv <;> rw [hv]
      · exact works
      · exact works.trans hw
    · show ((x.node.step (.message name m) x.holders.volume).1.session name').transfers.AllOf q _
      rw [Node.message_transfers]
      split
      · rcases Session.answer_cases x.node.setup m (x.node.session name) x.holders.volume with ⟨-, nack, -, ha⟩ |
          ⟨-, a, s', w, hh, ⟨answer, -, ha⟩ | ⟨e, answer, -, ha, -⟩⟩ <;> rw [ha]
        · exact transfers name
        · rw [hh, works.site] at hts
          exact hts
        · rw [hh, works.site] at hts
          exact hts
      · exact transfers name'
  | close name =>
    refine ⟨rfl, works.trans (.abandonAll (works.site.symm ▸ transfers name)), fun name' => ?_, leases⟩
    show ((x.node.close name x.holders.volume).1.session name').transfers.AllOf q _
    rw [Node.session_close]
    split
    · exact fun _ ht => by cases ht
    · exact transfers name'

/-- A holder has a lease of the record now, or another one than before. -/
theorem insert {log : List (Location × Happening)} (h : x.Confined u q v)
    (hl : l.handle.location = (u.store.site v q).record) (hw : Works u.store q x.holders.volume w) :
    (⟨x.node, ⟨w, x.holders.leases.insert n l, log⟩⟩ : Parties).Confined u q v := by
  refine ⟨h.setup, h.works.trans hw, h.transfers, fun hm => ?_⟩
  rcases Table.of_get?_insert hm with ⟨-, rfl⟩ | ⟨-, hm⟩
  · exact hl
  · exact h.leases hm

theorem take (h : x.Confined u q v) {answer : Except Fault Lease}
    (ha : u.store.acquire q x.holders.volume = (answer, w)) :
    (⟨x.node, x.holders.take n (answer.map some, w)⟩ : Parties).Confined u q v := by
  have hw : Works u.store q x.holders.volume w := .acquire ha
  cases answer with
  | error e => exact ⟨h.setup, h.works.trans hw, h.transfers, h.leases⟩
  | ok lease =>
    obtain ⟨σ, g⟩ := Store.acquire_ok ha
    refine h.insert ?_ hw
    rw [g.location, g.leads.eq_site, hw.site, h.works.site]

theorem lease (h : x.Confined u q v) {st : Holders.Step} (hst : Step.On q (.lease st)) :
    (x.step (.lease st)).Confined u q v := by
  have own : ∀ {n l}, x.holders.leases.get? n = some l →
    l.handle.location = (u.store.site x.holders.volume q).record :=
    fun hl => (h.leases hl).trans (by rw [h.works.site])
  show (⟨x.node, x.holders.step x.node.setup.store st⟩ : Parties).Confined u q v
  rw [h.setup]
  unfold Holders.step
  cases st with
  | acquire n path =>
    obtain rfl : path = q := hst
    dsimp only
    split
    · exact h
    · exact h.take rfl
  | acquireTracked n path =>
    obtain rfl : path = q := hst
    dsimp only
    split
    · exact h
    · rcases Store.acquireTracked_cases u.store path x.holders.volume with ⟨e, -, ha⟩ | ha |
        ⟨answer, w, hacq, ha⟩ <;> rw [ha]
      · exact h
      · exact h
      · exact h.take hacq
  | change n f =>
    dsimp only
    split
    · exact h
    · rename_i l hl
      have place := h.leases hl
      exact h.insert place (.refl _ q _)
  | persist n =>
    dsimp only
    split
    · exact h
    · rename_i l hl
      have hid : (l.persist x.holders.volume).1.handle = l.handle := by
        unfold Lease.persist
        split <;> rfl
      exact h.insert (hid ▸ h.leases hl) (.persist l (own hl))
  | release n =>
    dsimp only
    split
    · exact h
    · rename_i l hl
      exact ⟨h.setup, h.works.trans (.release l (own hl)), h.transfers,
        fun hm => h.leases (Table.of_get?_erase hm).2⟩
  | work work => exact hst.elim

/-- Operations on a path stay within its places along every run. -/
theorem run (h : x.Confined u q v) {steps : List Step} (hsteps : ∀ st ∈ steps, st.On q) :
    (x.run steps).Confined u q v := by
  induction steps generalizing x with
  | nil => exact h
  | cons st steps ih =>
    refine ih (x := x.step st) ?_ fun st' hst' => hsteps st' (List.mem_cons_of_mem _ hst')
    have hst := hsteps st List.mem_cons_self
    cases st with
    | event e => exact h.event hst
    | lease st => exact h.lease hst

end Confined
end Parties

/-! ### Two paths -/

namespace Path

/-- One of the directories of `q` has the name of the record of `p`. -/
def BelowRecord (p q : String) : Prop := names (sidecar p) <+: names q

/-- One of the directories of `q` has a name for staging files of `p`. -/
def BelowStaging (p q : String) : Prop :=
  ∃ n, (names p).dropLast ++ [stagingName ((names p).getLast?.getD "") n] <+: names q

/-- A tracked path does not end in the name of a record. -/
theorem BelowRecord.dropLast {root p q pfile qfile : String} (hp : resolve root p = .ok pfile)
    (hq : resolve root q = .ok qfile) (h : BelowRecord p q) : names (sidecar p) <+: (names q).dropLast := by
  obtain ⟨-, -, -, name, hname, -⟩ := names_of_resolve hp
  obtain ⟨-, -, -, last, hlast, -, hres⟩ := names_of_resolve hq
  unfold BelowRecord at h
  rw [names_of_fileName? hlast, List.prefix_concat_iff, names_sidecar hname] at h
  rcases h with h | h
  · have := (List.append_inj' h rfl).2
    rw [← List.singleton_inj.mp this, reserved_recordName] at hres
    cases hres
  · rwa [names_sidecar hname]

end Path

namespace Store
variable {s : Store} {v w : Volume} {p q pfile qfile : String} {l : Lease}

/-- The record of a lease stands in its place, behind directories. -/
theorem lookup_of_acquire (ha : s.acquire p v = (.ok l, w)) :
    (∃ id content, w.lookup (s.site v p).record = some (.file id content)) ∧
    ∀ m, OnWay (v.start s.root) (s.way p) m → w.lookup m = some .directory := by
  obtain ⟨σ, g⟩ := acquire_ok ha
  have hhere : w.here = v.here := g.kept.here
  obtain ⟨content, hl, -⟩ := g.stored
  obtain ⟨file, hr, -, hw⟩ := g.leads
  rw [g.leads.eq_site, site_congr hhere] at hl
  have hstart : w.start s.root = v.start s.root := by
    unfold Volume.start
    rw [hhere]
  rw [(names_of_resolve (v := w) hr).1, (names_of_resolve hr).2, hstart] at hw
  exact ⟨⟨_, content, hl⟩, fun m hm => lookup_of_walk hw hm⟩

theorem onWay_record (hp : s.resolve p = .ok pfile) (hq : s.resolve q = .ok qfile) (h : Path.BelowRecord p q) :
    OnWay (v.start s.root) (s.way q) (s.site v p).record := by
  obtain ⟨-, -, hdots, name, hname, -⟩ := Path.names_of_resolve hp
  rw [(site_places hp).2]
  refine OnWay.longer (onWay_below ?_ ?_) ((List.prefix_append_right_inj _).mpr (h.dropLast hp hq))
  · rw [Path.names_sidecar hname, List.mem_append, not_or]
    exact ⟨fun hm => hdots ((List.dropLast_prefix _).subset hm),
      fun hm => Path.recordName_ne name (by decide) (List.mem_singleton.mp hm).symm⟩
  · rw [Path.names_sidecar hname]
    exact concat_ne_nil

/-- Without that, no directory is made in the place of the record. -/
theorem not_onWay_record (hp : s.resolve p = .ok pfile) (hq : s.resolve q = .ok qfile) (hroot : s.Rooted v)
    (hbelow : ¬Path.BelowRecord p q) (hnone : v.lookup (s.site v p).record ≠ some .directory) :
    ¬OnWay (v.start s.root) (s.way q) (s.site v p).record := fun hway => by
  obtain ⟨-, -, -, name, hname, -⟩ := Path.names_of_resolve hp
  rw [(site_places hp).2] at hway hnone
  rcases prefix_of_onWay hq hroot (by rw [Path.names_sidecar hname]; exact concat_ne_nil) hway with hd | hn
  · exact hnone hd
  · exact hbelow (hn.trans (List.dropLast_prefix _))

/-- Where a directory of one path has the name of the record of the other, no two leases are had one after the
    other. -/
theorem acquire_error_of_below (hp : s.resolve p = .ok pfile) (hq : s.resolve q = .ok qfile)
    (hne : Path.names p ≠ Path.names q) (h : Path.BelowRecord p q ∨ Path.BelowRecord q p)
    (ha : s.acquire q v = (.ok l, w)) {answer : Except Fault Lease} {w' : Volume}
    (ha' : s.acquire p w = (answer, w')) : ∃ e, answer = .error e := by
  cases answer with
  | error e => exact ⟨e, rfl⟩
  | ok l' =>
    have hw : Works s p w w' := .acquire ha'
    have hhere : w.here = v.here := (Works.acquire ha).here
    obtain ⟨⟨id, content, hl⟩, hway⟩ := lookup_of_acquire ha
    obtain ⟨⟨id', content', hl'⟩, hway'⟩ := lookup_of_acquire ha'
    rcases h with h | h
    · rw [site_congr hhere, hw.directory _ (hway _ (onWay_record hp hq h))] at hl'
      cases hl'
    · have hd := hway' _ (onWay_record hq hp h)
      rw [site_congr hhere] at hd
      have hsite : s.site w q = s.site v q := site_congr hhere
      rcases hw.same _ (hsite ▸ not_owns_record hq hp hne.symm) with hs | ⟨-, hs, -⟩
      · rw [hs, hl] at hd
        cases hd
      · rw [hl] at hs
        cases hs

end Store

namespace Works
variable {s : Store} {v w : Volume} {p q pfile qfile : String}

/-- The record of another path is untouched. -/
theorem lookup_record (h : Works s q v w) (hp : s.resolve p = .ok pfile)
    (hq : s.resolve q = .ok qfile) (hroot : s.Rooted v) (hne : Path.names p ≠ Path.names q)
    (hbelow : ¬Path.BelowRecord p q) :
    w.lookup (s.site v p).record = v.lookup (s.site v p).record := by
  refine (h.same _ (not_owns_record hp hq hne)).resolve_right fun ⟨hway, hnone, _⟩ => ?_
  exact Store.not_onWay_record hp hq hroot hbelow (by simp [hnone]) hway

/-- On the way of another path, there are at most more directories. -/
theorem lookup_way (h : Works s q v w) (hp : s.resolve p = .ok pfile)
    (hq : s.resolve q = .ok qfile) (hroot : s.Rooted v) (hfile : ¬Path.names q <+: Path.names p)
    (hrecord : ¬Path.BelowRecord q p) (hstaging : ¬Path.BelowStaging q p) {l : Location}
    (hl : OnWay (v.start s.root) (s.way p) l) : w.lookup l = v.lookup l ∨ w.lookup l = some .directory := by
  by_cases hown : Owns s v q l
  · -- A place of `q` is on the way to the root only.
    have below : ∀ {names : List String}, ¬names <+: Path.names p →
      l = follow (v.start s.root) (Path.names s.root) ++ names →
        w.lookup l = some .directory := by
      rintro names hn rfl
      have hne : names ≠ [] := fun he => hn (he ▸ List.nil_prefix)
      exact h.directory _ ((Store.prefix_of_onWay hp hroot hne hl).resolve_right fun hpre =>
        hn (hpre.trans (List.dropLast_prefix _)))
    right
    rcases hown with ⟨n, he⟩ | he | he
    · exact below (fun hn => hstaging ⟨n, hn⟩) (he.trans (Store.staging_places hq n))
    · exact below hrecord (he.trans (Store.site_places hq).2)
    · exact below hfile (he.trans (Store.site_places hq).1)
  · exact (h.same l hown).imp id fun hd => hd.2.2

/-- No lock is taken on the record of another path. -/
theorem not_locked (h : Works s q v w) (hn : v.Numbered) {l : Location} {id : Nat} {content : Content}
    (hl : v.lookup l = some (.file id content)) (hown : ¬Owns s v q l) (hfree : id ∉ v.locked) :
    id ∉ w.locked := fun hm => by
  rcases h.locked hm with hv | ⟨l', content', hown', hl'⟩ | ⟨hnew, -⟩
  · exact hfree hv
  · exact hown (hn.apart hl hl' ▸ hown')
  · exact Nat.not_lt.mpr hnew (hn.old hl)

theorem lt_of_locked (h : Works s q v w) (hn : v.Numbered) (hlocks : ∀ id ∈ v.locked, id < v.nextId) :
    ∀ id ∈ w.locked, id < w.nextId := by
  intro id hm
  rcases h.locked hm with hv | ⟨l, content, -, hl⟩ | ⟨-, hlt⟩
  · exact Nat.lt_of_lt_of_le (hlocks id hv) h.next
  · exact Nat.lt_of_lt_of_le (hn.old hl) h.next
  · exact hlt

end Works

namespace Parties
variable {u : Setup} {v : Volume} {p q pfile qfile : String}

/-- What holds of a path `p` whatever is done for a path `q`. -/
structure Apart (u : Setup) (v : Volume) (p q : String) : Prop where
  /-- The record is no file, record or staging file of the other path. -/
  places : (u.store.site v p).record ≠ (u.store.site v q).file ∧
    (u.store.site v p).record ≠ (u.store.site v q).record ∧
    ∀ n, (u.store.site v p).record ≠ (u.store.site v q).staging n
  /-- It is none of the directories that are made for the other path, unless it has the name of one. -/
  made : ¬Path.BelowRecord p q → v.lookup (u.store.site v p).record ≠ some .directory →
    ¬OnWay (v.start u.store.root) (u.store.way q) (u.store.site v p).record
  /-- With the same exception, nothing that is done for the other path touches the record. -/
  untouched : ¬Path.BelowRecord p q → ∀ {steps}, (∀ st ∈ steps, st.On q) →
    ((start u v).run steps).holders.volume.lookup (u.store.site v p).record = v.lookup (u.store.site v p).record
  /-- Who could have had a lease can have it later, unless a directory of the path has the name of a record or
      a staging file of the other one. -/
  obtainable : ¬Path.BelowRecord p q → ¬Path.BelowRecord q p → ¬Path.BelowStaging q p →
    ∀ {steps}, (∀ st ∈ steps, st.On q) →
    ∀ {lease w}, u.store.acquire p v = (.ok lease, w) →
      ∃ lease' w', u.store.acquire p ((start u v).run steps).holders.volume = (.ok lease', w') ∧
        lease'.record = lease.record ∧ lease'.fresh = lease.fresh
  /-- Where a directory of one path has the name of the record of the other, who comes first shuts out the other. -/
  covered : Path.BelowRecord p q ∨ Path.BelowRecord q p → ∀ {lease w}, u.store.acquire q v = (.ok lease, w) →
    ∀ {answer w'}, u.store.acquire p w = (answer, w') → ∃ e, answer = .error e

/-- Two tracked paths, neither of which leads through the other: the record of one is not disturbed by what is
    done for the other, as long as no directory of either has a name that the other one has reserved. -/
theorem paths_apart (hp : u.store.resolve p = .ok pfile) (hq : u.store.resolve q = .ok qfile)
    (hpq : ¬Path.names p <+: Path.names q) (hqp : ¬Path.names q <+: Path.names p)
    (hroot : u.store.Rooted v) (hn : v.Numbered) (hlocks : ∀ id ∈ v.locked, id < v.nextId) : Apart u v p q := by
  have hne : Path.names p ≠ Path.names q := fun he => hpq (he ▸ List.prefix_rfl)
  obtain ⟨hfile, hstaging, hrecord⟩ := Store.record_apart (v := v) hp hq
  have works : ∀ {steps}, (∀ st ∈ steps, Step.On q st) → Works u.store q v ((start u v).run steps).holders.volume :=
    fun hsteps => ((Confined.start u q v).run hsteps).works
  constructor
  case places => exact ⟨hfile, hrecord hne, hstaging⟩
  case made => exact Store.not_onWay_record hp hq hroot
  case untouched => exact fun hbelow _ hsteps => (works hsteps).lookup_record hp hq hroot hne hbelow
  case obtainable =>
    intro hbelow habove hstaged steps hsteps lease w ha
    have hw := works hsteps
    exact Store.acquires_again ha hw.here (fun l hl => hw.lookup_way hp hq hroot hqp habove hstaged hl)
      (hw.lookup_record hp hq hroot hne hbelow) (fun hl => hw.not_locked hn hl (not_owns_record hp hq hne))
      (hw.lt_of_locked hn hlocks)
  case covered => exact fun h _ _ ha _ _ ha' => Store.acquire_error_of_below hp hq hne h ha ha'

theorem sample_paths_apart : Apart sampleSetup (sampleVolume [1]) "a" "b/c" ∧ ¬Path.BelowRecord "a" "b/c" ∧
    ¬Path.BelowRecord "b/c" "a" ∧ ¬Path.BelowStaging "b/c" "a" :=
  ⟨paths_apart (ok_of_toOption (a := "r/a") (by decide +kernel)) (ok_of_toOption (a := "r/b/c") (by decide +kernel))
      (by decide +kernel) (by decide +kernel) (fun h => absurd h (by decide +kernel))
        (Holders.sampleVolume_numbered [1])
      (fun _ h => by cases h),
    by unfold Path.BelowRecord; decide +kernel, by unfold Path.BelowRecord; decide +kernel,
    fun ⟨_, h⟩ => absurd h.length_le (by simp [show Path.names "b/c" = ["b", "c"] by decide +kernel,
      show Path.names "a" = ["a"] by decide +kernel])⟩

/-- A lease on `.a.tsmeta/b` puts a directory where the record of `a` would stand, and `a` can be leased no more. -/
theorem sample_record_covered : (sampleSetup.store.resolve "a").toOption = some "r/a" ∧
    (sampleSetup.store.resolve ".a.tsmeta/b").toOption = some "r/.a.tsmeta/b" ∧
    ¬Path.names "a" <+: Path.names ".a.tsmeta/b" ∧ ¬Path.names ".a.tsmeta/b" <+: Path.names "a" ∧
    (sampleSetup.store.acquire "a" (sampleVolume [1])).1.toOption.isSome ∧
    (sampleVolume [1]).lookup (sampleSetup.store.site (sampleVolume [1]) "a").record = none ∧
    ∃ st : Step, st.On ".a.tsmeta/b" ∧
      (((start sampleSetup (sampleVolume [1])).run [st]).holders.volume).lookup
        (sampleSetup.store.site (sampleVolume [1]) "a").record = some .directory ∧
      (sampleSetup.store.acquire "a"
        ((start sampleSetup (sampleVolume [1])).run [st]).holders.volume).1.toOption.isNone :=
  ⟨by decide +kernel, by decide +kernel, by decide +kernel, by decide +kernel, by decide +kernel, by decide +kernel,
    .lease (.acquire "x" ".a.tsmeta/b"), rfl, by decide +kernel, by decide +kernel⟩

end Parties

end TreeReplica
