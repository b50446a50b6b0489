import TreeReplica.Proofs.Node
import TreeReplica.Proofs.Record
import TreeReplica.Proofs.Replication
import TreeReplica.Proofs.Sample

/-! Local work is never overwritten. Transfers outlive the lease under which they were planned, so what
    keeps local work is an invariant of all records (`Volume.Sound`), which every event preserves
    (`Node.step_effect`), and the check that ends a transfer then needs to look at the state alone. -/

namespace TreeReplica
open Volume

/-- All records can be read and are sound, and no lock is on a file that is yet to come. -/
structure Volume.Sound (v : Volume) : Prop where
  locked : ∀ id ∈ v.locked, id < v.nextId
  record : ∀ (σ : Site) (content : Content), v.content? σ.record = some content →
    ∃ r, Record.decode content.toList = .ok r ∧ r.Sound

/-- What one event does to records and tracked files: nothing, one change of a record, or, where no local
    work is, also new content in the place of one file. -/
inductive Effect (s : Store) (v w : Volume) : Prop
  | nothing (kept : Kept StagingPlace v w)
  | record {path : String} {σ : Site} {fresh : Bool} {r r' : Record}
      (leased : Leased s path StagingPlace v w σ fresh r r') (moves : r.Moves r')
  | file {path : String} {σ : Site} {fresh : Bool} {r r' : Record}
      (leased : Leased s path (fun l => StagingPlace l ∨ l = σ.file) v w σ fresh r r')
      (idle : r.Idle) (after : r'.Idle)

section Leased
variable {s : Store} {path : String} {P Q : Location → Prop} {u v w : Volume} {σ : Site} {fresh : Bool}
  {r r' : Record}

theorem Leased.mono (h : Leased s path P v w σ fresh r r') (hPQ : ∀ l, P l → Q l) :
    Leased s path Q v w σ fresh r r' :=
  { h with kept := h.kept.mono fun l hl => hl.imp (hPQ l) id }

theorem Leased.then (h : Leased s path P u v σ fresh r r') (hk : Kept StagingPlace v w)
    (hP : ∀ l, StagingPlace l → P l) : Leased s path P u w σ fresh r r' where
  leads := h.leads.kept hk
  kept := h.kept.trans (hk.mono fun l hl => Or.inl (hP l hl))
  before := h.before
  after := (hk.record? σ.record_not_staging).trans h.after

theorem Leased.behind (hk : Kept StagingPlace u v) (h : Leased s path P v w σ fresh r r')
    (hP : ∀ l, StagingPlace l → P l) : Leased s path P u w σ fresh r r' where
  leads := h.leads
  kept := (hk.mono fun l hl => Or.inl (hP l hl)).trans h.kept
  before := by
    rw [← hk.record? σ.record_not_staging, ← hk.content? σ.record_not_staging]
    exact h.before
  after := h.after

end Leased

section Effect
variable {s : Store} {u v w : Volume}

theorem Effect.behind (hk : Kept StagingPlace u v) (h : Effect s v w) : Effect s u w := by
  cases h with
  | nothing kept => exact .nothing (hk.trans kept)
  | record leased moves => exact .record (leased.behind hk fun _ => id) moves
  | file leased idle after => exact .file (leased.behind hk fun _ => Or.inl) idle after

namespace Volume

theorem Sound.kept {P : Location → Prop} (h : v.Sound) (hk : Kept P v w)
    (hP : ∀ σ : Site, ¬P σ.record) : w.Sound where
  locked id hid := Nat.lt_of_lt_of_le (h.locked id (hk.locked ▸ hid)) hk.next
  record σ content hc := h.record σ content (by rw [← hk.content? (hP σ), hc])

theorem Sound.acquire_error (h : v.Sound) {path : String} {e : Fault} (ha : s.acquire path v = (.error e, w))
    (P : Location → Prop) : Kept P v w := by
  rcases Store.acquire_error ha with hk | ⟨σ, -, -, ⟨-, id, hid, hle⟩ | ⟨content, fault, hc, -, hd, -⟩⟩
  · exact hk P
  · exact absurd (h.locked id hid) (Nat.not_lt.mpr hle)
  · obtain ⟨r, hr, -⟩ := h.record σ content hc
    rw [hr] at hd
    cases hd

theorem Sound.before {path : String} {P : Location → Prop} {σ : Site} {fresh : Bool} {r r' : Record} (h : v.Sound)
    (hl : Leased s path P v w σ fresh r r') : r.Sound := by
  rcases hl.before with ⟨-, hr⟩ | ⟨-, rfl, -⟩
  · obtain ⟨id, content, hlook, hd⟩ := record?_eq_some.mp hr
    obtain ⟨r₀, hd₀, hs⟩ := h.record σ content (content?_eq_some.mpr ⟨id, hlook⟩)
    rw [hd] at hd₀
    cases hd₀
    exact hs
  · exact Record.sound_initial

theorem Sound.leased {path : String} {P : Location → Prop} {σ : Site} {fresh : Bool} {r r' : Record} (h : v.Sound)
    (hl : Leased s path P v w σ fresh r r') (hP : ∀ τ : Site, ¬P τ.record) (hs : r'.Sound) : w.Sound where
  locked id hid := Nat.lt_of_lt_of_le (h.locked id (hl.kept.locked ▸ hid)) hl.kept.next
  record τ content hc := by
    by_cases hτ : τ.record = σ.record
    · obtain rfl := Site.record_injective hτ
      obtain ⟨id, content', hlook, hd⟩ := record?_eq_some.mp hl.after
      obtain ⟨id', hlook'⟩ := content?_eq_some.mp hc
      rw [hlook] at hlook'
      cases hlook'
      exact ⟨r', hd, hs⟩
    · refine h.record τ content ?_
      rw [← hl.kept.content? (by simp [hP τ, hτ]), hc]

theorem Sound.effect (h : v.Sound) (he : Effect s v w) : w.Sound := by
  cases he with
  | nothing kept => exact h.kept kept fun σ => σ.record_not_staging
  | record leased moves =>
    exact h.leased leased (fun τ => τ.record_not_staging) (moves.sound (h.before leased))
  | file leased idle after =>
    refine h.leased leased (fun τ hτ => ?_) after.sound
    rcases hτ with hp | he
    · exact τ.record_not_staging hp
    · exact leased.leads.file_not_record (he ▸ τ.recordPlace_record)

end Volume

/-! ### Handlers -/

theorem report_effect (hv : v.Sound) (e : LocalEdit) (s : Store) (path : String) :
    Effect s v (e.report s path v).2 := by
  rcases e.report_cases s path v with ⟨err, w, ha, hw⟩ | ⟨σ, fresh, r, w, file, -, hl, hw⟩
  · rw [hw]
    exact .nothing (hv.acquire_error ha _)
  · rw [hw]
    exact .record (hl.mono fun _ => False.elim) (Record.moves_apply e fresh r)

theorem committed_effect (hv : v.Sound) (s : Store) (path : String) (c : Commit) :
    Effect s v (s.committed path c v).2 := by
  rcases s.committed_cases path c v with ⟨err, w, ha, hw⟩ |
    ⟨σ, fresh, r, w, ⟨why, -, hl, hw⟩ | ⟨r', hc, hl, hw⟩⟩
  · rw [hw]
    exact .nothing (hv.acquire_error ha _)
  · rw [hw]
    exact .record (hl.mono fun _ => False.elim) (.refl r)
  · rw [hw]
    exact .record (hl.mono fun _ => False.elim) (Record.moves_commit hc)

theorem serveChunk_effect (hv : v.Sound) (s : Store) (chunkSize : UInt32) (request : ChunkRequest) :
    Effect s v (s.serveChunk chunkSize request v).2 := by
  rcases s.serveChunk_cases chunkSize request v with ⟨e, hw⟩ | ⟨e, w, ha, hw⟩ |
    ⟨σ, fresh, r, w, answer, hw, hl, -⟩
  · rw [hw]
    exact .nothing (.refl _ v)
  · rw [hw]
    exact .nothing (hv.acquire_error ha _)
  · rw [hw]
    exact .record (hl.mono fun _ => False.elim) (.refl r)

theorem announced_effect (hv : v.Sound) (s : Store) (chunkSize : UInt32) (notice : NewVersion) {ts : Transfers}
    (hts : ts.Staged) :
    Effect s v (s.announced chunkSize notice ts v).2.2 ∧ (s.announced chunkSize notice ts v).2.1.Staged := by
  rcases s.announced_cases chunkSize notice ts v with ⟨e, w, ha, hw⟩ | ⟨σ, fresh, r, w, ⟨answer, hw, -, hl⟩ |
    ⟨p, t, -, -, hw, hl, ht, -⟩ | ⟨p, t, r', replies, file, content, -, -, hw, -, -, -, hs, hl, -⟩⟩
  · rw [hw]
    exact ⟨.nothing (hv.acquire_error ha _), hts⟩
  · rw [hw]
    exact ⟨.record (hl.mono fun _ h => h.1) (r.moves_announced notice), hts⟩
  · rw [hw]
    obtain ⟨outstanding, hq⟩ := t.requests_snd chunkSize
    obtain ⟨hstaged, hk⟩ := hts.add (t := (t.requests chunkSize).2) (by rw [hq]; exact ht.unused.1) w
    exact ⟨.record ((hl.mono fun _ h => h.1).then hk fun _ => id) (r.moves_announced notice), hstaged⟩
  · rw [hw]
    obtain ⟨hi, hi'⟩ := Record.idle_of_settle ((r.moves_announced notice).sound (hv.before hl)) hs
    exact ⟨.file (hl.mono fun _ h => h.imp (·.1) id) hi.of_announced hi', hts⟩

theorem install_effect (hv : v.Sound) (s : Store) {t : Transfer} (hp : StagingPlace t.staging.location) :
    Effect s v (s.install t v).2 := by
  rcases s.install_cases t v hp with ⟨e, w, ha, hw⟩ | ⟨σ, fresh, r, w, ⟨e, hw, hl, -⟩ |
    ⟨r', replies, file, content, hw, hs, hl, -⟩⟩
  · rw [hw]
    exact .nothing ((hv.acquire_error ha _).trans (discard_staging w hp))
  · rw [hw]
    exact .record (hl.mono fun _ h => h ▸ hp) (.refl r)
  · rw [hw]
    obtain ⟨hi, hi'⟩ := Record.idle_of_settle (hv.before hl) hs
    exact .file (hl.mono fun l h => h.imp (fun (he : l = t.staging.location) => he ▸ hp) id) hi hi'

theorem receiveChunk_effect (hv : v.Sound) (s : Store) (chunk : FileChunk) {ts : Transfers} (hts : ts.Staged) :
    Effect s v (s.receiveChunk chunk ts v).2.2 ∧ (s.receiveChunk chunk ts v).2.1.Staged := by
  rcases s.receiveChunk_cases chunk ts v with ⟨-, hw⟩ |
    ⟨t, ht, ⟨-, answer, hw, -⟩ | ⟨-, -, ⟨-, hw⟩ | ⟨-, answer, w, hi, hw⟩⟩⟩
  · rw [hw]
    exact ⟨.nothing (.refl _ v), hts⟩
  · rw [hw]
    obtain ⟨hstaged, hk⟩ := hts.drop chunk.path v
    exact ⟨.nothing hk, hstaged⟩
  · rw [hw]
    have hp := hts.of_get? ht
    exact ⟨.nothing (modify_staging v hp _), hts.insert (by simpa using hp)⟩
  · rw [hw]
    have hp := hts.of_get? ht
    have hk := modify_staging v hp (·.write chunk.offset.toNat chunk.data)
    have he :=
      install_effect (hv.kept hk fun σ => σ.record_not_staging) s (t := (t.note chunk).2) (by simpa using hp)
    rw [hi] at he
    exact ⟨he.behind hk, hts.erase chunk.path⟩

end Effect

/-! ### Events -/

/-- All transfers of all sessions write to staging files. -/
def Node.Staged (n : Node) : Prop := ∀ s ∈ n.sessions.values, s.transfers.Staged

section Events
variable {u : Setup} {s : Session} {n : Node} {v : Volume}

theorem handle_effect (hv : v.Sound) (hs : s.transfers.Staged) (u : Setup) (m : Message) :
    Effect u.store v (s.handle u m v).2.2 ∧ (s.handle u m v).2.1.transfers.Staged := by
  cases m with
  | newVersion notice => exact announced_effect hv u.store u.config.chunkSize notice hs
  | requestChunk request => exact ⟨serveChunk_effect hv u.store u.config.chunkSize request, hs⟩
  | fileChunk chunk => exact receiveChunk_effect hv u.store chunk hs
  | commit path c => exact ⟨committed_effect hv u.store path c, hs⟩
  | nack nack =>
    obtain ⟨hstaged, hk⟩ := hs.drop nack.path v
    exact ⟨.nothing hk, hstaged⟩
  | subscribe path =>
    refine ⟨.nothing (.refl _ v), ?_⟩
    show (Session.subscribe u path s).2.transfers.Staged
    unfold Session.subscribe
    dsimp only
    split
    · exact hs
    · split <;> exact hs
  | _ => exact ⟨.nothing (.refl _ v), hs⟩

theorem answer_effect (hv : v.Sound) (hs : s.transfers.Staged) (u : Setup) (m : Message) :
    Effect u.store v (s.answer u m v).2.2 ∧ (s.answer u m v).2.1.transfers.Staged := by
  have h := handle_effect hv hs u m
  unfold Session.answer
  dsimp only
  split
  · exact ⟨.nothing (.refl _ v), hs⟩
  · split
    · rename_i hh
      rw [hh] at h
      exact h
    · rename_i hh
      rw [hh] at h
      exact h

namespace Node

theorem staged_start (u : Setup) : Staged ⟨u, .empty⟩ := fun _ h => by cases h

theorem Staged.session (hn : n.Staged) (name : String) : (n.session name).transfers.Staged := by
  unfold Node.session
  cases hs : n.sessions.get? name with
  | none => exact Transfers.staged_empty
  | some s => exact hn s (Table.mem_values_of_get? hs)

theorem step_effect (hv : v.Sound) (hn : n.Staged) (e : Event) :
    Effect n.setup.store v (n.step e v).2 ∧ (n.step e v).1.Staged ∧ (n.step e v).1.setup = n.setup := by
  cases e with
  | edit edit path => exact ⟨report_effect hv edit n.setup.store path, hn, rfl⟩
  | message name m =>
    obtain ⟨he, hs⟩ := answer_effect hv (hn.session name) n.setup m
    refine ⟨he, fun s hmem => ?_, rfl⟩
    rcases Table.mem_values_insert hmem with rfl | hmem
    · exact hs
    · exact hn s hmem
  | close name =>
    exact ⟨.nothing ((hn.session name).abandonAll v), fun s hmem => hn s (Table.mem_values_erase hmem), rfl⟩

variable {allowed : Event → Prop} {m : Node} {w : Volume}

/-- What all states keep that a node comes to. -/
structure Sound (u : Setup) (n : Node) (v : Volume) : Prop where
  setup : n.setup = u
  volume : v.Sound
  staged : n.Staged

theorem Sound.event (h : Sound u n v) (e : Event) : Sound u (n.step e v).1 (n.step e v).2 := by
  obtain ⟨he, hs, hu⟩ := step_effect h.volume h.staged e
  exact ⟨hu.trans h.setup, h.volume.effect he, hs⟩

theorem Sound.evolves (h : Sound u n v) (he : Evolves allowed n v m w) : Sound u m w := by
  induction he with
  | rest => exact h
  | event e _ _ ih => exact ih.event e
  | use _ kept ih => exact ⟨ih.setup, ih.volume.kept kept fun σ hσ => hσ.1 σ.recordPlace_record, ih.staged⟩

end Node

end Events

/-! ### Local work -/

section LocalWork
variable {s : Store} {v w : Volume} {path file : String} {r : Record}

/-- An event moves the record of a path, if at all, as records move. -/
theorem Effect.recorded (he : Effect s v w) (hr : s.recorded? path v = some (.ok r)) :
    ∃ r', s.recorded? path w = some (.ok r') ∧ r.Moves r' := by
  rcases recorded?_cases s path v with h | ⟨file, σ, id, content, hres, -, hf, h⟩
  · rw [hr] at h
    cases h
  rw [hr] at h
  have hd := (Option.some.inj h).symm
  obtain ⟨-, -, -, -, hlook⟩ := find_file hf
  have stay : ∀ {P : Location → Prop}, Kept P v w → ¬P σ.record →
    ∃ r', s.recorded? path w = some (.ok r') ∧ r.Moves r' :=
    fun hk hP => ⟨r, by rw [hk.recorded? hres hf (hk.file hP hlook), hd], .refl r⟩
  have moved : ∀ {P : Location → Prop} {p : String} {τ : Site} {fresh : Bool} {r₀ r' : Record},
      Leased s p P v w τ fresh r₀ r' → r₀.Moves r' → ¬P σ.record →
      ∃ r', s.recorded? path w = some (.ok r') ∧ r.Moves r' := fun {P p τ fresh r₀ r'} hl hm hP => by
    by_cases hτ : σ.record = τ.record
    · obtain rfl := Site.record_injective hτ
      obtain ⟨id', content', hw, hd'⟩ := record?_eq_some.mp hl.after
      have hr₀ : r₀ = r := (hl.found (record?_eq_some.mpr ⟨id, content, hlook, hd⟩)).2
      exact ⟨r', by rw [hl.kept.recorded? hres hf hw, hd'], hr₀ ▸ hm⟩
    · exact stay hl.kept (by simp [hP, hτ])
  cases he with
  | nothing kept => exact stay kept σ.record_not_staging
  | record leased moves => exact moved leased moves σ.record_not_staging
  | file leased idle after =>
    refine moved leased (idle.moves after) fun hP => ?_
    rcases hP with hp | he
    · exact σ.record_not_staging hp
    · exact leased.leads.file_not_record (he ▸ σ.recordPlace_record)

/-- Where an event puts another file than stood there, the path had no local work. -/
theorem Effect.replaced (he : Effect s v w) (hv : v.Sound) {l : Location} {id : Nat} {content : Content}
    (hr : s.resolve path = .ok file) (hf : w.find file = .ok (l, .file id content))
    (hne : v.lookup l ≠ some (.file id content)) :
    s.recorded? path v = none ∨ ∃ r, s.recorded? path v = some (.ok r) ∧ r.Idle := by
  obtain ⟨dir, name, hl, hloc, hlook⟩ := find_file hf
  have hlead : s.Leads w path ⟨dir, name⟩ := Store.leads_of_locate hr hl
  subst hloc
  cases he with
  | nothing kept => exact absurd (kept.file_back hlead.file_not_staging hlook) hne
  | record leased moves =>
    refine absurd (leased.kept.file_back (fun hP => ?_) hlook) hne
    rcases hP with hp | he
    · exact hlead.file_not_staging hp
    · exact hlead.file_not_record ⟨_, _, he⟩
  | @file p σ fresh r r' leased idle after =>
    by_cases hσ : dir ++ [name] = σ.file
    · rcases recorded?_cases s path v with h | ⟨file, τ, id', content', -, hleads, hfind, h⟩
      · exact Or.inl h
      -- The record of the path was found where the lease found it, so it is the idle one.
      obtain rfl : τ = σ := by
        rw [(hleads.kept leased.kept).unique hlead]
        exact Site.file_injective hσ
      obtain ⟨-, -, -, -, hrec⟩ := find_file hfind
      obtain ⟨r₀, hd, -⟩ := hv.record τ content' (content?_eq_some.mpr ⟨id', hrec⟩)
      have hr₀ : r₀ = r := ((leased.found (record?_eq_some.mpr ⟨id', content', hrec, hd⟩)).2).symm
      exact Or.inr ⟨r₀, by rw [h, hd], hr₀ ▸ idle⟩
    · refine absurd (leased.kept.file_back (fun hP => ?_) hlook) hne
      rcases hP with (hp | he) | he
      · exact hlead.file_not_staging hp
      · exact hσ he
      · exact hlead.file_not_record ⟨_, _, he⟩

end LocalWork

namespace Node
variable {allowed : Event → Prop} {u : Setup} {n m : Node} {v v₀ w : Volume}

theorem Sound.start (hfree : ∀ l, RecordPlace l → v.content? l = none) (hlocked : ∀ id ∈ v.locked, id < v.nextId) :
    Sound u ⟨u, .empty⟩ v where
  setup := rfl
  volume := ⟨hlocked, fun σ content hc => by
    rw [hfree _ σ.recordPlace_record] at hc
    cases hc⟩
  staged := staged_start u

theorem Sound.replaced {e : Event} {path : String} {content : Content} (h : Sound u n v)
    (hr : n.Replaces e v path content) :
    u.store.recorded? path v = none ∨ ∃ r, u.store.recorded? path v = some (.ok r) ∧ r.Idle := by
  obtain ⟨file, l, id, hres, hf, hne⟩ := hr
  obtain ⟨he, -, -⟩ := step_effect h.volume h.staged e
  rw [h.setup] at he hres
  exact he.replaced h.volume hres hf hne

theorem Sound.recorded {path : String} {r : Record} (h : Sound u n v) (he : Evolves allowed n v m w)
    (hr : u.store.recorded? path v = some (.ok r)) :
    ∃ r', u.store.recorded? path w = some (.ok r') ∧ r.Moves r' := by
  induction he with
  | rest => exact ⟨r, hr, .refl r⟩
  | event e _ he ih =>
    obtain ⟨r₁, hr₁, hm₁⟩ := ih
    have hs := h.evolves he
    have heff := (step_effect hs.volume hs.staged e).1
    rw [hs.setup] at heff
    obtain ⟨r₂, hr₂, hm₂⟩ := heff.recorded hr₁
    exact ⟨r₂, hr₂, hm₁.trans hm₂⟩
  | use he kept ih =>
    obtain ⟨r₁, hr₁, hm₁⟩ := ih
    exact ⟨r₁, kept.recorded?_eq (fun σ hσ => hσ.1 σ.recordPlace_record) hr₁, hm₁⟩

/-- Local work is never overwritten: whatever happened to a node that began without records, content is put
    in place only where no local work is. A conflict lasts until the path is deleted, and a deletion for
    ever, so in either case nothing is put in place any more. -/
theorem local_work_kept (hfree : ∀ l, RecordPlace l → v₀.content? l = none)
    (hlocked : ∀ id ∈ v₀.locked, id < v₀.nextId)
    (h : Evolves (fun _ => True) ⟨u, .empty⟩ v₀ n v) (path : String) :
    (∀ e content, n.Replaces e v path content →
      u.store.recorded? path v = none ∨
        ∃ r, u.store.recorded? path v = some (.ok r) ∧
          r.client = 0 ∧ r.state ≠ .dirty ∧ r.state ≠ .conflict ∧ r.state ≠ .deleted) ∧
    ∀ r m w, u.store.recorded? path v = some (.ok r) → r.state.terminal = true → Evolves (fun _ => True) n v m w →
      (∃ r', u.store.recorded? path w = some (.ok r') ∧
        (r'.state = .deleted ∨ r.state = .conflict ∧ r'.state = .conflict)) ∧
      ∀ e content, ¬m.Replaces e w path content := by
  have hs : Sound u n v := (Sound.start hfree hlocked).evolves h
  refine ⟨fun e content hr => ?_, fun r m w hr ht he => ?_⟩
  · rcases hs.replaced hr with hn | ⟨r, hr, hc, hstate⟩
    · exact Or.inl hn
    · refine Or.inr ⟨r, hr, hc, ?_⟩
      rcases hstate with h | h <;> rw [h] <;> decide
  · obtain ⟨r', hr', hm⟩ := hs.recorded he hr
    have hstate : r'.state = .deleted ∨ r.state = .conflict ∧ r'.state = .conflict := by
      cases hst : r.state with
      | conflict => exact (hm.conflict hst).symm.imp id fun h => ⟨rfl, h⟩
      | deleted => exact Or.inl (hm.deleted hst)
      | _ => simp [hst, RecordState.terminal] at ht
    refine ⟨⟨r', hr', hstate⟩, fun e content hrep => ?_⟩
    rcases (hs.evolves he).replaced hrep with hn | ⟨r₂, hr₂, hi⟩
    · rw [hr'] at hn
      cases hn
    · rw [hr'] at hr₂
      cases hr₂
      have := hi.not_terminal
      rcases hstate with h | ⟨-, h⟩ <;> rw [h] at this <;> cases this

/-- A file is edited, a peer announces a new base of it, and whatever happens then, its content stays. -/
theorem sample_conflict_lasts :
    let es : List Event := [.edit .written "a", .message "peer" (.newVersion ⟨"a", 1, 0, 0⟩)]
    let (n, v) := Node.run es ⟨sampleSetup, .empty⟩ (sampleVolume [1, 2, 3, 4])
    sampleSetup.store.recorded? "a" v = some (.ok ⟨0, 1, .conflict⟩) ∧
      ∀ m w, Evolves (fun _ => True) n v m w → ∀ e content, ¬m.Replaces e w "a" content := by
  intro es
  have h := local_work_kept (fun _ hl => sampleVolume_unrecorded [1, 2, 3, 4] hl) (fun _ hid => by cases hid)
    (evolves_run es (fun _ _ => trivial) ⟨sampleSetup, .empty⟩ _) "a"
  have hr : sampleSetup.store.recorded? "a" (Node.run es ⟨sampleSetup, .empty⟩ (sampleVolume [1, 2, 3, 4])).2 =
      some (.ok ⟨0, 1, .conflict⟩) := rfl
  exact ⟨hr, fun m w he => (h.2 _ m w hr rfl he).2⟩

end Node

end TreeReplica
