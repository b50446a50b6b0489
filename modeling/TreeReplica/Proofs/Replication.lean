import TreeReplica.LocalEdit
import TreeReplica.Proofs.Transfer
import TreeReplica.Replication

/-! What local edits and messages do, one lemma for each handler. A handler works on the record of its path
    under one lease (`Leased`): it finds a record, or makes the initial one, leaves another one, and puts
    at most staged content in the place of the file (`Finished`). All else that it touches are staging
    files. The lemmas hold for every volume and every path. -/

namespace TreeReplica
open Volume

/-! ### Under a lease -/

/-- An operation on `v` held the lease of a path: it found record `r`, which it made if `fresh`, and left
    record `r'` in `w`. Besides the record it touched at most the places in `P`. -/
structure Leased (s : Store) (path : String) (P : Location → Prop) (v w : Volume) (σ : Site) (fresh : Bool)
    (r r' : Record) : Prop where
  leads : s.Leads w path σ
  kept : Kept (fun l => P l ∨ l = σ.record) v w
  before : (fresh = false ∧ v.record? σ = some r) ∨
    (fresh = true ∧ r = .initial ∧ ∀ content, v.content? σ.record = some content → content.toList = [])
  after : w.record? σ = some r'

/-- Where there was a record, a lease found that record. -/
theorem Leased.found {s : Store} {path : String} {P : Location → Prop} {v w : Volume} {σ : Site} {fresh : Bool}
    {r r' r₀ : Record} (h : Leased s path P v w σ fresh r r') (hr : v.record? σ = some r₀) :
    fresh = false ∧ r = r₀ := by
  rcases h.before with ⟨hfresh, hb⟩ | ⟨-, -, hempty⟩
  · rw [hr] at hb
    exact ⟨hfresh, (Option.some.inj hb).symm⟩
  · obtain ⟨id, content, hlook, hd⟩ := record?_eq_some.mp hr
    exact absurd (hempty content (content?_eq_some.mpr ⟨id, hlook⟩)) (Record.ne_nil_of_decode hd)

/-- The record that a lease found where one could be read, and the one that it left. -/
theorem Leased.recorded {s : Store} {path : String} {P : Location → Prop} {v w : Volume} {σ : Site} {fresh : Bool}
    {r r' r₀ : Record} (h : Leased s path P v w σ fresh r r') (hr : s.recorded? path v = some (.ok r₀)) :
    fresh = false ∧ r = r₀ ∧ s.recorded? path w = some (.ok r') := by
  rcases recorded?_cases s path v with hnone | ⟨file, τ, id, content, hres, hlead, hf, -⟩
  · rw [hr] at hnone
    cases hnone
  obtain rfl : σ = τ := h.leads.unique (hlead.kept h.kept)
  obtain ⟨hfresh, hfound⟩ := h.found (hlead.record? hr)
  obtain ⟨id', content', hlook, hd⟩ := record?_eq_some.mp h.after
  exact ⟨hfresh, hfound, by rw [h.kept.recorded? hres hf hlook, hd]⟩

section Granted
variable {s : Store} {v w w₂ : Volume} {path : String} {lease : Lease} {σ : Site}

/-- What was done under a granted lease, once the lease has ended: texts of tracked files lead to what they
    led to before it ended. -/
theorem Granted.leased {P : Location → Prop} (g : Granted s path v lease w σ) (hk : Kept P w w₂)
    (hP : ¬P σ.record) (r : Record) :
    Leased s path P v (Lease.release { lease with record := r } w₂) σ lease.fresh lease.record r ∧
      ∀ p file, s.resolve p = .ok file →
      (Lease.release { lease with record := r } w₂).find file = w₂.find file := by
  obtain ⟨hkept, hrec, hlook⟩ := g.release hk hP r
  obtain ⟨content, hf, hdec⟩ := g.stored
  have hhere := g.release_here hk hP r
  have hkind := g.release_kind hk hP r
  refine ⟨⟨?_, hkept, ?_, hrec⟩, fun p file hr => ?_⟩
  · obtain ⟨file, hr, hn, hwalk⟩ := g.leads.kept hk
    refine ⟨file, hr, hn, ?_⟩
    unfold start at hwalk ⊢
    rw [hhere]
    refine walk_mono (fun l hl => ?_) hwalk
    rcases hkind l with h | ⟨⟨_, _, h⟩, -⟩
    · rw [h, hl]
    · rw [hl] at h
      cases h
  · rcases g.before with ⟨hfresh, hsame⟩ | ⟨hfresh, hinit, hempty⟩
    · exact Or.inl ⟨hfresh, record?_eq_some.mpr ⟨_, content, by rw [← hsame, hf], hdec⟩⟩
    · exact Or.inr ⟨hfresh, hinit, hempty⟩
  · refine find_congr hhere hkind fun dir name slash hl => hlook _ fun he => ?_
    have := (Store.leads_of_locate hr hl).file_not_record
    exact this ⟨σ.dir, σ.name, he⟩

theorem Granted.unused (g : Granted s path v lease w σ) {l : Location} (h : w.Unused l) : v.Unused l :=
  ⟨h.1, g.kept.free (fun he => σ.record_not_staging (he ▸ h.1)) h.2⟩

/-- What began under a lease began before it was taken, and its staging file outlasts the lease. -/
theorem Granted.begun {notice : NewVersion} {p : Pull} {t : Transfer} {w₂ : Volume} (g : Granted s path v lease w σ)
    (hk : Kept w.Unused w w₂) (b : Transfer.Begun notice p w w₂ t) (r : Record) :
    Transfer.Begun notice p v (Lease.release { lease with record := r } w₂) t := by
  have hne : t.staging.location ≠ σ.record := fun he => σ.record_not_staging (he ▸ b.unused.1)
  have hlook := (g.release (hk.mono fun _ => g.unused) (fun h => σ.record_not_staging h.1) r).2.2 _ hne
  obtain ⟨content, hread, hblank⟩ := b.blank
  refine { b with unused := g.unused b.unused, numbered := ⟨?_, ?_⟩, blank := ⟨content, ?_, hblank⟩ }
  · exact Nat.le_trans g.kept.next b.numbered.1
  · exact Nat.lt_of_lt_of_le b.numbered.2 (Store.release_next _ _)
  · rw [read?_eq_some] at hread ⊢
    rw [hlook, hread]

end Granted

/-! ### Local edits and commits -/

section Records
variable {s : Store} {v w : Volume} {path : String}

/-- A reported edit fails with its lease, or changes the record and announces the file as it is. -/
theorem LocalEdit.report_cases (e : LocalEdit) (s : Store) (path : String) (v : Volume) :
    (∃ err w, s.acquire path v = (.error err, w) ∧ e.report s path v = (.error err, w)) ∨
      ∃ σ fresh r w file, s.resolve path = .ok file ∧
        Leased s path (fun _ => False) v w σ fresh r (e.apply fresh r) ∧
        e.report s path v = (.ok (e.apply fresh r, notice? path (e.apply fresh r)
          (match w.sizeOf file with | .ok size => size | .error _ => 0)), w) := by
  unfold report
  rcases Store.withLease_cases s path _ v with h | ⟨lease, w, σ, answer, r, w₂, -, g, hb, hw⟩
  · exact Or.inl h
  · dsimp only at hb
    obtain ⟨rfl, rfl, rfl⟩ := hb
    obtain ⟨hl, hfind⟩ := g.leased (.refl (fun _ => False) w) id (e.apply lease.fresh lease.record)
    refine Or.inr ⟨σ, lease.fresh, lease.record, _, lease.file, g.resolves, hl, ?_⟩
    have hsize : (Lease.release { lease with record := e.apply lease.fresh lease.record } w).sizeOf lease.file =
        w.sizeOf lease.file := by
      unfold Volume.sizeOf
      rw [hfind path lease.file g.resolves]
    rw [hsize]
    exact hw

/-- A commit fails with its lease, is refused and changes nothing, or is applied to the record. -/
theorem Store.committed_cases (s : Store) (path : String) (c : Commit) (v : Volume) :
    (∃ err w, s.acquire path v = (.error err, w) ∧ s.committed path c v = (.error err, w)) ∨
      ∃ σ fresh r w, (∃ why, r.commit c = .error why ∧ Leased s path (fun _ => False) v w σ fresh r r ∧
          s.committed path c v = (.error (.stale (.rejected path why)), w)) ∨
        ∃ r', r.commit c = .ok r' ∧ Leased s path (fun _ => False) v w σ fresh r r' ∧
          s.committed path c v = (.ok r', w) := by
  unfold committed
  rcases Store.withLease_cases s path _ v with h | ⟨lease, w, σ, answer, r, w₂, -, g, hb, hw⟩
  · exact Or.inl h
  · refine Or.inr ⟨σ, lease.fresh, lease.record, Lease.release { lease with record := r } w₂, ?_⟩
    split at hb
    · rename_i why hc
      obtain ⟨rfl, rfl, rfl⟩ := hb
      exact Or.inl ⟨why, hc, (g.leased (.refl _ w) id _).1, hw⟩
    · rename_i r' hc
      obtain ⟨rfl, rfl, rfl⟩ := hb
      exact Or.inr ⟨_, hc, (g.leased (.refl _ w) id _).1, hw⟩

end Records

/-! ### Content put in place -/

namespace Transfer

theorem finish_ok {t : Transfer} {file : String} {r r' : Record} {v w : Volume} {replies : List Message}
    (hs : t.settle r = .ok (r', replies)) (hm : v.move t.staging file = (.ok (), w)) :
    t.finish file r v = (.ok replies, r', w) := by
  unfold finish install
  rw [hs]
  dsimp only
  rw [hm]

/-- A complete transfer that does not end with its content in place goes and leaves the record. -/
theorem finish_cases (t : Transfer) (file : String) (r : Record) (v : Volume) :
    (∃ e, t.finish file r v = (.error e, r, t.abandon v) ∧ ∀ why, e = .stale why → t.settle r = .error why) ∨
      ∃ r' replies w, t.settle r = .ok (r', replies) ∧ v.move t.staging file = (.ok (), w) ∧
        t.finish file r v = (.ok replies, r', w) := by
  unfold finish
  split
  · rename_i why hs
    exact Or.inl ⟨_, rfl, fun why' he => by cases he; exact hs⟩
  · rename_i r' replies hs
    rcases t.install_cases file v with ⟨w, hm, hi⟩ | ⟨e, hi⟩
    · rw [hi]
      exact Or.inr ⟨r', replies, w, hs, hm, rfl⟩
    · rw [hi]
      exact Or.inl ⟨_, rfl, fun why he => by cases he⟩

end Transfer

section Install
variable {s : Store} {v w w₁ : Volume} {path : String} {lease : Lease} {σ : Site} {t : Transfer}

/-- A complete transfer under a lease that was granted for its path. -/
theorem Granted.finished {P : Location → Prop} (g : Granted s path v lease w σ) (hk : Kept P w w₁)
    (hp : P t.staging.location) (r : Record) :
    (∃ e w₂, t.finish lease.file r w₁ = (.error e, r, w₂) ∧ Kept P w w₂ ∧ ∀ why,
      e = .stale why → t.settle r = .error why) ∨
      ∃ r' replies w₂ content, t.finish lease.file r w₁ = (.ok replies, r', w₂) ∧
        t.settle r = .ok (r', replies) ∧ w₁.read? t.staging = some content ∧
        Kept (fun l => P l ∨ l = σ.file) w w₂ ∧
        w₂.find lease.file = .ok (σ.file, .file t.staging.id content) := by
  rcases t.finish_cases lease.file r w₁ with ⟨e, hf, hstale⟩ | ⟨r', replies, w₂, hs, hm, hf⟩
  · exact Or.inl ⟨e, _, hf, hk.trans ((discard_kept w₁ t.staging).mono fun l hl => hl ▸ hp), hstale⟩
  · obtain ⟨content, hread, hfind, hmoved⟩ := (g.leads.kept hk).moved g.resolves hm
    have hmoved' := hmoved.mono (Q := fun l => P l ∨ l = σ.file) fun l hl =>
      hl.imp (fun (he : l = t.staging.location) => he ▸ hp) id
    exact Or.inr ⟨r', replies, w₂, content, hf, hs, hread, (hk.mono fun l hl => Or.inl hl).trans hmoved', hfind⟩

/-- A complete transfer fails with its lease, leaves the record, or puts what it staged in the place of the
    file and settles the record. -/
theorem Store.install_cases (s : Store) (t : Transfer) (v : Volume) (hp : StagingPlace t.staging.location) :
    (∃ e w, s.acquire t.path v = (.error e, w) ∧ s.install t v = (.error e, t.abandon w)) ∨
      ∃ σ fresh r w,
        (∃ e, s.install t v = (.error e, w) ∧ Leased s t.path (· = t.staging.location) v w σ fresh r r ∧
            ∀ why, e = .stale why → t.settle r = .error why) ∨
          ∃ r' replies file content, s.install t v = (.ok replies, w) ∧ t.settle r = .ok (r', replies) ∧
            Leased s t.path (fun l => l = t.staging.location ∨ l = σ.file) v w σ fresh r r' ∧
            s.resolve t.path = .ok file ∧ v.read? t.staging = some content ∧
            w.find file = .ok (σ.file, .file t.staging.id content) := by
  unfold install
  split
  · rename_i e w ha
    exact Or.inl ⟨e, w, ha, rfl⟩
  · rename_i lease w ha
    obtain ⟨σ, g⟩ := acquire_ok ha
    refine Or.inr ⟨σ, lease.fresh, lease.record, ?_⟩
    obtain ⟨answer, r, w₂, hb, hd⟩ := during_cases lease (fun lease v => t.finish lease.file lease.record v) w
    rw [hd]
    refine ⟨Lease.release { lease with record := r } w₂, ?_⟩
    have hne : σ.record ≠ t.staging.location := fun he => σ.record_not_staging (he ▸ hp)
    rcases g.finished (P := (· = t.staging.location)) (.refl _ w) rfl lease.record with ⟨e, w₂', hf, hk, hstale⟩ |
      ⟨r', replies, w₂', content, hf, hs, hread, hk, hfind⟩
    · rw [hf] at hb
      cases hb
      exact Or.inl ⟨e, rfl, (g.leased hk hne _).1, hstale⟩
    · rw [hf] at hb
      cases hb
      obtain ⟨hl, hfinds⟩ := g.leased hk (fun h => h.elim hne g.leads.record_ne_file) r
      refine Or.inr ⟨r, replies, lease.file, content, rfl, hs, hl, g.resolves, ?_, ?_⟩
      · exact read?_eq_some.mpr (g.kept.file_back (Ne.symm hne) (read?_eq_some.mp hread))
      · rw [hfinds t.path lease.file g.resolves, hfind]

end Install

/-! ### Announcements -/

section Announced
variable {s : Store} {chunkSize : UInt32} {notice : NewVersion} {p : Pull} {v w : Volume} {lease : Lease} {σ : Site}

/-- What is pulled under a lease: nothing, a transfer, or content that was put in place at once. -/
theorem Granted.pulled (g : Granted s notice.path v lease w σ) (chunkSize : UInt32) (p : Pull) (r : Record) :
    (∃ e w₁, s.pull chunkSize notice p lease.file r w = (.error e, r, w₁) ∧ Kept w.Unused w w₁ ∧
        ∀ why, e = .stale why → ∃ t : Transfer, t.pull = p ∧ t.settle r = .error why) ∨
      (∃ t w₁, s.pull chunkSize notice p lease.file r w =
          (.ok ((t.requests chunkSize).1.map .requestChunk, some (t.requests chunkSize).2), r, w₁) ∧
        Kept w.Unused w w₁ ∧ Transfer.Begun notice p w w₁ t ∧ t.outstanding = .empty ∧ notice.size ≠ 0) ∨
      ∃ (t : Transfer) (r' : Record) (replies : List Message) (w₁ : Volume) (content : Content),
        s.pull chunkSize notice p lease.file r w = (.ok (replies, none), r', w₁) ∧
        t.path = notice.path ∧ t.pull = p ∧ t.client = notice.client ∧ notice.size = 0 ∧
        t.settle r = .ok (r', replies) ∧ Kept (fun l => w.Unused l ∨ l = σ.file) w w₁ ∧
        w₁.find lease.file = .ok (σ.file, .file t.staging.id content) ∧ content.toList = [] := by
  obtain ⟨w₁, hk, ⟨e, hb, hnot⟩ | ⟨t, hb, ht, hasked⟩⟩ := Transfer.begin_cases s notice p w
  · refine Or.inl ⟨e, w₁, ?_, hk, fun why he => absurd he (hnot why)⟩
    unfold Store.pull
    rw [hb]
  have hcomplete := ht.complete
  by_cases hz : notice.size = 0
  · rw [decide_eq_true hz] at hcomplete
    rcases g.finished hk ht.unused r with ⟨e, w₂, hf, hk₂, hstale⟩ |
      ⟨r', replies, w₂, content, hf, hs, hread, hk₂, hfind⟩
    · refine Or.inl ⟨e, w₂, ?_, hk₂, fun why he => ⟨t, ht.pull, hstale why he⟩⟩
      unfold Store.pull
      rw [hb]
      dsimp only
      rw [if_pos hcomplete, hf]
    · refine Or.inr (Or.inr ⟨t, r', replies, w₂, content, ?_, ht.path, ht.pull, ht.client, hz, hs, hk₂, hfind, ?_⟩)
      · unfold Store.pull
        rw [hb]
        dsimp only
        rw [if_pos hcomplete, hf]
      · obtain ⟨content', hread', hblank⟩ := ht.blank
        rw [hread] at hread'
        cases hread'
        simpa [hz] using hblank
  · rw [decide_eq_false hz] at hcomplete
    refine Or.inr (Or.inl ⟨t, w₁, ?_, hk, ht, hasked, hz⟩)
    unfold Store.pull
    rw [hb]
    dsimp only
    rw [if_neg (by simp [hcomplete])]

/-- An announcement fails with the lease, is heard and no more, starts a transfer, or has its content of no
    bytes put in place at once. -/
theorem Store.announced_cases (s : Store) (chunkSize : UInt32) (notice : NewVersion) (ts : Transfers) (v : Volume) :
    (∃ e w, s.acquire notice.path v = (.error e, w) ∧ s.announced chunkSize notice ts v = (.error e, ts, w)) ∨
      ∃ σ fresh r w,
        (∃ answer, s.announced chunkSize notice ts v = (answer, ts, w) ∧
            ((answer = .ok [] ∧ ∀ p, r.plan notice ≠ .pull p) ∨
              ∃ e, answer = .error e ∧ ∀ why, e = .stale why → r.plan notice = .refuse why ∨
                ∃ t : Transfer, r.plan notice = .pull t.pull ∧ t.settle (r.announced notice) = .error why) ∧
            Leased s notice.path v.Unused v w σ fresh r (r.announced notice)) ∨
          (∃ p t, r.plan notice = .pull p ∧ notice.size ≠ 0 ∧
            s.announced chunkSize notice ts v =
              (.ok ((t.requests chunkSize).1.map .requestChunk), ts.add (t.requests chunkSize).2 w) ∧
            Leased s notice.path v.Unused v w σ fresh r (r.announced notice) ∧ Transfer.Begun notice p v w t ∧
            t.outstanding = .empty) ∨
          ∃ (p : Pull) (t : Transfer) (r' : Record) (replies : List Message) (file : String) (content : Content),
            r.plan notice = .pull p ∧ notice.size = 0 ∧ s.announced chunkSize notice ts v = (.ok replies, ts, w) ∧
            t.path = notice.path ∧ t.pull = p ∧ t.client = notice.client ∧
            t.settle (r.announced notice) = .ok (r', replies) ∧
            Leased s notice.path (fun l => v.Unused l ∨ l = σ.file) v w σ fresh r r' ∧
            s.resolve notice.path = .ok file ∧ w.find file = .ok (σ.file, .file t.staging.id content) ∧
            content.toList = [] := by
  unfold announced
  dsimp only
  rcases Store.withLease_cases s notice.path _ v with ⟨e, w, ha, hw⟩ | ⟨lease, w, σ, answer, r, w₂, -, g, hb, hw⟩
  · rw [hw]
    exact Or.inl ⟨e, w, ha, rfl⟩
  rw [hw]
  refine Or.inr ⟨σ, lease.fresh, lease.record, Lease.release { lease with record := r } w₂, ?_⟩
  have hnot : ¬v.Unused σ.record := fun h => σ.record_not_staging h.1
  split at hb
  · rename_i why hplan
    cases hb
    exact Or.inl ⟨_, rfl, Or.inr ⟨_, rfl, fun _ he => by cases he; exact Or.inl hplan⟩,
      (g.leased (.refl _ w) hnot _).1⟩
  · rename_i hplan
    cases hb
    exact Or.inl ⟨_, rfl, Or.inl ⟨rfl, by simp [hplan]⟩, (g.leased (.refl _ w) hnot _).1⟩
  · rename_i hplan
    cases hb
    exact Or.inl ⟨_, rfl, Or.inl ⟨rfl, by simp [hplan]⟩, (g.leased (.refl _ w) hnot _).1⟩
  · rename_i p hplan
    rcases g.pulled chunkSize p (lease.record.announced notice) with ⟨e, w₁, hp, hk, hstale⟩ |
      ⟨t, w₁, hp, hk, ht, hasked, hz⟩ |
      ⟨t, r', replies, w₁, content, hp, hpath, hpull, hclient, hz, hs, hk, hfind, hempty⟩
    · rw [hp] at hb
      cases hb
      refine Or.inl ⟨_, rfl, Or.inr ⟨e, rfl, fun why he => Or.inr ?_⟩,
        (g.leased (hk.mono fun _ => g.unused) hnot _).1⟩
      obtain ⟨t, rfl, hset⟩ := hstale why he
      exact ⟨t, hplan, hset⟩
    · rw [hp] at hb
      cases hb
      exact Or.inr (Or.inl ⟨p, t, hplan, hz, rfl, (g.leased (hk.mono fun _ => g.unused) hnot _).1,
        g.begun hk ht _, hasked⟩)
    · rw [hp] at hb
      cases hb
      have hk' := hk.mono (Q := fun l => v.Unused l ∨ l = σ.file) fun l hl => hl.imp g.unused id
      obtain ⟨hl, hfinds⟩ := g.leased hk' (fun h => h.elim hnot g.leads.record_ne_file) r
      refine Or.inr (Or.inr ⟨p, t, r, replies, lease.file, content, hplan, hz, rfl, hpath, hpull, hclient, hs, hl,
        g.resolves, ?_, hempty⟩)
      rw [hfinds _ lease.file g.resolves, hfind]

end Announced

/-! ### Chunks -/

section Chunks
variable {s : Store} {v w : Volume}

/-- A chunk that is received is unsolicited, ends its transfer, is kept, or completes its transfer. -/
theorem Store.receiveChunk_cases (s : Store) (chunk : FileChunk) (ts : Transfers) (v : Volume) :
    (ts.get? chunk.path = none ∧
        s.receiveChunk chunk ts v = (.error (.stale (.unsolicited chunk.path)), ts, v)) ∨
      ∃ t, ts.get? chunk.path = some t ∧
        (((chunk.data = [] ∨ t.fault? chunk ≠ none) ∧ ∃ answer,
          s.receiveChunk chunk ts v = (answer, ts.drop chunk.path v) ∧
            (∀ replies, answer = .ok replies → replies = [])) ∨
          (t.fault? chunk = none ∧ chunk.data ≠ [] ∧
            ((t.note chunk).2.complete = false ∧ s.receiveChunk chunk ts v =
                (.ok ((t.note chunk).1.toList.map .requestChunk), ts.insert chunk.path (t.note chunk).2,
                  v.modify t.staging (·.write chunk.offset.toNat chunk.data)) ∨
              (t.note chunk).2.complete = true ∧ ∃ answer w, s.install (t.note chunk).2
                  (v.modify t.staging (·.write chunk.offset.toNat chunk.data)) = (answer, w) ∧
                s.receiveChunk chunk ts v = (answer, ts.erase chunk.path, w)))) := by
  unfold receiveChunk
  split
  · rename_i ht
    exact Or.inl ⟨ht, rfl⟩
  rename_i t ht
  refine Or.inr ⟨t, ht, ?_⟩
  split
  · rename_i hrefusal
    exact Or.inl ⟨Or.inl (by simpa [FileChunk.refusal] using hrefusal), _, rfl, fun _ h => by simpa using h.symm⟩
  rename_i hrefusal
  unfold Transfer.write
  split
  · rename_i e w hf
    split at hf
    · rename_i hfault
      cases hf
      exact Or.inl ⟨Or.inr (by rw [hfault]; simp), _, rfl, fun _ h => by simp at h⟩
    · simp at hf
  · rename_i rest t' w hf
    split at hf
    · simp at hf
    · rename_i hfault
      simp only [Prod.mk.injEq, Except.ok.injEq] at hf
      obtain ⟨hnote, rfl⟩ := hf
      rw [hnote]
      refine Or.inr ⟨hfault, by simpa [FileChunk.refusal] using hrefusal, ?_⟩
      cases hc : t'.complete
      · exact Or.inl ⟨rfl, rfl⟩
      · exact Or.inr ⟨rfl, _, _, rfl, rfl⟩

/-- A chunk request fails, or is answered under a lease that leaves the record. -/
theorem Store.serveChunk_cases (s : Store) (chunkSize : UInt32) (request : ChunkRequest) (v : Volume) :
    (∃ e, s.serveChunk chunkSize request v = (.error e, v)) ∨
      (∃ e w, s.acquire request.path v = (.error e, w) ∧ s.serveChunk chunkSize request v = (.error e, w)) ∨
        ∃ σ fresh r w answer, s.serveChunk chunkSize request v = (answer, w) ∧
          Leased s request.path (fun _ => False) v w σ fresh r r ∧
          ∀ reply, answer = .ok reply → ∃ file bytes, s.resolve request.path = .ok file ∧
            reply = .fileChunk ⟨request.path, r.client, request.offset, bytes⟩ ∧
            if request.client = r.client then
              readBytes w file request.offset (min request.size chunkSize) = .ok bytes
            else bytes = [] := by
  unfold serveChunk
  dsimp only
  rcases Store.withTracked_cases s request.path _ v with ⟨e, -, hw⟩ | hw | ⟨e, w, ha, hw⟩ |
    ⟨lease, w, σ, answer, r, w₂, -, g, hb, hw⟩
  · rw [hw]
    exact Or.inl ⟨e, rfl⟩
  · rw [hw]
    exact Or.inl ⟨_, rfl⟩
  · rw [hw]
    exact Or.inr (Or.inl ⟨e, w, ha, rfl⟩)
  · rw [hw]
    simp only [Prod.mk.injEq] at hb
    obtain ⟨hanswer, rfl, rfl⟩ := hb
    obtain ⟨hl, hfind⟩ := g.leased (.refl (fun _ => False) w) id lease.record
    refine Or.inr (Or.inr ⟨σ, lease.fresh, lease.record, _, answer, ?_, hl, fun reply ha => ?_⟩)
    · cases answer <;> rfl
    · subst ha
      cases hdata : (if request.client = lease.record.client then
          readBytes w lease.file request.offset (min request.size chunkSize) else .ok []) with
      | error e => simp [hdata, Except.map] at hanswer
      | ok bytes =>
        simp only [hdata, Except.map, Except.ok.injEq] at hanswer
        refine ⟨lease.file, bytes, g.resolves, hanswer.symm, ?_⟩
        split
        · rename_i hc
          rw [if_pos hc] at hdata
          unfold readBytes at hdata ⊢
          rwa [hfind request.path lease.file g.resolves]
        · rename_i hc
          rw [if_neg hc] at hdata
          exact (Except.ok.inj hdata).symm

theorem Store.not_stale_of_acquire_error {path : String} {e : Fault}
    (ha : s.acquire path v = (.error e, w)) (why : Staleness) :
    e ≠ .stale why := by
  rintro rfl
  rcases category_of_acquire_error ha with h | h <;> cases h

/-- A request can fail, but it is never stale. -/
theorem Store.serveChunk_not_stale (s : Store) (chunkSize : UInt32) (request : ChunkRequest)
    (v : Volume) (why : Staleness) :
    (s.serveChunk chunkSize request v).1 ≠ .error (.stale why) := by
  unfold serveChunk
  dsimp only
  intro h
  rcases Store.withTracked_cases s request.path _ v with ⟨e, hr, hw⟩ | hw | ⟨e, w, ha, hw⟩ |
    ⟨lease, w, σ, answer, r, w₂, -, g, hb, hw⟩ <;> rw [hw] at h
  · obtain ⟨why, rfl⟩ := resolve_error hr
    cases h
  · cases h
  · cases h
    exact not_stale_of_acquire_error ha _ rfl
  · simp only [Prod.mk.injEq] at hb
    obtain ⟨rfl, -⟩ := hb
    cases hdata : (if request.client = lease.record.client then
        readBytes w lease.file request.offset (min request.size chunkSize) else .ok []) with
    | error e =>
      simp only [hdata, Except.map] at h
      split at hdata
      · obtain ⟨cause, rfl⟩ := readBytes_error hdata
        cases h
      · cases hdata
    | ok bytes => simp [hdata, Except.map] at h

end Chunks

end TreeReplica
