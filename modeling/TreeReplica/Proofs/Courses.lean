import TreeReplica.Proofs.History
import TreeReplica.Proofs.Mishaps

/-! What messages do to the transfers of a session and to all staging files, in both directions: no file goes,
    and none comes, but with a transfer (`Course`). -/

namespace TreeReplica
open Volume

/-! ### Staging files -/

/-- At the places of staging files the same files stand, but for the places in `Q`. -/
structure Volume.Restaged (Q : Location → Prop) (v w : Volume) : Prop where
  next : v.nextId ≤ w.nextId
  same : ∀ l id content, StagingPlace l → ¬Q l →
    (w.lookup l = some (.file id content) ↔ v.lookup l = some (.file id content))

section Restaged
variable {P Q : Location → Prop} {s : Store} {u v w : Volume} {path : String} {σ : Site} {fresh : Bool}
  {r r' : Record} {l p : Location}

theorem Volume.Restaged.refl (Q : Location → Prop) (v : Volume) : Restaged Q v v :=
  ⟨Nat.le_refl _, fun _ _ _ _ _ => Iff.rfl⟩

theorem Volume.Restaged.trans (h₁ : Restaged Q u v) (h₂ : Restaged Q v w) : Restaged Q u w :=
  ⟨Nat.le_trans h₁.next h₂.next,
    fun l id content hp hq => (h₂.same l id content hp hq).trans (h₁.same l id content hp hq)⟩

theorem Volume.Restaged.mono (h : Restaged P v w) (hPQ : ∀ l, P l → Q l) : Restaged Q v w :=
  ⟨h.next, fun l id content hp hq => h.same l id content hp fun hl => hq (hPQ l hl)⟩

theorem Volume.Restaged.spares (h : Restaged Q v w) : Spares Q v w :=
  ⟨h.next, fun l id content hp hq => (h.same l id content hp hq).mpr⟩

theorem Volume.Restaged.read? (h : Restaged Q v w) {handle : Handle} (hp : StagingPlace handle.location)
    (hq : ¬Q handle.location) : w.read? handle = v.read? handle := by
  refine Option.ext fun content => ?_
  rw [read?_eq_some, read?_eq_some, h.same _ _ _ hp hq]

/-- A place where no file stood, and where none stands afterwards, is no exception. -/
theorem Volume.Restaged.shrink (h : Restaged (fun l => Q l ∨ l = p) v w) (hv : v.Cleared p)
    (hw : w.Cleared p) : Restaged Q v w :=
  ⟨h.next, fun l id content hp hq => by
    by_cases hl : l = p
    · subst hl
      exact ⟨fun he => absurd he (hw id content), fun he => absurd he (hv id content)⟩
    · exact h.same l id content hp fun h => h.elim hq hl⟩

theorem Volume.Kept.restaged (h : Kept P v w) (hP : ∀ l, StagingPlace l → P l → Q l) : Restaged Q v w :=
  ⟨h.next, fun l _ _ hp hq => ⟨h.file_back fun hl => hq (hP l hp hl), h.file fun hl => hq (hP l hp hl)⟩⟩

theorem Leased.restaged (h : Leased s path P v w σ fresh r r')
    (hP : ∀ l, StagingPlace l → P l → Q l) : Restaged Q v w :=
  h.kept.restaged fun l hp hl => hl.elim (hP l hp) fun he => absurd (he ▸ hp) σ.record_not_staging

theorem acquire_error_restaged {e : Fault} (ha : s.acquire path v = (.error e, w)) : Restaged Q v w :=
  (Store.acquire_error_kept ha).restaged fun _ hp ⟨σ, hl, _⟩ => absurd (hl ▸ hp) σ.record_not_staging

theorem report_restaged (e : LocalEdit) (s : Store) (path : String) (v : Volume) :
    Restaged Q v (e.report s path v).2 := by
  rcases e.report_cases s path v with ⟨err, w, ha, hw⟩ | ⟨σ, fresh, r, w, file, -, hl, hw⟩ <;> rw [hw]
  · exact acquire_error_restaged ha
  · exact hl.restaged fun _ _ => False.elim

theorem discard_restaged (v : Volume) (h : Handle) : Restaged (· = h.location) v (v.discard h) :=
  (discard_kept v h).restaged fun _ _ => id

/-- What is done under a lease restages what the whole operation restages. -/
theorem Granted.restaged {lease : Lease} {w₂ : Volume} (g : Granted s path v lease w σ)
    (hk : Kept P w w₂) (hP : ¬P σ.record) (h : Restaged Q w w₂) (r : Record) :
    Restaged Q v (Lease.release { lease with record := r } w₂) := by
  have began : Restaged Q (v.lock lease.handle) w :=
    g.kept.restaged fun l hp hl => absurd (hl ▸ hp) σ.record_not_staging
  have done := began.trans h
  refine ⟨Nat.le_trans done.next (Store.release_next _ _), fun l id content hp hq => ?_⟩
  have hne : l ≠ σ.record := fun he => σ.record_not_staging (he ▸ hp)
  rw [(g.release hk hP r).2.2 l hne]
  exact done.same l id content hp hq

end Restaged

/-! ### Beginning a transfer -/

/-- An operation made the staging file of one transfer, or none. -/
structure Transfer.Stages (t? : Option Transfer) (v w : Volume) : Prop where
  restaged : Restaged (fun l => ∃ t, t? = some t ∧ l = t.staging.location) v w
  bounded : ∀ t, t? = some t → t.size.toNat ≤ maxSize

section Stages
variable {s : Store} {chunkSize : UInt32} {notice : NewVersion} {v w : Volume} {lease : Lease} {σ : Site}

theorem Transfer.stages_none (h : Restaged (fun _ => False) v w) : Stages none v w :=
  ⟨h.mono fun _ => False.elim, fun _ h => by cases h⟩

/-- A transfer that cannot begin leaves no staging file. -/
theorem Transfer.begin_stages (s : Store) (notice : NewVersion) (p : Pull) (v : Volume) :
    Stages (begin s notice p v).1.toOption v (begin s notice p v).2 := by
  unfold begin
  split
  · exact stages_none (.refl _ v)
  rename_i file hr
  have made : Restaged (fun _ => False) v (v.createDirectories (Path.parent file)).2 :=
    (createDirectories_kept (fun _ => False) v (Path.parent file)).restaged fun _ _ => id
  split
  · rename_i e v₁ hc
    rw [hc] at made
    exact stages_none made
  rename_i v₁ hc
  rw [hc] at made
  dsimp only at made ⊢
  split
  · rename_i e v₂ hs
    rw [createStaging_error hs]
    exact stages_none made
  rename_i h v₂ hs
  obtain ⟨hp, hfree, -, rfl⟩ := createStaging_ok hs
  have hne : h.location ≠ [] := fun he => by simp [he] at hfree
  have created : Restaged (· = h.location) v (v₁.create h.location).2 :=
    (made.mono fun _ => False.elim).trans ((Kept.create hne (by rw [hfree]; simp)).restaged fun _ _ => id)
  unfold Volume.resize
  split
  · rename_i e v₃ hz
    split at hz <;> cases hz
    have gone := (created.trans (discard_restaged _ h)).mono (Q := fun l => False ∨ l = h.location) fun _ => Or.inr
    exact stages_none (gone.shrink (fun id content he => by
      have := (made.same _ id content hp (fun h => h)).mpr he
      rw [hfree] at this
      cases this) (cleared_discard _ h))
  · rename_i v₃ hz
    split at hz <;> cases hz
    rename_i hle
    refine ⟨(created.trans ((modify_kept _).restaged fun _ _ => id)).mono fun l hl => ⟨_, rfl, hl⟩, fun t ht => ?_⟩
    cases ht
    exact Nat.not_lt.mp hle

/-- The transfer that was begun under a lease, if one was. -/
def begunOf : Except Fault (List Message × Option Transfer) → Option Transfer
  | .ok (_, t?) => t?
  | .error _ => none

theorem Granted.pull_stages (g : Granted s notice.path v lease w σ) (chunkSize : UInt32) (p : Pull) (r : Record) :
    Transfer.Stages (begunOf (s.pull chunkSize notice p lease.file r w).1) w
      (s.pull chunkSize notice p lease.file r w).2.2 := by
  have stages := Transfer.begin_stages s notice p w
  unfold Store.pull
  obtain ⟨w₁, hk, ⟨e, hb, -⟩ | ⟨t, hb, began, -⟩⟩ := Transfer.begin_cases s notice p w
  · rw [hb] at stages ⊢
    exact stages
  rw [hb] at stages ⊢
  dsimp only
  split
  · -- Content of no bytes is put in place at once, and what was staged is gone.
    have staged : Restaged (fun l => False ∨ l = t.staging.location) w w₁ :=
      stages.restaged.mono fun l ⟨t', ht, hl⟩ => by
        cases ht
        exact Or.inr hl
    have shrunk : ∀ {w₂}, Restaged (fun l => False ∨ l = t.staging.location) w₁ w₂ →
        w₂.Cleared t.staging.location → Transfer.Stages none w w₂ := fun h hc =>
      Transfer.stages_none ((staged.trans h).shrink (cleared_of_lookup began.unused.2) hc)
    obtain ⟨w₂, hc, ⟨e, hf, hk₂⟩ | ⟨r', replies, content, hf, -, -, hk₂, -⟩⟩ :=
      (g.leads.kept hk).finishedAmid (t := t) g.resolves began.unused.1 none r <;>
      rw [Transfer.finishAmid_none] at hf <;> rw [hf]
    · exact shrunk (hk₂.restaged fun _ _ => Or.inr) hc
    · exact shrunk (hk₂.restaged fun l hp hl => hl.elim Or.inr fun hf =>
        absurd (hf ▸ hp) g.leads.file_not_staging) hc
  · obtain ⟨outstanding, hreq⟩ := t.requests_snd chunkSize
    refine ⟨stages.restaged.mono fun l ⟨t', ht, hl⟩ => ⟨_, rfl, ?_⟩, fun t' ht => ?_⟩ <;> cases ht <;> rw [hreq]
    · exact hl
    · exact stages.bounded t rfl

end Stages

/-! ### Courses -/

/-- Nothing is asked for. -/
def Unasking (answer : Except Fault Answer) : Prop :=
  ∀ a, answer = .ok a → ∀ request, .requestChunk request ∉ a.replies

/-- A failure, or a refusal that tells the peer of one. -/
def Refusing (answer : Except Fault Answer) : Prop := ∀ a, answer = .ok a → ∃ nack, a = .reply (.nack nack)

/-- What a message does to the transfers of its session and to all staging files, and what is asked for then. -/
inductive Course (chunkSize : UInt32) (m : Message) (ts : Transfers) (v : Volume)
    (answer : Except Fault Answer) (ts' : Transfers) (w : Volume) : Prop
  | same (unchanged : ts' = ts) (restaged : Restaged (fun _ => False) v w) (silent : Unasking answer)
    (refused : ∀ chunk, m = .fileChunk chunk → chunk.data ≠ [] → Refusing answer)
  | gone {path : String} {t : Transfer} (hm : m.path? = some path) (ht : ts.get? path = some t)
    (differs : ts.Differs ts' path none) (restaged : Restaged (· = t.staging.location) v w)
    (cleared : w.Cleared t.staging.location) (silent : Unasking answer)
  | begun {notice : NewVersion} {p : Pull} {t : Transfer} (hm : m = .newVersion notice)
    (pulls : p = .catchUp notice.base ∨ p = .peerEdit notice.base) (began : Transfer.Begun notice p v w t)
    (empty : t.outstanding = .empty) (size : notice.size ≠ 0) (bounded : notice.size.toNat ≤ maxSize)
    (differs : ts.Differs ts' notice.path (some (t.requests chunkSize).2))
    (restaged : Restaged (fun l => l = t.staging.location ∨
      ∃ old, ts.get? notice.path = some old ∧ l = old.staging.location) v w)
    (cleared : ∀ old, ts.get? notice.path = some old → w.Cleared old.staging.location)
    (asks : answer = .ok (.all ((t.requests chunkSize).1.map .requestChunk)))
  | fed {chunk : FileChunk} {t : Transfer} (hm : m = .fileChunk chunk) (ht : ts.get? chunk.path = some t)
    (hd : chunk.data ≠ []) (hf : t.fault? chunk = none) (incomplete : (t.note chunk).2.complete = false)
    (differs : ts.Differs ts' chunk.path (some (t.note chunk).2))
    (hw : w = v.modify t.staging (·.write chunk.offset.toNat chunk.data))
    (asks : answer = .ok (.all ((t.note chunk).1.toList.map .requestChunk)))

section Course
variable {s : Store} {ts ts' : Transfers} {v w : Volume} {chunkSize : UInt32} {m : Message}
  {answer : Except Fault Answer}

theorem unasking_error (e : Fault) : Unasking (.error e) := fun _ h => by cases h

theorem refusing_error (e : Fault) : Refusing (.error e) := fun _ h => by cases h

theorem unasking_settle {t : Transfer} {r r' : Record} {replies : List Message}
    (h : t.settle r = .ok (r', replies)) :
    Unasking (.ok (.all replies)) := by
  rintro a ha request hm
  cases ha
  rcases settle_cases h with ⟨-, -, -, rfl⟩ | ⟨_, -, -, -, -, rfl⟩
  · cases List.mem_singleton.mp hm
  · cases hm

/-- A message that leaves the transfers alone. -/
theorem Course.untouched (hf : ∀ chunk, m ≠ .fileChunk chunk) (restaged : Restaged (fun _ => False) v w)
    (silent : Unasking answer) : Course chunkSize m ts v answer ts w :=
  .same rfl restaged silent fun chunk hm => absurd hm (hf chunk)

theorem drop_course {path : String} (hm : m.path? = some path)
    (hf : ∀ chunk, m = .fileChunk chunk → chunk.data ≠ [] → Refusing answer)
    (silent : Unasking answer) {u : Volume}
    (hu : ∀ t, ts.get? path = some t → Restaged (· = t.staging.location) v u)
    (hn : ts.get? path = none → u = v) : Course chunkSize m ts v answer (ts.drop path u).1 (ts.drop path u).2 := by
  unfold Transfers.drop
  split
  · rename_i t ht
    exact .gone hm ht (differs_erase ts path) ((hu t ht).trans (discard_restaged u t.staging))
      (cleared_discard u t.staging) silent
  · rename_i ht
    rw [hn ht]
    exact .same rfl (.refl _ v) silent hf

/-- A new transfer takes the place of an earlier one of its path. -/
theorem add_course {notice : NewVersion} {p : Pull} {t : Transfer} (hts : ts.Held v)
    (pulls : p = .catchUp notice.base ∨ p = .peerEdit notice.base) (began : Transfer.Begun notice p v w t)
    (empty : t.outstanding = .empty) (size : notice.size ≠ 0) (bounded : notice.size.toNat ≤ maxSize)
    (restaged : Restaged (· = t.staging.location) v w) :
    Course chunkSize (.newVersion notice) ts v (.ok (.all ((t.requests chunkSize).1.map .requestChunk)))
      (ts.add (t.requests chunkSize).2 w).1 (ts.add (t.requests chunkSize).2 w).2 := by
  have hpath : (t.requests chunkSize).2.path = notice.path := (began.requests chunkSize).path
  unfold Transfers.add Transfers.drop
  rw [hpath]
  cases hold : ts.get? notice.path with
  | none =>
    refine .begun rfl pulls began empty size bounded (differs_insert ts notice.path _)
      (restaged.mono fun _ => Or.inl) (fun old h => ?_) rfl
    rw [hold] at h
    cases h
  | some old =>
    obtain ⟨-, -, content, hread⟩ := hts _ _ hold
    -- The earlier transfer has its file, so the new one did not get that place.
    have hne : t.staging.location ≠ old.staging.location := fun he => by
      have hfree := began.unused.2
      rw [he, read?_eq_some.mp hread] at hfree
      cases hfree
    refine .begun rfl pulls (began.later (discard_kept w old.staging) hne) empty size bounded
      ((differs_erase ts notice.path).trans (differs_insert _ notice.path _)) ?_ (fun old' h => ?_) rfl
    · exact (restaged.mono fun _ => Or.inl).trans
        ((discard_restaged w old.staging).mono fun l hl => Or.inr ⟨old, hold, hl⟩)
    · rw [hold] at h
      cases h
      exact cleared_discard w old.staging

theorem announced_course (hts : ts.Held v) (s : Store) (chunkSize : UInt32) (notice : NewVersion) :
    Course chunkSize (.newVersion notice) ts v ((s.announced chunkSize notice ts v).1.map .all)
      (s.announced chunkSize notice ts v).2.1 (s.announced chunkSize notice ts v).2.2 := by
  have other : ∀ chunk, Message.newVersion notice ≠ .fileChunk chunk := fun _ => Message.noConfusion
  unfold Store.announced
  dsimp only
  rcases Store.withLease_cases s notice.path _ v with ⟨e, w, ha, hw⟩ |
    ⟨lease, w, σ, answer, r, w₂, -, g, hb, hw⟩ <;>
    rw [hw]
  · exact .untouched other (acquire_error_restaged ha) (unasking_error e)
  have rests : ∀ {r}, Restaged (fun _ => False) v (Lease.release { lease with record := r } w) := fun {r} =>
    g.restaged (.refl (fun _ => False) w) id (.refl _ w) r
  split at hb
  · cases hb
    exact .untouched other rests (unasking_error _)
  · cases hb
    exact .untouched other rests (fun a ha request hm => by cases ha; cases hm)
  · cases hb
    exact .untouched other rests (fun a ha request hm => by cases ha; cases hm)
  rename_i p hplan
  have hnot : ¬w.Unused σ.record := fun h => σ.record_not_staging h.1
  have stages := g.pull_stages chunkSize p (lease.record.announced notice)
  rcases g.pulled chunkSize p (lease.record.announced notice) with ⟨e, w₁, hp, hk, -⟩ |
    ⟨t, w₁, hp, hk, ht, empty, hz⟩ |
    ⟨t, r', replies, w₁, content, hp, -, -, -, -, hs, hk, -, -⟩ <;> rw [hp] at hb stages <;> cases hb
  · exact .untouched other (g.restaged hk hnot (stages.restaged.mono fun _ ⟨_, h, _⟩ => by cases h) _)
      (unasking_error e)
  · obtain ⟨outstanding, hreq⟩ := t.requests_snd chunkSize
    have staged := stages.restaged.mono (Q := (· = t.staging.location)) fun l ⟨t', h, hl⟩ => by
      cases h
      rwa [hreq] at hl
    have bounded : notice.size.toNat ≤ maxSize := by
      have := stages.bounded _ rfl
      rwa [hreq, ht.size] at this
    exact add_course hts (Record.pull_of_plan hplan) (g.begun hk ht _) empty hz bounded
      (g.restaged hk hnot staged _)
  · have hrec : ¬(w.Unused σ.record ∨ σ.record = σ.file) := fun h => h.elim hnot g.leads.record_ne_file
    exact .untouched other (g.restaged hk hrec (stages.restaged.mono fun _ ⟨_, h, _⟩ => by cases h) _)
      (unasking_settle hs)

/-- However the install of a complete transfer ends, its staging file goes. -/
theorem installAmid_restaged (x : Option Mishap) (s : Store) (t : Transfer) (v : Volume)
    (hp : StagingPlace t.staging.location) :
    Restaged (· = t.staging.location) v (s.installAmid x t v).2 ∧
    (s.installAmid x t v).2.Cleared t.staging.location ∧
      Unasking ((s.installAmid x t v).1.map .all) := by
  rcases s.installAmid_cases x t v hp with ⟨e, w, ha, hw⟩ |
    ⟨σ, fresh, r, w, hc, ⟨e, hw, hl⟩ | ⟨r', replies, content, hw, hs, hl, -⟩⟩ <;>
    rw [hw]
  · exact ⟨(acquire_error_restaged ha).trans (discard_restaged w t.staging),
      cleared_discard w t.staging, unasking_error e⟩
  · exact ⟨hl.restaged fun _ _ => id, hc, unasking_error e⟩
  · refine ⟨hl.restaged fun l hp hl' => hl'.elim id fun he => ?_, hc, unasking_settle hs⟩
    exact absurd (he ▸ hp) hl.leads.file_not_staging

theorem receiveChunkAmid_course (hts : ts.Held v) (x : Option Mishap) (s : Store)
    (chunkSize : UInt32) (chunk : FileChunk) :
    Course chunkSize (.fileChunk chunk) ts v ((s.receiveChunkAmid x chunk ts v).1.map .all)
      (s.receiveChunkAmid x chunk ts v).2.1 (s.receiveChunkAmid x chunk ts v).2.2 := by
  rcases s.receiveChunkAmid_cases x chunk ts v with ⟨-, hw⟩ | ⟨t, ht, ⟨-, answer, w, hw, hk, told⟩ |
    ⟨hf, hd, -, ⟨hc, hw⟩ | ⟨-, answer, w, hi, hw⟩⟩⟩ <;> rw [hw]
  · exact .same rfl (.refl _ v) (unasking_error _) fun _ _ _ => refusing_error _
  · refine drop_course rfl (fun chunk' hm hd => ?_) (fun a ha request hm => ?_) (fun t' ht' => ?_) fun hn => ?_
    · cases hm
      cases answer with
      | error e => exact refusing_error e
      | ok replies => exact absurd (told replies rfl).2 hd
    · cases answer with
      | error e => cases ha
      | ok replies =>
        cases ha
        rw [(told replies rfl).1] at hm
        cases hm
    · cases ht.symm.trans ht'
      exact hk.restaged fun _ _ => id
    · rw [ht] at hn
      cases hn
  · exact .fed rfl ht hd hf hc (differs_insert ts chunk.path _) rfl rfl
  · have hp : StagingPlace (t.note chunk).2.staging.location := t.staging_note chunk ▸ (hts _ _ ht).2.1
    obtain ⟨restaged, cleared, silent⟩ :=
      installAmid_restaged x s (t.note chunk).2 (v.modify t.staging (·.write chunk.offset.toNat chunk.data)) hp
    rw [hi, Transfer.staging_note] at restaged cleared
    rw [hi] at silent
    exact .gone rfl ht (differs_erase ts chunk.path)
      (((modify_kept _).restaged fun _ _ => id).trans restaged) cleared silent

theorem handle_course {session : Session} (hts : session.transfers.Held v) (u : Setup) (m : Message) :
    Course u.config.chunkSize m session.transfers v (session.handle u m v).1 (session.handle u m v).2.1.transfers
      (session.handle u m v).2.2 := by
  cases m with
  | newVersion notice => exact announced_course hts u.store u.config.chunkSize notice
  | fileChunk chunk =>
    have course := receiveChunkAmid_course hts none u.store u.config.chunkSize chunk
    rw [Store.receiveChunkAmid_none] at course
    exact course
  | nack nack =>
    refine drop_course rfl (fun _ hm => by cases hm) (fun a ha request hm => ?_) (fun _ _ => .refl _ v) fun _ => rfl
    cases ha
    cases hm
  | requestChunk request =>
    show Course _ _ _ _ ((u.store.serveChunk u.config.chunkSize request v).1.map .reply) _
      (u.store.serveChunk u.config.chunkSize request v).2
    rcases u.store.serveChunk_cases u.config.chunkSize request v with ⟨e, hw⟩ | ⟨e, w, ha, hw⟩ |
      ⟨σ, fresh, r, w, answer, hw, hl, served⟩ <;> rw [hw]
    · exact .untouched (fun _ h => by cases h) (.refl _ v) (unasking_error e)
    · exact .untouched (fun _ h => by cases h) (acquire_error_restaged ha) (unasking_error e)
    · refine .untouched (fun _ h => by cases h) (hl.restaged fun _ _ => False.elim) fun a ha request' hm => ?_
      cases answer with
      | error e => cases ha
      | ok reply =>
        obtain ⟨file, bytes, -, rfl, -⟩ := served reply rfl
        cases ha
        cases List.mem_singleton.mp hm
  | commit path c =>
    show Course _ _ _ _ ((u.store.committed path c v).1.map fun _ => .silent) _ (u.store.committed path c v).2
    rcases u.store.committed_cases path c v with ⟨e, w, ha, hw⟩ |
      ⟨σ, fresh, r, w, ⟨why, -, hl, hw⟩ | ⟨r', -, hl, hw⟩⟩ <;> rw [hw]
    · exact .untouched (fun _ h => by cases h) (acquire_error_restaged ha) (unasking_error e)
    · exact .untouched (fun _ h => by cases h) (hl.restaged fun _ _ => False.elim) (unasking_error _)
    · exact .untouched (fun _ h => by cases h) (hl.restaged fun _ _ => False.elim)
        fun a ha request hm => by cases ha; cases hm
  | subscribe path =>
    show Course _ _ _ _ (Session.subscribe u path session).1 (Session.subscribe u path session).2.transfers v
    refine .same (session.transfers_subscribe u path) (.refl _ v) (fun a ha request hm => ?_) fun _ h => by cases h
    rw [Moment.silent_of_subscribe ha] at hm
    cases hm
  | hello version =>
    refine .untouched (fun _ h => by cases h) (.refl _ v) fun a ha request hm => ?_
    cases ha
    unfold Session.hello at hm
    split at hm <;> cases List.mem_singleton.mp hm
  | _ =>
    refine .untouched (fun _ h => by cases h) (.refl _ v) fun a ha request hm => ?_
    cases ha
    simp [Answer.reply, Answer.silent] at hm

/-- A failure that the peer is told of is still none of the answers that a transfer that goes on gives. -/
theorem Course.told {e : Fault} (h : Course chunkSize m ts v (.error e) ts' w) (hr : Refusing answer) :
    Course chunkSize m ts v answer ts' w := by
  have silent : Unasking answer := fun a ha request hm => by
    obtain ⟨nack, rfl⟩ := hr a ha
    cases List.mem_singleton.mp hm
  cases h with
  | same unchanged restaged _ _ => exact .same unchanged restaged silent fun _ _ _ => hr
  | gone hm ht differs restaged cleared _ => exact .gone hm ht differs restaged cleared silent
  | begun _ _ _ _ _ _ _ _ _ asks => cases asks
  | fed _ _ _ _ _ _ _ asks => cases asks

theorem answer_course {session : Session} (hts : session.transfers.Held v) (u : Setup) (m : Message) :
    Course u.config.chunkSize m session.transfers v (session.answer u m v).1 (session.answer u m v).2.1.transfers
      (session.answer u m v).2.2 := by
  have handled := handle_course hts u m
  have refuses : ∀ nack : Nack, Refusing (.ok (.reply (.nack nack))) :=
    fun nack a ha => by cases ha; exact ⟨nack, rfl⟩
  rcases session.answer_cases u m v with ⟨-, nack, -, h⟩ |
    ⟨-, a, s', w, hh, ⟨answer, rfl, h⟩ | ⟨e, answer, rfl, h, told⟩⟩ <;> rw [h]
  · refine .same rfl (.refl _ v) (fun a ha request hm => ?_) fun _ _ _ => refuses nack
    cases ha
    cases List.mem_singleton.mp hm
  · rw [hh] at handled
    exact handled
  · rw [hh] at handled
    refine handled.told ?_
    rcases told with ⟨-, rfl⟩ | ⟨-, nack, -, rfl⟩
    · exact refusing_error e
    · exact refuses nack

end Course

end TreeReplica
