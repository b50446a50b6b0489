import TreeReplica.Proofs.Node
import TreeReplica.Proofs.Record
import TreeReplica.Proofs.Replication
import TreeReplica.Proofs.Transfer.Gathering

/-! What messages do to the transfers of a session, and to the files of all the others. A message ends a transfer,
    begins one with a new file, or feeds one (`Turn`). So no transfer ever touches what another one has staged,
    of the same session or of a different one (`Node.Orderly`). -/

namespace TreeReplica
open Volume

/-! ### Staged content -/

/-- Staged content stays, but for the places in `Q`. -/
structure Volume.Spares (Q : Location → Prop) (v w : Volume) : Prop where
  next : v.nextId ≤ w.nextId
  file : ∀ l id content, StagingPlace l → ¬Q l → v.lookup l = some (.file id content) →
    w.lookup l = some (.file id content)

section Spares
variable {P Q : Location → Prop} {s : Store} {u v w : Volume} {path : String} {σ : Site} {fresh : Bool}
  {r r' : Record}

theorem Volume.Spares.refl (Q : Location → Prop) (v : Volume) : Spares Q v v :=
  ⟨Nat.le_refl _, fun _ _ _ _ _ hv => hv⟩

theorem Volume.Spares.trans (h₁ : Spares Q u v) (h₂ : Spares Q v w) : Spares Q u w :=
  ⟨Nat.le_trans h₁.next h₂.next,
    fun l id content hp hq hu => h₂.file l id content hp hq (h₁.file l id content hp hq hu)⟩

theorem Volume.Spares.mono (h : Spares P v w) (hPQ : ∀ l, P l → Q l) : Spares Q v w :=
  ⟨h.next, fun l id content hp hq => h.file l id content hp fun hl => hq (hPQ l hl)⟩

theorem Volume.Spares.read? (h : Spares Q v w) {handle : Handle} (hp : StagingPlace handle.location)
    (hq : ¬Q handle.location) {content : Content} (hr : v.read? handle = some content) :
    w.read? handle = some content :=
  read?_eq_some.mpr (h.file _ _ _ hp hq (read?_eq_some.mp hr))

theorem Volume.Kept.spares (h : Kept P v w) (hP : ∀ l, StagingPlace l → P l → v.lookup l = none ∨ Q l) :
    Spares Q v w where
  next := h.next
  file l id content hp hq hv := by
    refine h.file (fun hl => ?_) hv
    rcases hP l hp hl with hn | hl
    · rw [hv] at hn
      cases hn
    · exact hq hl

theorem Leased.spares (h : Leased s path P v w σ fresh r r')
    (hP : ∀ l, StagingPlace l → P l → v.lookup l = none ∨ Q l) : Spares Q v w :=
  h.kept.spares fun l hp hl => by
    rcases hl with hl | rfl
    · exact hP l hp hl
    · exact absurd hp σ.record_not_staging

theorem acquire_error_spares {e : Fault} (ha : s.acquire path v = (.error e, w)) : Spares Q v w :=
  (Store.acquire_error_kept ha).spares fun _ hp ⟨σ, hl, _⟩ => absurd (hl ▸ hp) σ.record_not_staging

theorem report_spares (e : LocalEdit) (s : Store) (path : String) (v : Volume) :
    Spares Q v (e.report s path v).2 := by
  rcases e.report_cases s path v with ⟨err, w, ha, hw⟩ | ⟨σ, fresh, r, w, file, -, hl, hw⟩ <;> rw [hw]
  · exact acquire_error_spares ha
  · exact hl.spares fun _ _ => False.elim

end Spares

/-- The staging file of a transfer stands where it was made. -/
def Transfer.Stands (t : Transfer) (v : Volume) : Prop :=
  StagingPlace t.staging.location ∧ ∃ content, v.read? t.staging = some content

theorem Transfer.Stands.spared {t : Transfer} {Q : Location → Prop} {v w : Volume} (h : t.Stands v)
    (spares : Spares Q v w) (hq : ¬Q t.staging.location) : t.Stands w := by
  obtain ⟨hp, content, hread⟩ := h
  exact ⟨hp, content, spares.read? hp hq hread⟩

/-- Every transfer is known by its path and has its staging file. -/
def Transfers.Held (ts : Transfers) (v : Volume) : Prop :=
  ∀ path t, ts.get? path = some t → t.path = path ∧ t.Stands v

theorem Transfers.Held.staged {ts : Transfers} {v : Volume} (h : ts.Held v) (hd : ts.Distinct) :
    ts.Staged := fun t ht => by
  obtain ⟨path, ht⟩ := hd.get?_of_mem_values ht
  exact (h path t ht).2.1

/-! ### Turns -/

/-- One table of transfers is another one, but for what it has for one path. -/
structure Transfers.Differs (ts ts' : Transfers) (path : String) (t : Option Transfer) : Prop where
  get : ∀ q, ts'.get? q = if path = q then t else ts.get? q
  distinct : ts.Distinct → ts'.Distinct

theorem differs_erase (ts : Transfers) (path : String) : ts.Differs (Table.erase ts path) path none :=
  ⟨fun q => Table.get?_erase ts path q, fun h => Table.Distinct.erase h path⟩

theorem differs_insert (ts : Transfers) (path : String) (t : Transfer) :
    ts.Differs (Table.insert ts path t) path (some t) :=
  ⟨fun q => Table.get?_insert ts path q t, fun h => Table.Distinct.insert h path t⟩

theorem Transfers.Differs.trans {ts₁ ts₂ ts₃ : Transfers} {path : String} {a b : Option Transfer}
    (h₁ : ts₁.Differs ts₂ path a) (h₂ : ts₂.Differs ts₃ path b) : ts₁.Differs ts₃ path b where
  get q := by
    rw [h₂.get, h₁.get]
    split <;> rfl
  distinct h := h₂.distinct (h₁.distinct h)

/-- What a message does to the transfers of its session. -/
inductive Turn (m : Message) (ts : Transfers) (v : Volume) (ts' : Transfers) (w : Volume) : Prop
  | same (unchanged : ts' = ts) (spares : Spares (fun _ => False) v w)
  | gone {path : String} {t : Transfer} (ht : ts.get? path = some t)
    (differs : ts.Differs ts' path none) (spares : Spares (· = t.staging.location) v w)
  | begun {notice : NewVersion} {p : Pull} {t : Transfer} (hm : m = .newVersion notice)
    (pulls : p = .catchUp notice.base ∨ p = .peerEdit notice.base) (began : Transfer.Begun notice p v w t)
    (differs : ts.Differs ts' notice.path (some t))
    (spares : Spares (fun l => ∃ old, ts.get? notice.path = some old ∧ l = old.staging.location) v w)
  | fed {chunk : FileChunk} {t : Transfer} (hm : m = .fileChunk chunk) (ht : ts.get? chunk.path = some t)
    (hd : chunk.data ≠ []) (hf : t.fault? chunk = none)
    (differs : ts.Differs ts' chunk.path (some (t.note chunk).2))
    (hw : w = v.modify t.staging (·.write chunk.offset.toNat chunk.data))

section Turn
variable {s : Store} {ts : Transfers} {v : Volume} {path : String} {chunkSize : UInt32} {m : Message}

theorem drop_turn (ts : Transfers) (path : String) (v : Volume) (m : Message) :
    Turn m ts v (ts.drop path v).1 (ts.drop path v).2 := by
  unfold Transfers.drop
  split
  · rename_i t ht
    exact .gone ht (differs_erase ts path) ((discard_kept v t.staging).spares fun _ _ hl => Or.inr hl)
  · exact .same rfl (.refl _ v)

theorem announced_turn (hts : ts.Held v) (s : Store) (chunkSize : UInt32) (notice : NewVersion) :
    Turn (.newVersion notice) ts v (s.announced chunkSize notice ts v).2.1
      (s.announced chunkSize notice ts v).2.2 := by
  rcases s.announced_cases chunkSize notice ts v with ⟨e, w, ha, hw⟩ | ⟨σ, fresh, r, w, ⟨answer, hw, -, hl⟩ |
    ⟨p, t, hplan, -, hw, hl, ht, -⟩ | ⟨p, t, r', replies, file, content, -, -, hw, -, -, -, hs, hl, -⟩⟩
  · rw [hw]
    exact .same rfl (acquire_error_spares ha)
  · rw [hw]
    exact .same rfl (hl.spares fun _ _ hu => Or.inl hu.2)
  · rw [hw]
    have hb := ht.requests chunkSize
    have hspares : Spares (fun _ => False) v w := hl.spares fun _ _ hu => Or.inl hu.2
    have hpath : (t.requests chunkSize).2.path = notice.path := hb.path
    unfold Transfers.add Transfers.drop
    rw [hpath]
    cases hold : ts.get? notice.path with
    | none =>
      exact .begun rfl (Record.pull_of_plan hplan) hb (differs_insert ts notice.path _)
        (hspares.mono fun _ => False.elim)
    | some old =>
      obtain ⟨-, -, content, hread⟩ := hts _ _ hold
      -- The earlier transfer has its file, so the new one did not get that place.
      have hne : (t.requests chunkSize).2.staging.location ≠ old.staging.location := fun he => by
        have hfree := hb.unused.2
        rw [he, read?_eq_some.mp hread] at hfree
        cases hfree
      refine .begun rfl (Record.pull_of_plan hplan) (hb.later (discard_kept w old.staging) hne)
        ((differs_erase ts notice.path).trans (differs_insert _ notice.path _)) ?_
      exact (hspares.mono fun _ => False.elim).trans
        ((discard_kept w old.staging).spares fun _ _ hl => Or.inr ⟨old, hold, hl⟩)
  · rw [hw]
    refine .same rfl (hl.spares fun l hp hu => ?_)
    rcases hu with hu | rfl
    · exact Or.inl hu.2
    · exact absurd hp hl.leads.file_not_staging

theorem receiveChunk_turn (hts : ts.Held v) (s : Store) (chunk : FileChunk) :
    Turn (.fileChunk chunk) ts v (s.receiveChunk chunk ts v).2.1 (s.receiveChunk chunk ts v).2.2 := by
  rcases s.receiveChunk_cases chunk ts v with ⟨-, hw⟩ | ⟨t, ht, ⟨-, answer, hw, -⟩ |
    ⟨hf, hd, ⟨-, hw⟩ | ⟨-, answer, w, hi, hw⟩⟩⟩
  · rw [hw]
    exact .same rfl (.refl _ v)
  · rw [hw]
    exact drop_turn ts chunk.path v _
  · rw [hw]
    exact .fed rfl ht hd hf (differs_insert ts chunk.path _) rfl
  · rw [hw]
    obtain ⟨-, hp, -⟩ := hts _ _ ht
    have hstaging := t.staging_note chunk
    have hfed : Spares (· = t.staging.location) v (v.modify t.staging (·.write chunk.offset.toNat chunk.data)) :=
      (modify_kept _).spares fun _ _ hl => Or.inr hl
    have hinstall : Spares (· = t.staging.location)
        (v.modify t.staging (·.write chunk.offset.toNat chunk.data)) w := by
      rcases s.install_cases (t.note chunk).2 (v.modify t.staging (·.write chunk.offset.toNat chunk.data))
        (hstaging ▸ hp) with ⟨e, w', ha, hw'⟩ |
        ⟨σ, fresh, r, w', ⟨e, hw', hl, -⟩ | ⟨r', replies, file, content, hw', -, hl, -⟩⟩
      · rw [hi] at hw'
        cases hw'
        exact (acquire_error_spares ha).trans
          ((discard_kept w' (t.note chunk).2.staging).spares fun _ _ hl => Or.inr (hstaging ▸ hl))
      · rw [hi] at hw'
        cases hw'
        exact hl.spares fun _ _ hl => Or.inr (hstaging ▸ hl)
      · rw [hi] at hw'
        cases hw'
        refine hl.spares fun l hp hu => ?_
        rcases hu with hu | rfl
        · exact Or.inr (hstaging ▸ hu)
        · exact absurd hp hl.leads.file_not_staging
    exact .gone ht (differs_erase ts chunk.path) (hfed.trans hinstall)

theorem handle_turn {session : Session} (hts : session.transfers.Held v) (u : Setup) (m : Message) :
    Turn m session.transfers v (session.handle u m v).2.1.transfers (session.handle u m v).2.2 := by
  cases m with
  | newVersion notice => exact announced_turn hts u.store u.config.chunkSize notice
  | fileChunk chunk => exact receiveChunk_turn hts u.store chunk
  | nack nack => exact drop_turn session.transfers nack.path v _
  | requestChunk request =>
    refine .same rfl ?_
    show Spares _ v (u.store.serveChunk u.config.chunkSize request v).2
    rcases u.store.serveChunk_cases u.config.chunkSize request v with ⟨e, hw⟩ | ⟨e, w, ha, hw⟩ |
      ⟨σ, fresh, r, w, answer, hw, hl, -⟩ <;> rw [hw]
    · exact .refl _ v
    · exact acquire_error_spares ha
    · exact hl.spares fun _ _ => False.elim
  | commit path c =>
    refine .same rfl ?_
    show Spares _ v (u.store.committed path c v).2
    rcases u.store.committed_cases path c v with ⟨e, w, ha, hw⟩ |
      ⟨σ, fresh, r, w, ⟨why, -, hl, hw⟩ | ⟨r', -, hl, hw⟩⟩ <;>
      rw [hw]
    · exact acquire_error_spares ha
    · exact hl.spares fun _ _ => False.elim
    · exact hl.spares fun _ _ => False.elim
  | subscribe path => exact .same (session.transfers_subscribe u path) (.refl _ v)
  | _ => exact .same rfl (.refl _ v)

theorem answer_turn {session : Session} (hts : session.transfers.Held v) (u : Setup) (m : Message) :
    Turn m session.transfers v (session.answer u m v).2.1.transfers (session.answer u m v).2.2 := by
  have handled := handle_turn hts u m
  rcases session.answer_cases u m v with ⟨-, nack, -, h⟩ |
    ⟨-, a, s', w, hh, ⟨answer, -, h⟩ | ⟨e, answer, -, h, -⟩⟩ <;> rw [h]
  · exact .same rfl (.refl _ v)
  · rw [hh] at handled
    exact handled
  · rw [hh] at handled
    exact handled

/-- A turn touches what one transfer has staged, and that transfer goes on, or another one begins. -/
theorem Turn.touches {ts' : Transfers} {w : Volume} (turn : Turn m ts v ts' w) (hts : ts.Held v) :
    ∃ key after, ts.Differs ts' key after ∧
      Spares (fun l => ∃ old, ts.get? key = some old ∧ l = old.staging.location) v w ∧
      ∀ t, after = some t → t.path = key ∧ t.Stands w ∧
        ((∃ old, ts.get? key = some old ∧ t.staging = old.staging) ∨ v.lookup t.staging.location = none) := by
  cases turn with
  | same unchanged spares =>
    subst unchanged
    refine ⟨"", ts'.get? "", ⟨fun q => ?_, id⟩, spares.mono fun _ => False.elim, fun t ht => ?_⟩
    · split
      · rename_i hq
        rw [hq]
      · rfl
    · obtain ⟨hpath, hstands⟩ := hts _ _ ht
      exact ⟨hpath, hstands.spared spares id, Or.inl ⟨t, ht, rfl⟩⟩
  | @gone path t ht differs spares =>
    exact ⟨path, none, differs, spares.mono fun l hl => ⟨t, ht, hl⟩, fun _ h => by cases h⟩
  | @begun notice p t hm pulls began differs spares =>
    refine ⟨notice.path, some t, differs, spares, fun t' ht' => ?_⟩
    cases ht'
    obtain ⟨content, hread, -⟩ := began.blank
    exact ⟨began.path, ⟨began.unused.1, content, hread⟩, Or.inr began.unused.2⟩
  | @fed chunk t hm ht hd hf differs hw =>
    obtain ⟨hpath, hp, content, hread⟩ := hts _ _ ht
    have hstaging := t.staging_note chunk
    refine ⟨chunk.path, some (t.note chunk).2, differs, ?_, fun t' ht' => ?_⟩
    · rw [hw]
      exact (modify_kept _).spares fun l _ hl => Or.inr ⟨t, ht, hl⟩
    · cases ht'
      refine ⟨(t.path_note chunk).trans hpath, ⟨hstaging ▸ hp, content.write chunk.offset.toNat chunk.data, ?_⟩,
        Or.inl ⟨t, ht, hstaging⟩⟩
      rw [hstaging, hw, read?_eq_some, lookup_modify, hread]
      exact if_pos rfl

end Turn

/-! ### Sessions side by side -/

namespace Node

/-- All transfers of all sessions have staging files, each its own. -/
structure Orderly (n : Node) (v : Volume) : Prop where
  held : ∀ name, (n.session name).transfers.Held v
  distinct : ∀ name, (n.session name).transfers.Distinct
  apart : ∀ {name name' path path' : String} {t t' : Transfer}, (n.session name).transfers.get? path = some t →
    (n.session name').transfers.get? path' = some t' → t.staging.location = t'.staging.location →
    name = name' ∧ path = path'

section Orderly
variable {n n' : Node} {v w : Volume} {m : Message} {ts' : Transfers}

theorem session_setSession (n : Node) (name name' : String) (s : Session) :
    (n.setSession name s).session name' = if name = name' then s else n.session name' := by
  unfold session setSession
  dsimp only
  rw [Table.get?_insert]
  split <;> rfl

theorem session_close (n : Node) (name name' : String) (v : Volume) :
    (n.close name v).1.session name' = if name = name' then .new else n.session name' := by
  unfold close session
  dsimp only
  rw [Table.get?_erase]
  split <;> rfl

theorem orderly_start (u : Setup) (v : Volume) : Orderly ⟨u, .empty⟩ v where
  held _ _ _ h := by cases h
  distinct _ := Table.distinct_empty
  apart h := by cases h

/-- A turn of one session leaves all sessions orderly. -/
theorem Orderly.turn (h : n.Orderly v) {name : String} (turn : Turn m (n.session name).transfers v ts' w)
    (hn : ∀ name', (n'.session name').transfers = if name = name' then ts' else (n.session name').transfers) :
    n'.Orderly w := by
  obtain ⟨key, after, differs, spares, hafter⟩ := turn.touches (h.held name)
  -- A transfer afterwards is the one that had the turn, or one from before that is not touched.
  have entry : ∀ {name' path : String} {t : Transfer}, (n'.session name').transfers.get? path = some t →
      (name' = name ∧ path = key ∧ after = some t) ∨
        ((n.session name').transfers.get? path = some t ∧ ¬(name' = name ∧ path = key)) := by
    intro name' path t ht
    rw [hn] at ht
    split at ht
    · rename_i hname
      rw [differs.get] at ht
      split at ht
      · rename_i hkey
        exact Or.inl ⟨hname.symm, hkey.symm, ht⟩
      · rename_i hkey
        exact Or.inr ⟨hname ▸ ht, fun hk => hkey hk.2.symm⟩
    · rename_i hname
      exact Or.inr ⟨ht, fun hk => hname hk.1.symm⟩
  have meets : ∀ {name' path : String} {t t' : Transfer}, after = some t →
      (n.session name').transfers.get? path = some t' → ¬(name' = name ∧ path = key) →
      t.staging.location ≠ t'.staging.location := by
    intro name' path t t' ht ht' hne he
    obtain ⟨-, -, ⟨old, hold, hs⟩ | hfree⟩ := hafter t ht
    · rw [hs] at he
      obtain ⟨hname, hkey⟩ := h.apart hold ht' he
      exact hne ⟨hname.symm, hkey.symm⟩
    · obtain ⟨-, -, content, hread⟩ := h.held name' path t' ht'
      rw [he, read?_eq_some.mp hread] at hfree
      cases hfree
  refine ⟨fun name' path t ht => ?_, fun name' => ?_,
    fun {name₁ name₂ path₁ path₂ t₁ t₂} h₁ h₂ he => ?_⟩
  · rcases entry ht with ⟨rfl, rfl, ha⟩ | ⟨ht, hne⟩
    · obtain ⟨hpath, hstands, -⟩ := hafter t ha
      exact ⟨hpath, hstands⟩
    · obtain ⟨hpath, hstands⟩ := h.held name' path t ht
      refine ⟨hpath, hstands.spared spares fun hq => ?_⟩
      obtain ⟨old, hold, hl⟩ := hq
      obtain ⟨hname, hkey⟩ := h.apart hold ht hl.symm
      exact hne ⟨hname.symm, hkey.symm⟩
  · rw [hn]
    split
    · exact differs.distinct (h.distinct name)
    · exact h.distinct name'
  · rcases entry h₁ with ⟨rfl, rfl, ha₁⟩ | ⟨h₁, hne₁⟩ <;>
      rcases entry h₂ with ⟨rfl, rfl, ha₂⟩ | ⟨h₂, hne₂⟩
    · exact ⟨rfl, rfl⟩
    · exact absurd he (meets ha₁ h₂ hne₂)
    · exact absurd he.symm (meets ha₂ h₁ hne₁)
    · exact h.apart h₁ h₂ he

/-- What is not of the sessions leaves them orderly, if it spares what they have staged. -/
theorem Orderly.spares (h : n.Orderly v) (spares : Spares (fun _ => False) v w) : n.Orderly w where
  held name path t ht := by
    obtain ⟨hpath, hstands⟩ := h.held name path t ht
    exact ⟨hpath, hstands.spared spares id⟩
  distinct := h.distinct
  apart := h.apart

theorem gathers_of_spares {Q : Location → Prop} {t : Transfer} {bytes : Bytes}
    (g : t.Gathers v bytes) (hs : t.Stands v) (spares : Spares Q v w) (hq : ¬Q t.staging.location) :
    t.Gathers w bytes := by
  obtain ⟨hp, content, hread⟩ := hs
  exact g.of_read? (by rw [spares.read? hp hq hread, hread])

/-- A transfer of the path goes on as `t'` when a message comes: what it has gathered stays, and a piece is
    added if the message brings one. -/
structure GoesOn (m : Message) (path : String) (v w : Volume) (t t' : Transfer) : Prop where
  staging : t'.staging = t.staging
  client : t'.client = t.client
  pull : t'.pull = t.pull
  gathers : ∀ bytes, t.Gathers v bytes →
    (∀ chunk, m = .fileChunk chunk → chunk.path = path → chunk.client = t.client → chunk.data ≠ [] →
      chunk.data <+: bytes.drop chunk.offset.toNat) → t'.Gathers w bytes

/-- A transfer after a turn has just begun, or it goes on. -/
theorem Orderly.follows (h : n.Orderly v) {name path : String} (turn : Turn m (n.session name).transfers v ts' w)
    {t' : Transfer} (ht : ts'.get? path = some t') :
    (∃ notice p, m = .newVersion notice ∧ notice.path = path ∧
      (p = .catchUp notice.base ∨ p = .peerEdit notice.base) ∧
        Transfer.Begun notice p v w t') ∨
      ∃ t, (n.session name).transfers.get? path = some t ∧ GoesOn m path v w t t' := by
  have same : ∀ {Q : Location → Prop}, (n.session name).transfers.get? path = some t' → Spares Q v w →
      ¬Q t'.staging.location → ∃ t, (n.session name).transfers.get? path = some t ∧ GoesOn m path v w t t' :=
    fun ht spares hq => ⟨t', ht, rfl, rfl, rfl,
      fun _ g _ => gathers_of_spares g (h.held name path t' ht).2 spares hq⟩
  cases turn with
  | same unchanged spares => exact Or.inr (same (unchanged ▸ ht) spares id)
  | @gone key old hold differs spares =>
    rw [differs.get] at ht
    split at ht
    · cases ht
    · rename_i hkey
      exact Or.inr (same ht spares fun he => hkey (h.apart ht hold he).2.symm)
  | @begun notice p t hm pulls began differs spares =>
    rw [differs.get] at ht
    split at ht
    · rename_i hkey
      cases ht
      exact Or.inl ⟨notice, p, hm, hkey, pulls, began⟩
    · rename_i hkey
      refine Or.inr (same ht spares fun hq => ?_)
      obtain ⟨old, hold, he⟩ := hq
      exact hkey (h.apart ht hold he).2.symm
  | @fed chunk t hm hold hd hf differs hw =>
    rw [differs.get] at ht
    split at ht
    · rename_i hkey
      cases ht
      subst hkey
      refine Or.inr ⟨t, hold, ⟨t.staging_note chunk, t.client_note chunk, t.pull_note chunk,
        fun bytes g hpiece => ?_⟩⟩
      rw [hw]
      exact g.note hf (hpiece chunk hm rfl (Transfer.client_of_fault? hf) hd)
    · rename_i hkey
      have spares : Spares (· = t.staging.location) v w := by
        rw [hw]
        exact (modify_kept _).spares fun _ _ => Or.inr
      exact Or.inr (same ht spares fun he => hkey (h.apart ht hold he).2.symm)

theorem close_spares (n : Node) (name : String) (v : Volume) :
    Spares (fun l => ∃ t ∈ (n.session name).transfers.values, l = t.staging.location) v (n.close name v).2 :=
  ((n.session name).transfers.abandonAll_kept v).spares fun _ _ => Or.inr

/-- A transfer that is there after a session has ended is of another session, and has its own staging file. -/
theorem Orderly.closed (h : n.Orderly v) {name name' path : String} {t : Transfer}
    (ht : ((n.close name v).1.session name').transfers.get? path = some t) :
    (n.session name').transfers.get? path = some t ∧
      ¬∃ t' ∈ (n.session name).transfers.values, t.staging.location = t'.staging.location := by
  rw [session_close] at ht
  split at ht
  · cases ht
  rename_i hne
  refine ⟨ht, fun hq => ?_⟩
  obtain ⟨t', ht', hl⟩ := hq
  obtain ⟨path', hpath'⟩ := (h.distinct name).get?_of_mem_values ht'
  exact hne (h.apart hpath' ht hl.symm).1

theorem Orderly.close (h : n.Orderly v) (name : String) : (n.close name v).1.Orderly (n.close name v).2 := by
  refine ⟨fun name' path t ht => ?_, fun name' => ?_,
    fun h₁ h₂ he => h.apart (h.closed h₁).1 (h.closed h₂).1 he⟩
  · obtain ⟨ht, hq⟩ := h.closed ht
    obtain ⟨hpath, hstands⟩ := h.held name' path t ht
    exact ⟨hpath, hstands.spared (n.close_spares name v) hq⟩
  · rw [session_close]
    split
    · exact Table.distinct_empty
    · exact h.distinct name'

theorem message_transfers (n : Node) (name : String) (m : Message) (v : Volume) (name' : String) :
    ((n.step (.message name m) v).1.session name').transfers =
      if name = name' then ((n.session name).answer n.setup m v).2.1.transfers
      else (n.session name').transfers := by
  show ((n.setSession name ((n.session name).answer n.setup m v).2.1).session name').transfers = _
  rw [session_setSession]
  split <;> rfl

theorem Orderly.event (h : n.Orderly v) (e : Event) : (n.step e v).1.Orderly (n.step e v).2 := by
  cases e with
  | edit edit path => exact h.spares (report_spares edit n.setup.store path v)
  | message name m => exact h.turn (answer_turn (h.held name) n.setup m) (n.message_transfers name m v)
  | close name => exact h.close name

theorem Orderly.use (h : n.Orderly v) (kept : Kept (fun l => ¬RecordPlace l ∧ ¬StagingPlace l) v w) : n.Orderly w :=
  h.spares (kept.spares fun _ hp hl => absurd hp hl.2)

theorem Orderly.evolves {allowed : Event → Prop} {m : Node} (h : n.Orderly v) (he : Evolves allowed n v m w) :
    m.Orderly w := by
  induction he with
  | rest => exact h
  | event e _ _ ih => exact ih.event e
  | use _ kept ih => exact ih.use kept

end Orderly

end Node

end TreeReplica
