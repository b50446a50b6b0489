import TreeReplica.Proofs.Courses
import TreeReplica.Proofs.Harmless
import TreeReplica.Proofs.Sample

/-! What a refused message leaves behind. A failure that the peer is only told of comes before anything was
    changed under the lease, or from content that is not wanted any more; an announcement that is to be
    followed fails with the disk or not at all (`Store.pull_error_fatal`). Main statement:
    `Session.refused_keeps`. -/

namespace TreeReplica
open Volume

/-! ### Transfers and locks -/

/-- Every transfer is known by its path, and stages its content in a staging file. -/
def Transfers.Proper (ts : Transfers) : Prop :=
  ∀ path t, ts.get? path = some t → t.path = path ∧ StagingPlace t.staging.location

/-- The staging file of a transfer that there was, of a path that has none any more. -/
def Transfers.Ended (ts ts' : Transfers) (path : String) (l : Location) : Prop :=
  ∃ t, ts.get? path = some t ∧ ts'.get? path = none ∧ l = t.staging.location

section Proper
variable {ts ts' : Transfers} {t : Transfer} {path : String} {l : Location} {v w : Volume}

theorem Transfers.Held.proper (h : ts.Held v) : ts.Proper := fun path t ht => ⟨(h path t ht).1, (h path t ht).2.1⟩

theorem Transfers.Ended.staging (proper : ts.Proper) (h : ts.Ended ts' path l) : StagingPlace l := by
  obtain ⟨t, ht, -, rfl⟩ := h
  exact (proper path t ht).2

theorem Transfers.ended_erase (ht : ts.get? path = some t) :
    ts.Ended (Table.erase ts path) path t.staging.location :=
  ⟨t, ht, (Table.get?_erase ts path path).trans (if_pos rfl), rfl⟩

theorem Volume.Kept.locks {P : Location → Prop} (h : Kept P v w) (locks : ∀ id ∈ v.locked, id < v.nextId) :
    ∀ id ∈ w.locked, id < w.nextId := fun id hid => Nat.lt_of_lt_of_le (locks id (h.locked ▸ hid)) h.next

/-- Along every run transfers are proper, and no file that is locked is yet to be made. -/
theorem Passes.proper_locked {n m : Node} {h : List Moment} (run : Passes n v h m w) (start : n.Orderly v)
    (locks : ∀ id ∈ v.locked, id < v.nextId) (name : String) :
    (m.session name).transfers.Proper ∧ ∀ id ∈ w.locked, id < w.nextId := by
  refine ⟨((run.orderly start).1.held name).proper, ?_⟩
  induction run with
  | rest => exact locks
  | event e run ih => exact (Moment.grows (x := ⟨_, e, _⟩) (run.orderly start).1).locks ih
  | use _ kept ih => exact kept.locks ih

end Proper

/-! ### Failures -/

section Failures
variable {s : Store} {chunkSize : UInt32} {notice : NewVersion} {t : Transfer} {r r' : Record} {file : String}
  {v w : Volume} {e : Fault}

/-- What is pulled because of an announcement is wanted as long as the record stays as the announcement left it. -/
theorem Record.settle_of_plan (h : r.plan notice = .pull t.pull) (why : Staleness) :
    t.settle (r.announced notice) ≠ .error why := by
  rcases r.observation_cases notice.base with ⟨-, ho⟩ |
    ⟨ht, ⟨-, ho⟩ | ⟨hb, ho⟩ | ⟨-, -, ho⟩ | ⟨hlt, -, ho⟩⟩ <;>
    simp only [Record.plan, Record.announced, Record.observe, ho] at h ⊢
  · cases h
  · cases h
  · split at h
    · cases h
    rename_i hclient
    split at h
    · cases h
    rename_i hpending
    simp [Transfer.settle, ← Plan.pull.inj h, hclient, hpending, hb, ht]
  · cases h
  · have hle : ¬notice.base ≤ r.base := UInt64.not_le.mpr hlt
    simp [Transfer.settle, ← Plan.pull.inj h, hle]

theorem Transfer.finish_error (h : t.finish file r v = (.error e, r', w)) :
    r' = r ∧ w = t.abandon v ∧ (e.fatal = true ∨ ∃ why, t.settle r = .error why) := by
  unfold finish at h
  split at h
  · rename_i why hs
    cases h
    exact ⟨rfl, rfl, Or.inr ⟨why, hs⟩⟩
  · rcases t.install_cases file v with ⟨u, -, hi⟩ | ⟨cause, hi⟩ <;> rw [hi] at h
    · cases h
    · cases h
      exact ⟨rfl, rfl, Or.inl rfl⟩

theorem Transfer.nack_not_mem_of_settle {replies : List Message} {nack : Nack}
    (h : t.settle r = .ok (r', replies)) :
    .nack nack ∉ replies := by
  intro hm
  rcases settle_cases h with ⟨-, -, -, rfl⟩ | ⟨_, -, -, -, -, rfl⟩
  · cases List.mem_singleton.mp hm
  · cases hm

theorem Transfer.begin_error {p : Pull} (hr : s.resolve notice.path = .ok file)
    (h : (begin s notice p v).1 = .error e) :
    e.fatal = true := by
  unfold begin at h
  rw [hr] at h
  dsimp only at h
  repeat' split at h
  all_goals cases h
  all_goals rfl

/-- An announcement that is to be followed fails with the disk, and then the connection ends, or not at all. -/
theorem Store.pull_error_fatal {p : Pull} (hr : s.resolve notice.path = .ok file) (hplan : r.plan notice = .pull p)
    (h : (s.pull chunkSize notice p file (r.announced notice) v).1 = .error e) : e.fatal = true := by
  unfold pull at h
  rcases hb : Transfer.begin s notice p v with ⟨e' | t, w⟩ <;> rw [hb] at h
  · cases h
    exact Transfer.begin_error hr (congrArg Prod.fst hb)
  obtain ⟨-, began, -⟩ := Transfer.begun_of_begin hb
  dsimp only at h
  split at h
  · rcases hf : t.finish file (r.announced notice) w with ⟨e' | replies, r', w'⟩ <;> rw [hf] at h
    · cases h
      obtain ⟨-, -, hfatal | ⟨why, hs⟩⟩ := Transfer.finish_error hf
      · exact hfatal
      · exact absurd hs (Record.settle_of_plan (began.pull ▸ hplan) why)
    · cases h
  · cases h

theorem Record.announced_of_refuse {why : Staleness} (h : r.plan notice = .refuse why) :
    r.announced notice = r := by
  rcases r.observation_cases notice.base with ⟨-, ho⟩ |
    ⟨-, ⟨-, ho⟩ | ⟨-, ho⟩ | ⟨-, -, ho⟩ | ⟨-, -, ho⟩⟩ <;>
    simp only [Record.plan, Record.announced, Record.observe, ho] at h ⊢
  · split at h
    · cases h
    · split at h <;> cases h
  · cases h
  · cases h

end Failures

/-! ### What is left -/

section Left
variable {s : Store} {path : String} {chunkSize : UInt32} {Q : Location → Prop} {v w : Volume} {lease : Lease}
  {e : Fault} {ts ts' : Transfers} {t : Transfer}

theorem Store.release_harmless (ha : s.acquire path v = (.ok lease, w)) :
    Harmless s path Q v (Lease.release { lease with record := lease.record } w) := by
  obtain ⟨σ, g⟩ := acquire_ok ha
  rw [release_eq, if_pos g.written]
  exact acquire_ok_harmless ha

/-- A failure under a lease whose record and whose tree are left as they were. -/
theorem Store.withLease_harmless {α : Type} {body : Store.Body α} (h : s.withLease path body v = (.error e, w))
    (hf : e.fatal = false) (locks : ∀ id ∈ v.locked, id < v.nextId)
    (hbody : ∀ {lease w r w'}, s.resolve path = .ok lease.file →
      body lease w = (.error e, r, w') → e.fatal = false →
      r = lease.record ∧ w' = w) : Harmless s path Q v w := by
  rcases s.withLease_cases path body v with ⟨e', w', ha, hw⟩ | ⟨lease, w', σ, answer, r, w₂, ha, g, hb, hw⟩
  · cases hw.symm.trans h
    exact acquire_error_harmless ha locks
  · cases hw.symm.trans h
    obtain ⟨rfl, rfl⟩ := hbody g.resolves hb hf
    exact release_harmless ha

theorem Store.committed_harmless {commit : Commit} (h : s.committed path commit v = (.error e, w))
    (hf : e.fatal = false) (locks : ∀ id ∈ v.locked, id < v.nextId) : Harmless s path Q v w := by
  refine withLease_harmless h hf locks fun _ hb _ => ?_
  split at hb <;> cases hb
  exact ⟨rfl, rfl⟩

theorem Store.serveChunk_harmless {request : ChunkRequest} (h : s.serveChunk chunkSize request v = (.error e, w))
    (locks : ∀ id ∈ v.locked, id < v.nextId) : Harmless s request.path Q v w := by
  unfold serveChunk at h
  dsimp only at h
  rcases s.withTracked_cases request.path _ v with ⟨e', -, hw⟩ | hw | ⟨e', w', ha, hw⟩ |
    ⟨lease, w', σ, answer, r, w₂, ha, -, hb, hw⟩ <;> rw [hw] at h
  · cases h
    exact .refl s request.path Q v
  · cases h
    exact .refl s request.path Q v
  · cases h
    exact acquire_error_harmless ha locks
  · cases hb
    have hleft : w = Lease.release { lease with record := lease.record } w' := by
      split at h <;> simp_all
    rw [hleft]
    exact release_harmless ha

theorem Store.announced_harmless {notice : NewVersion} (h : s.announced chunkSize notice ts v = (.error e, ts', w))
    (hf : e.fatal = false) (locks : ∀ id ∈ v.locked, id < v.nextId) : ts' = ts ∧ Harmless s notice.path Q v w := by
  unfold announced at h
  dsimp only at h
  split at h
  · rename_i e' w' hl
    cases h
    refine ⟨rfl, withLease_harmless hl hf locks fun {lease u r u'} hr hb _ => ?_⟩
    split at hb
    · rename_i why hplan
      cases hb
      exact ⟨Record.announced_of_refuse hplan, rfl⟩
    · cases hb
    · cases hb
    · rename_i p hplan
      have := pull_error_fatal hr hplan (congrArg Prod.fst hb)
      rw [hf] at this
      cases this
  · cases h
  · cases h

theorem discard_unlock (v : Volume) (st h : Handle) : (v.discard st).unlock h = (v.unlock h).discard st := by
  unfold Volume.discard
  rw [lookup_unlock]
  split <;> rfl

/-- A complete transfer that the record does not want any more goes. -/
theorem Store.install_harmless (h : s.install t v = (.error e, w)) (hQ : Q t.staging.location)
    (locks : ∀ id ∈ v.locked, id < v.nextId) : Harmless s t.path Q v w ∧ w.Cleared t.staging.location := by
  unfold install at h
  split at h
  · rename_i e' u ha
    cases h
    exact ⟨(acquire_error_harmless ha locks).discard hQ, cleared_discard _ _⟩
  · rename_i lease u ha
    obtain ⟨answer, r, u', hb, hd⟩ := during_cases lease (fun lease v => t.finish lease.file lease.record v) u
    cases hd.symm.trans h
    obtain ⟨rfl, rfl, -⟩ := Transfer.finish_error hb
    obtain ⟨σ, g⟩ := acquire_ok ha
    rw [release_eq, if_pos g.written, Transfer.abandon, discard_unlock]
    exact ⟨(acquire_ok_harmless ha).discard hQ, cleared_discard _ _⟩

/-- A chunk that is refused leaves its transfer, or ends it. -/
theorem Store.receiveChunk_harmless {chunk : FileChunk} (h : s.receiveChunk chunk ts v = (.error e, ts', w))
    (proper : ts.Proper) (locks : ∀ id ∈ v.locked, id < v.nextId) :
    (∀ q, q ≠ chunk.path → ts'.get? q = ts.get? q) ∧
      Harmless s chunk.path (ts.Ended ts' chunk.path) v w := by
  have others : ∀ q, q ≠ chunk.path → (Table.erase ts chunk.path).get? q = ts.get? q := fun q hq =>
    (Table.get?_erase ts chunk.path q).trans (if_neg (Ne.symm hq))
  rcases s.receiveChunk_cases chunk ts v with ⟨-, hw⟩ |
    ⟨t, ht, ⟨-, answer, hw, -⟩ | ⟨-, -, ⟨-, hw⟩ | ⟨-, answer, u, hi, hw⟩⟩⟩
  · cases hw.symm.trans h
    exact ⟨fun _ _ => rfl, .refl _ _ _ _⟩
  · have hdrop : ts.drop chunk.path v = (Table.erase ts chunk.path, t.abandon v) := by
      unfold Transfers.drop
      rw [ht]
    rw [hdrop] at hw
    cases hw.symm.trans h
    exact ⟨others, (Harmless.refl _ _ _ _).discard (Transfers.ended_erase ht)⟩
  · cases hw.symm.trans h
  · cases hw.symm.trans h
    obtain ⟨hpath, hplace⟩ := proper _ _ ht
    have hk := modify_kept (v := v) (h := t.staging) (·.write chunk.offset.toNat chunk.data)
    have ended : ts.Ended (Table.erase ts chunk.path) chunk.path (t.note chunk).2.staging.location := by
      rw [t.staging_note chunk]
      exact Transfers.ended_erase ht
    obtain ⟨left, cleared⟩ := install_harmless hi ended (hk.locks locks)
    rw [t.path_note chunk, hpath] at left
    rw [t.staging_note chunk] at cleared
    exact ⟨others, left.of_modify hplace cleared⟩

end Left

/-! ### Refused messages -/

namespace Session
variable {u : Setup} {m : Message} {s s' : Session} {v w : Volume} {a : Answer} {e : Fault}

/-- What a refused message of a path leaves, of its session and of the tree. -/
structure Spared (u : Setup) (path : String) (s s' : Session) (v w : Volume) : Prop where
  session : s' = { s with transfers := s'.transfers }
  others : ∀ q, q ≠ path → s'.transfers.get? q = s.transfers.get? q
  tree : Harmless u.store path (s.transfers.Ended s'.transfers path) v w

theorem Spared.refl (u : Setup) (path : String) (s : Session) (v : Volume) : Spared u path s s v v :=
  ⟨rfl, fun _ _ => rfl, .refl _ _ _ _⟩

/-- A message that cannot be handled, though the connection goes on. -/
theorem handle_error (proper : s.transfers.Proper) (locks : ∀ id ∈ v.locked, id < v.nextId)
    (h : s.handle u m v = (.error e, s', w)) (hf : e.fatal = false) :
    ∃ path, m.path? = some path ∧ Spared u path s s' v w := by
  cases m with
  | subscribe path =>
    unfold handle subscribe at h
    dsimp only at h
    split at h
    · cases h
    · split at h <;> cases h
      exact ⟨path, rfl, .refl u path s v⟩
  | newVersion notice =>
    rcases ha : u.store.announced u.config.chunkSize notice s.transfers v with ⟨e' | replies, ts, v'⟩ <;>
      simp only [handle, ha] at h <;> cases h
    obtain ⟨rfl, left⟩ := Store.announced_harmless ha hf locks
    exact ⟨notice.path, rfl, rfl, fun _ _ => rfl, left⟩
  | requestChunk request =>
    rcases ha : u.store.serveChunk u.config.chunkSize request v with ⟨e' | reply, v'⟩ <;>
      simp only [handle, ha] at h <;> cases h
    exact ⟨request.path, rfl, rfl, fun _ _ => rfl, Store.serveChunk_harmless ha locks⟩
  | fileChunk chunk =>
    rcases ha : u.store.receiveChunk chunk s.transfers v with ⟨e' | replies, ts, v'⟩ <;>
      simp only [handle, ha] at h <;> cases h
    obtain ⟨others, left⟩ := Store.receiveChunk_harmless ha proper locks
    exact ⟨chunk.path, rfl, rfl, others, left⟩
  | commit path commit =>
    rcases ha : u.store.committed path commit v with ⟨e' | r, v'⟩ <;> simp only [handle, ha] at h <;> cases h
    exact ⟨path, rfl, rfl, fun _ _ => rfl, Store.committed_harmless ha hf locks⟩
  | _ => cases h

/-- What is answered without a failure holds no refusal, unless a version is not spoken. -/
theorem hello_of_nack {nack : Nack} (proper : s.transfers.Proper) (h : s.handle u m v = (.ok a, s', w))
    (hn : .nack nack ∈ a.replies) : s' = s ∧ w = v ∧ ∃ version, m = .hello version := by
  cases m with
  | hello version =>
    cases h
    exact ⟨rfl, rfl, version, rfl⟩
  | subscribe path =>
    unfold handle subscribe at h
    dsimp only at h
    split at h
    · cases h
      cases hn
    · split at h <;> cases h
      cases hn
  | newVersion notice =>
    rcases u.store.announced_cases u.config.chunkSize notice s.transfers v with ⟨e', w', -, hw⟩ |
      ⟨σ, fresh, r, w', ⟨answer, hw, ⟨rfl, -⟩ | ⟨e', rfl, -⟩, -⟩ | ⟨p, t, -, -, hw, -⟩ |
        ⟨p, t, r', replies, file, content, -, -, hw, -, -, -, hs, -⟩⟩ <;> simp only [handle, hw] at h <;> cases h
    · cases hn
    · obtain ⟨request, -, he⟩ := List.mem_map.mp hn
      cases he
    · exact absurd hn (Transfer.nack_not_mem_of_settle hs)
  | requestChunk request =>
    rcases u.store.serveChunk_cases u.config.chunkSize request v with ⟨e', hw⟩ | ⟨e', w', -, hw⟩ |
      ⟨σ, fresh, r, w', e' | reply, hw, -, served⟩ <;> simp only [handle, hw] at h <;> cases h
    obtain ⟨file, bytes, -, rfl, -⟩ := served _ rfl
    cases List.mem_singleton.mp hn
  | fileChunk chunk =>
    rcases u.store.receiveChunk_cases chunk s.transfers v with ⟨-, hw⟩ | ⟨t, ht, ⟨-, e' | replies, hw, hnil⟩ |
      ⟨-, -, ⟨-, hw⟩ | ⟨-, e' | replies, w', hi, hw⟩⟩⟩ <;> simp only [handle, hw] at h <;> cases h
    · cases hnil _ rfl
      cases hn
    · obtain ⟨request, -, he⟩ := List.mem_map.mp hn
      cases he
    · have hplace := (proper _ _ ht).2
      rw [← t.staging_note chunk] at hplace
      rcases u.store.install_cases _ _ hplace with ⟨e', w'', -, hi'⟩ |
        ⟨σ, fresh, r, w'', ⟨e', hi', -⟩ | ⟨r', replies', file, content, hi', hs, -⟩⟩ <;>
        cases hi.symm.trans hi'
      exact absurd hn (Transfer.nack_not_mem_of_settle hs)
  | commit path commit =>
    rcases ha : u.store.committed path commit v with ⟨e' | r, v'⟩ <;> simp only [handle, ha] at h <;> cases h
    cases hn
  | _ =>
    cases h
    simp [Answer.reply, Answer.silent] at hn

/-- A refused message changes nothing that exists, where transfers and locks are as in every run
    (`Passes.proper_locked`). If anything is not as it was, the message is of a path. Then the session is as
    it was, but that the transfer of this path may have ended. In the tree every tracked file has its bytes
    and every record that could be read is as it was; new are at most directories that lead to the path and
    the initial record there, and gone is at most the staging file of the transfer that ended. -/
theorem refused_keeps {nack : Nack} (proper : s.transfers.Proper) (locks : ∀ id ∈ v.locked, id < v.nextId)
    (h : s.answer u m v = (.ok a, s', w)) (refused : .nack nack ∈ a.replies) :
    ((s' = s ∧ w = v) ∨ ∃ path, m.path? = some path ∧ Spared u path s s' v w) ∧
      (∀ q file bytes, u.store.resolve q = .ok file → v.bytesAt? file = some bytes → w.bytesAt? file = some bytes) ∧
      ∀ q r, u.store.recorded? q v = some (.ok r) → u.store.recorded? q w = some (.ok r) := by
  have spared : (s' = s ∧ w = v) ∨ ∃ path, m.path? = some path ∧ Spared u path s s' v w := by
    rcases s.answer_cases u m v with ⟨-, nack', -, ha⟩ | ⟨-, answer, c, x, hh, ⟨a', rfl, ha⟩ |
      ⟨e, a', rfl, ha, ⟨-, rfl⟩ | ⟨hf, nack', -, rfl⟩⟩⟩ <;> cases ha.symm.trans h
    · exact Or.inl ⟨rfl, rfl⟩
    · obtain ⟨hs, hw, -⟩ := hello_of_nack proper hh refused
      exact Or.inl ⟨hs, hw⟩
    · exact Or.inr (handle_error proper locks hh hf)
  refine ⟨spared, ?_⟩
  rcases spared with ⟨-, rfl⟩ | ⟨path, -, spared⟩
  · exact ⟨fun _ _ _ _ => id, fun _ _ => id⟩
  · have staging : ∀ l, s.transfers.Ended s'.transfers path l → StagingPlace l := fun l hl => hl.staging proper
    exact ⟨fun q file bytes => spared.tree.bytesAt? staging, fun q r => spared.tree.recorded? staging⟩

/-! ### The sample -/

/-- A transfer of `b` is under way beside the file `a`. -/
def samplePulling : Node × Volume :=
  Node.run [.message "one" (.newVersion ⟨"b", 3, 0, 4⟩)] ⟨sampleSetup, .empty⟩ (sampleVolume [1, 2, 3, 4])

/-- A chunk of another version is refused: the transfer ends, and the file and the record are as they were. -/
theorem sample_refused_keeps : ∃ nack s w,
    (samplePulling.1.session "one").answer sampleSetup (.fileChunk ⟨"b", 7, 0, [1, 2]⟩) samplePulling.2 =
        (.ok (.reply (.nack nack)), s, w) ∧
      nack.code = .stale ∧ s.transfers.get? "b" = none ∧ w.bytesAt? "r/a" = some [1, 2, 3, 4] ∧
      sampleSetup.store.recorded? "b" w = some (.ok ⟨0, 0, .stale⟩) := by
  have run :=
    Node.passes_run [.message "one" (.newVersion ⟨"b", 3, 0, 4⟩)] ⟨sampleSetup, .empty⟩
      (sampleVolume [1, 2, 3, 4])
  obtain ⟨proper, locks⟩ := run.proper_locked (Node.orderly_start _ _) (fun _ hid => by cases hid) "one"
  obtain ⟨nack, s, w, h, hcode, hgone⟩ : ∃ nack s w,
      (samplePulling.1.session "one").answer sampleSetup (.fileChunk ⟨"b", 7, 0, [1, 2]⟩) samplePulling.2 =
        (.ok (.reply (.nack nack)), s, w) ∧ nack.code = .stale ∧ s.transfers.get? "b" = none :=
          ⟨_, _, _, rfl, rfl, rfl⟩
  obtain ⟨-, hfiles, hrecords⟩ := refused_keeps proper locks h (List.mem_singleton_self _)
  exact ⟨nack, s, w, h, hcode, hgone, hfiles "a" "r/a" _ rfl rfl, hrecords "b" _ rfl⟩

end Session

end TreeReplica
