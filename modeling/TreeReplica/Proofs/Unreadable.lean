import TreeReplica.Proofs.Replication
import TreeReplica.Proofs.Sample

/-! Records that cannot be read. Whoever asks for the lease of one is refused, but the lease that was not
    granted ends like any other and so writes the record that it began with: the bytes are lost, and the
    path has the initial record from then on (`Unreadable.becomes_initial`). -/

namespace TreeReplica
open Volume

/-- The text of a path's record leads to a file that nobody has locked, with bytes that are no record. -/
structure Store.Unreadable (s : Store) (path : String) (v : Volume) (file : String) (h : Handle)
    (fault : RecordFault) :
    Prop where
  resolves : s.resolve path = .ok file
  unlocked : v.isLocked h = false
  found : ∃ content, v.find (Path.sidecar file) = .ok (h.location, .file h.id content) ∧ content.toList ≠ [] ∧
    Record.decode content.toList = .error fault

namespace Store
variable {s : Store} {path file : String} {v w : Volume} {h : Handle} {fault : RecordFault}

/-- The volume once the lease of an unreadable record was refused. -/
def refused (h : Handle) (v : Volume) : Volume :=
  ((v.lock h).modify h fun _ => .ofBytes Record.initial.encode).unlock h

namespace Unreadable

theorem acquire (u : s.Unreadable path v file h fault) :
    s.acquire path v = (.error (.recordIo (Path.sidecar file) (.record fault)), refused h v) := by
  obtain ⟨content, hf, hne, hd⟩ := u.found
  obtain ⟨-, -, -, -, hl⟩ := find_file hf
  rw [acquire_of_find u.resolves hf, if_neg (by simp [u.unlocked])]
  have hread : (v.lock h).read? h = some content := read?_eq_some.mpr hl
  unfold grant
  dsimp only
  rw [hread, Option.getD_some, Record.stored_eq_error.mpr ⟨hne, hd⟩]
  rfl

/-- Only the record changes, and it is the initial one afterwards. -/
theorem refused_find (u : s.Unreadable path v file h fault) :
    Kept (· = h.location) v (refused h v) ∧
      (refused h v).find (Path.sidecar file) = .ok (h.location, .file h.id (.ofBytes Record.initial.encode)) := by
  obtain ⟨content, hf, -⟩ := u.found
  obtain ⟨dir, name, hloc, hdir, hl⟩ := find_file hf
  have hk : Kept (· = h.location) v (refused h v) := (modify_kept _).unlock u.unlocked
  refine ⟨hk, ?_⟩
  have hread : (v.lock h).read? h = some content := read?_eq_some.mpr hl
  have hw : (refused h v).lookup h.location = some (.file h.id (.ofBytes Record.initial.encode)) := by
    show ((v.lock h).modify h _).lookup h.location = _
    rw [lookup_modify, hread]
    exact if_pos rfl
  rw [hdir] at hw ⊢
  exact find_of_locate (hk.locate hloc) (size_le_of_find hloc hf) hw

theorem kept {P : Location → Prop} (u : s.Unreadable path v file h fault) (hk : Kept P v w) (hP : ¬P h.location) :
    s.Unreadable path w file h fault := by
  obtain ⟨content, hf, hne, hd⟩ := u.found
  refine ⟨u.resolves, ?_, content, hk.find_file hf hP, hne, hd⟩
  have hl := u.unlocked
  unfold isLocked at hl ⊢
  rwa [hk.locked]

theorem not_staging (u : s.Unreadable path v file h fault) : ¬StagingPlace h.location := by
  obtain ⟨content, hf, -⟩ := u.found
  obtain ⟨dir, name, hloc, hdir, -⟩ := find_file hf
  obtain ⟨σ, -, hσ⟩ := leads_of_locate_sidecar u.resolves hloc
  rw [hdir, hσ]
  exact σ.record_not_staging

theorem refused_recorded (u : s.Unreadable path v file h fault) {P : Location → Prop} (hk : Kept P (refused h v) w)
    (hP : ¬P h.location) : s.recorded? path w = some (.ok .initial) := by
  unfold recorded?
  rw [u.resolves]
  dsimp only
  rw [hk.find_file u.refused_find.2 hP]
  dsimp only
  rw [Content.toList_ofBytes, Record.decode_encode]

theorem withLease (u : s.Unreadable path v file h fault) {α : Type} (body : Body α) :
    s.withLease path body v = (.error (.recordIo (Path.sidecar file) (.record fault)), refused h v) := by
  unfold Store.withLease
  rw [u.acquire]

theorem announced (u : s.Unreadable path v file h fault) (chunkSize : UInt32) (ts : Transfers) {notice : NewVersion}
    (hp : notice.path = path) :
    s.announced chunkSize notice ts v =
      (.error (.recordIo (Path.sidecar file) (.record fault)), ts, refused h v) := by
  unfold Store.announced
  dsimp only
  rw [hp, u.withLease]

theorem serveChunk (u : s.Unreadable path v file h fault) (chunkSize : UInt32) {request : ChunkRequest}
    (hp : request.path = path) :
    s.serveChunk chunkSize request v = (.error (.recordIo (Path.sidecar file) (.record fault)), refused h v) := by
  obtain ⟨content, hf, -⟩ := u.found
  have htracked : s.tracked path v = .ok true := by
    unfold tracked present
    rw [u.resolves, Except.map, hf]
    simp
  unfold Store.serveChunk withTracked acquireTracked
  dsimp only
  rw [hp, htracked]
  dsimp only
  rw [u.acquire]

theorem receiveChunk (u : s.Unreadable path v file h fault) {chunk : FileChunk} {ts : Transfers} {t : Transfer}
    (hc : chunk.path = path) (ht : ts.get? path = some t) (hp : t.path = path)
    (hstaging : StagingPlace t.staging.location) (hdata : chunk.data ≠ []) (hfault : t.fault? chunk = none)
    (hcomplete : (t.note chunk).2.complete = true) :
    ∃ w, s.receiveChunk chunk ts v = (.error (.recordIo (Path.sidecar file) (.record fault)), ts.erase path, w) ∧
      s.recorded? path w = some (.ok .initial) := by
  subst hc
  rcases s.receiveChunk_cases chunk ts v with ⟨hn, -⟩ |
    ⟨t', ht', ⟨hbad, -⟩ | ⟨-, -, ⟨hn, -⟩ | ⟨-, answer, w, hi, hw⟩⟩⟩
  · rw [hn] at ht
    cases ht
  · cases ht.symm.trans ht'
    rcases hbad with he | he
    · exact absurd he hdata
    · exact absurd hfault he
  · cases ht.symm.trans ht'
    rw [hcomplete] at hn
    cases hn
  · cases ht.symm.trans ht'
    -- The chunk went to the staging file first, so the record that cannot be read is still there.
    have u₁ := u.kept (modify_staging v hstaging (·.write chunk.offset.toNat chunk.data)) u.not_staging
    have hpath : (t.note chunk).2.path = chunk.path := (t.path_note chunk).trans hp
    have hplace : StagingPlace (t.note chunk).2.staging.location := t.staging_note chunk ▸ hstaging
    unfold Store.install at hi
    rw [hpath, u₁.acquire] at hi
    obtain ⟨rfl, rfl⟩ := Prod.mk.inj hi
    exact ⟨_, hw, u₁.refused_recorded (discard_staging _ hplace) u.not_staging⟩

/-- Every operation that takes the lease of a record that cannot be read is refused. The record is lost all the
    same: the path has the initial one from then on, and who asks next is granted it. -/
theorem becomes_initial (u : s.Unreadable path v file h fault) (chunkSize : UInt32) (ts : Transfers) :
    let e : Fault := .recordIo (Path.sidecar file) (.record fault)
    let w := refused h v
    s.acquire path v = (.error e, w) ∧
    (∀ (α : Type) (body : Body α), s.withLease path body v = (.error e, w)) ∧
    (∀ edit : LocalEdit, edit.report s path v = (.error e, w)) ∧
    (∀ c, s.committed path c v = (.error e, w)) ∧
    (∀ notice : NewVersion, notice.path = path → s.announced chunkSize notice ts v = (.error e, ts, w)) ∧
    (∀ request : ChunkRequest, request.path = path → s.serveChunk chunkSize request v = (.error e, w)) ∧
    (∀ (chunk : FileChunk) (t : Transfer), chunk.path = path → ts.get? path = some t → t.path = path →
      StagingPlace t.staging.location → chunk.data ≠ [] → t.fault? chunk = none →
      (t.note chunk).2.complete = true →
      ∃ w, s.receiveChunk chunk ts v = (.error e, ts.erase path, w) ∧ s.recorded? path w = some (.ok .initial)) ∧
    s.recorded? path w = some (.ok .initial) ∧
    ∃ lease w', s.acquire path w = (.ok lease, w') ∧ lease.record = .initial := by
  refine ⟨u.acquire, fun α body => u.withLease body, fun edit => u.withLease _, fun c => u.withLease _,
    fun notice hp => u.announced chunkSize ts hp, fun request hp => u.serveChunk chunkSize hp,
    fun chunk t hc ht hp hstaging hdata hfault hcomplete => u.receiveChunk hc ht hp hstaging hdata hfault hcomplete,
    u.refused_recorded (.refl (fun _ => False) _) id, ?_⟩
  obtain ⟨hk, hf⟩ := u.refused_find
  have hl : (refused h v).isLocked h = false := by
    have hl := u.unlocked
    unfold isLocked at hl ⊢
    rwa [hk.locked]
  obtain ⟨-, -, -, -, hlook⟩ := find_file hf
  have hread : ((refused h v).lock h).read? h = some (.ofBytes Record.initial.encode) := read?_eq_some.mpr hlook
  rw [acquire_of_find u.resolves hf, if_neg (by simp [hl])]
  unfold grant
  dsimp only
  rw [hread, Option.getD_some, Record.stored_eq_some.mpr (by rw [Content.toList_ofBytes, Record.decode_encode])]
  exact ⟨_, _, rfl, rfl⟩

end Unreadable
end Store

/-! ### One byte that is no record -/

/-- The sample with one byte where the record of its file would be. -/
def unreadableVolume : Volume :=
  (sampleVolume [1, 2, 3, 4]).setEntry ["r", ".a.tsmeta"] (.file 7 (.ofBytes [0]))

theorem unreadableVolume_unreadable :
    sampleSetup.store.Unreadable "a" unreadableVolume "r/a" ⟨["r", ".a.tsmeta"], 7⟩ (.size 1) :=
  ⟨rfl, rfl, _, rfl, by decide, rfl⟩

/-- The byte is gone, a report of an edit is refused only once, and then the path has a record that counts it. -/
theorem sample_becomes_initial :
    let w := Store.refused ⟨["r", ".a.tsmeta"], 7⟩ unreadableVolume
    (LocalEdit.report .written sampleSetup.store "a" unreadableVolume =
      (.error (.recordIo "r/.a.tsmeta" (.record (.size 1))), w)) ∧
    sampleSetup.store.recorded? "a" w = some (.ok .initial) ∧
    (LocalEdit.report .written sampleSetup.store "a" w).1 = .ok (⟨0, 1, .dirty⟩, some ⟨"a", 0, 1, 4⟩) := by
  obtain ⟨-, -, hreport, -, -, -, -, hr, -⟩ := unreadableVolume_unreadable.becomes_initial 2 .empty
  exact ⟨hreport .written, hr, rfl⟩

/-- A record that cannot be read does not stay as it is when its lease is refused. -/
theorem refused_record_changes :
    ¬∀ (s : Store) (path file : String) (v : Volume) (h : Handle) (fault : RecordFault),
      s.Unreadable path v file h fault →
        (s.acquire path v).2.find (Path.sidecar file) = v.find (Path.sidecar file) := by
  intro hall
  have h := hall _ _ _ _ _ _ unreadableVolume_unreadable
  rw [unreadableVolume_unreadable.acquire, unreadableVolume_unreadable.refused_find.2] at h
  have hsame : unreadableVolume.find (Path.sidecar "r/a") =
      .ok (["r", ".a.tsmeta"], .file 7 (.ofBytes [0])) := rfl
  rw [hsame] at h
  simp [Content.ofBytes, Record.encode, Record.magic] at h

end TreeReplica
