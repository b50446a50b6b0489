import TreeReplica.Proofs.Tracked

/-! What cannot fail as long as no lease is held. A request for a piece of a tracked file is answered with
    that piece (`Tracked.serves`); an announcement whose staging file can be made begins its transfer
    (`Store.announced_begins`), or has its content of no bytes put in place (`Store.announced_takes`); and
    what is complete is put in place (`Store.installs`) wherever a file can stand (`Volume.TakesFile`). -/

namespace TreeReplica
open Volume

/-! ### Places for files -/

/-- A file can be put where the text leads: to a name that is not too long and not the one of a directory. -/
def Volume.TakesFile (v : Volume) (file : String) : Prop :=
  ∃ dir name, v.locate file = .ok (.inside dir name false) ∧ name.utf8ByteSize ≤ maxName ∧
    v.lookup (dir ++ [name]) ≠ some .directory

namespace Volume
variable {P : Location → Prop} {v w : Volume} {file : String} {h : Handle} {content : Content}

theorem TakesFile.moves (takes : v.TakesFile file) (hread : v.read? h = some content) :
    ∃ w, v.move h file = (.ok (), w) := by
  obtain ⟨dir, name, hl, hs, hd⟩ := takes
  unfold move
  rw [hl]
  dsimp only
  rw [hread]
  dsimp only
  rw [if_neg (Nat.not_lt.mpr hs), if_neg Bool.false_ne_true]
  split
  · rename_i hdir
    exact absurd hdir hd
  · exact ⟨_, rfl⟩

/-- Where a file can be put hangs on where directories and files stand, not on what the files hold. -/
theorem TakesFile.congr (takes : v.TakesFile file) (hh : w.here = v.here)
    (hk : ∀ l, w.lookup l = v.lookup l ∨
      ((∃ id content, v.lookup l = some (.file id content)) ∧ ∃ id content, w.lookup l = some (.file id content))) :
    w.TakesFile file := by
  obtain ⟨dir, name, hl, hs, hd⟩ := takes
  refine ⟨dir, name, (locate_congr hh hk file).trans hl, hs, fun hdir => ?_⟩
  rcases hk (dir ++ [name]) with he | ⟨-, _, _, he⟩
  · exact hd (he ▸ hdir)
  · rw [hdir] at he
    cases he

theorem TakesFile.lock (takes : v.TakesFile file) (h : Handle) : (v.lock h).TakesFile file :=
  takes.congr rfl fun _ => Or.inl rfl

theorem TakesFile.modify (takes : v.TakesFile file) (h : Handle) (f : Content → Content) :
    (v.modify h f).TakesFile file := by
  refine takes.congr (modify_kept f).here fun l => ?_
  rw [lookup_modify]
  split
  · rename_i content hread
    split
    · rename_i he
      exact Or.inr ⟨⟨_, _, he ▸ read?_eq_some.mp hread⟩, _, _, rfl⟩
    · exact Or.inl rfl
  · exact Or.inl rfl

end Volume

/-! ### Pieces of a file -/

theorem readBytes_of_bytesAt? {v : Volume} {file : String} {bytes : Bytes} (hb : v.bytesAt? file = some bytes)
    (hle : bytes.length ≤ lastPage) (offset : UInt64) (size : UInt32) :
    Store.readBytes v file offset size = .ok ((bytes.drop offset.toNat).take size.toNat) := by
  obtain ⟨l, id, content, hf, rfl⟩ := bytesAt?_eq_some.mp hb
  unfold Store.readBytes
  rw [hf]
  dsimp only
  have hsize := content.size_eq
  rw [if_neg (by omega), Content.slice_eq, List.drop_take]
  congr 2
  omega

theorem bytesAt?_lock (v : Volume) (h : Handle) (file : String) : (v.lock h).bytesAt? file = v.bytesAt? file := by
  have hf : (v.lock h).find file = v.find file :=
    find_congr (v := v) (w := v.lock h) rfl (fun _ => Or.inl rfl) fun _ _ _ _ => rfl
  unfold bytesAt?
  rw [hf]

/-- A request at the edit count of the record is answered with the piece that it asks for, as far as one chunk
    can hold it. -/
theorem Tracked.serves {s : Store} {path : String} {v : Volume} {r : Record} {bytes : Bytes}
    (t : Tracked s path v r bytes) (hu : v.locked = []) (hle : bytes.length ≤ lastPage) (chunkSize : UInt32)
    {request : ChunkRequest} (hp : request.path = path) (hc : request.client = r.client) :
    ∃ w, s.serveChunk chunkSize request v = (.ok (.fileChunk ⟨path, r.client, request.offset,
        (bytes.drop request.offset.toNat).take (min request.size chunkSize).toNat⟩), w) ∧
      Tracked s path w r bytes ∧ w.locked = [] := by
  subst hp
  obtain ⟨lease, ha, rfl, hres⟩ := Store.acquires_recorded t.record hu
  obtain ⟨file, hr, hb⟩ := t.file
  cases hres.symm.trans hr
  have present : s.tracked request.path v = .ok true := by
    obtain ⟨l, id, content, hf, -⟩ := bytesAt?_eq_some.mp hb
    unfold Store.tracked
    rw [hr]
    simp [Except.map, Volume.present, hf]
  have read := readBytes_of_bytesAt? ((bytesAt?_lock v lease.handle lease.file).trans hb) hle request.offset
    (min request.size chunkSize)
  have served : (s.serveChunk chunkSize request v).1 =
    .ok (.fileChunk ⟨request.path, lease.record.client, request.offset,
      (bytes.drop request.offset.toNat).take (min request.size chunkSize).toNat⟩) := by
    unfold Store.serveChunk Store.withTracked Store.acquireTracked
    rw [present]
    dsimp only
    rw [ha]
    dsimp only [Store.during]
    rw [if_pos hc, read]
    rfl
  obtain ⟨answer, w, hw, t', hl, -⟩ := t.serveChunk chunkSize rfl
  rw [hw] at served
  exact ⟨w, by rw [hw, ← served], t', hl.trans hu⟩

/-! ### Content put in place -/

section Install
variable {s : Store} {path file : String} {P : Location → Prop} {u v w w₁ : Volume} {lease : Lease} {σ : Site}
  {fresh : Bool} {r r' : Record} {t : Transfer} {content : Content} {replies : List Message}

/-- A lease that was had leaves a record that is found. -/
theorem Leased.recorded_of_acquire (hl : Leased s path P v w σ fresh r r')
    (ha : s.acquire path v = (.ok lease, u)) :
    s.recorded? path w = some (.ok r') := by
  obtain ⟨v₁, -, ⟨e, he⟩ | ⟨file, h, v₂, hr, ho, ⟨-, he⟩ | -⟩⟩ := Store.acquire_cases s path v
  · rw [he] at ha
    cases ha
  · rw [he] at ha
    cases ha
  -- The text of the record file leads to a name, so it does wherever its directory is there.
  obtain ⟨dir, name, hloc, hsize, -⟩ := openOrCreate_ok ho
  obtain ⟨τ, hτ, hname⟩ := Store.leads_of_locate_sidecar hr hloc
  obtain ⟨file', hr', hn, hwalk⟩ := hl.leads
  cases hr.symm.trans hr'
  obtain ⟨file', hr', hn', -⟩ := hτ
  cases hr.symm.trans hr'
  have hsame : name = Path.recordName σ.name := by
    rw [Option.some.inj (hn.symm.trans hn')]
    exact (List.cons.inj (List.append_inj' hname rfl).2).1
  have hw : w.walk (w.start (Path.sidecar file)) (Path.names (Path.sidecar file)).dropLast = .ok σ.dir := by
    rw [Path.names_sidecar hn, List.dropLast_concat]
    unfold start at hwalk ⊢
    rw [Path.absolute_sidecar hn]
    exact hwalk
  obtain ⟨id, content, hlook, hd⟩ := record?_eq_some.mp hl.after
  unfold Store.recorded?
  rw [hr]
  dsimp only
  have hfind : w.find (Path.sidecar file) = .ok (σ.dir ++ [name], .file id content) :=
    find_of_locate (locate_of_walk hloc hw) hsize (hsame ▸ hlook)
  rw [hfind, ← hd]

/-- A complete transfer that the record still needs is put in place. -/
theorem Store.installs (hrec : s.recorded? t.path v = some (.ok r)) (hu : v.locked = [])
    (hr : s.resolve t.path = .ok file) (takes : v.TakesFile file) (hp : StagingPlace t.staging.location)
    (hread : v.read? t.staging = some content) (hset : t.settle r = .ok (r', replies)) :
    ∃ w, s.install t v = (.ok replies, w) ∧ Tracked s t.path w r' content.toList ∧ w.locked = [] := by
  obtain ⟨lease, ha, rfl, hres⟩ := acquires_recorded hrec hu
  cases hres.symm.trans hr
  have installed : (s.install t v).1 = .ok replies := by
    obtain ⟨w, hm⟩ := (takes.lock lease.handle).moves (h := t.staging) hread
    unfold install
    rw [ha]
    dsimp only [during]
    rw [Transfer.finish_ok hset hm]
  rcases s.install_cases t v hp with ⟨e, w, -, hw⟩ | ⟨σ, fresh, r₀, w, ⟨e, hw, -⟩ |
    ⟨r₁, replies', file, content', hw, hset', hl, hr', hread', hfind⟩⟩ <;> rw [hw] at installed <;> cases installed
  obtain ⟨-, rfl, hrec'⟩ := hl.recorded hrec
  cases hset.symm.trans hset'
  cases hread.symm.trans hread'
  exact ⟨w, hw, ⟨hrec', file, hr', bytesAt?_eq_some.mpr ⟨_, _, _, hfind, rfl⟩⟩, hl.kept.locked.trans hu⟩

end Install

/-! ### Announcements -/

section Announced
variable {s : Store} {notice : NewVersion} {p : Pull} {v w w₁ : Volume} {lease : Lease} {t : Transfer}
  {r r' : Record} {replies : List Message}

/-- What is announced under a lease that can be had is what is pulled, once the lease has ended. -/
theorem Store.announced_of_pull {begun : Option Transfer} (ha : s.acquire notice.path v = (.ok lease, w))
    (hplan : lease.record.plan notice = .pull p) {chunkSize : UInt32}
    (hpull : s.pull chunkSize notice p lease.file (lease.record.announced notice) w =
      (.ok (replies, begun), r', w₁))
    (ts : Transfers) :
    s.announced chunkSize notice ts v =
      (.ok replies, begun.elim (ts, Lease.release { lease with record := r' } w₁)
        fun t => ts.add t (Lease.release { lease with record := r' } w₁)) := by
  unfold announced withLease
  rw [ha]
  dsimp only [during]
  rw [hplan]
  dsimp only
  rw [hpull]
  cases begun <;> rfl

/-- An announcement of some bytes begins their transfer, if the record needs them and a staging file can be made. -/
theorem Store.announced_begins (ha : s.acquire notice.path v = (.ok lease, w))
    (hplan : lease.record.plan notice = .pull p) (hb : Transfer.begin s notice p w = (.ok t, w₁))
    (takes : w₁.TakesFile lease.file) (hz : notice.size ≠ 0) (chunkSize : UInt32) (ts : Transfers) :
    ∃ w', s.announced chunkSize notice ts v =
        (.ok ((t.requests chunkSize).1.map .requestChunk), ts.add (t.requests chunkSize).2 w') ∧
      Transfer.Begun notice p v w' t ∧ t.outstanding = .empty ∧ w'.TakesFile lease.file ∧ w'.locked = v.locked ∧
      s.recorded? notice.path w' = some (.ok (lease.record.announced notice)) := by
  obtain ⟨σ, g⟩ := acquire_ok ha
  obtain ⟨hk, began, empty⟩ := Transfer.begun_of_begin hb
  have hpull : s.pull chunkSize notice p lease.file (lease.record.announced notice) w =
      (.ok ((t.requests chunkSize).1.map .requestChunk, some (t.requests chunkSize).2),
        lease.record.announced notice, w₁) := by
    unfold pull
    rw [hb]
    dsimp only
    rw [if_neg (by rw [began.complete]; simpa using hz)]
  have hnot : ¬w.Unused σ.record := fun h => σ.record_not_staging h.1
  obtain ⟨hl, -⟩ := g.leased hk hnot (lease.record.announced notice)
  exact ⟨_, announced_of_pull ha hplan hpull ts, g.begun hk began _, empty,
    takes.congr (g.release_here hk hnot _) (g.release_kind hk hnot _), hl.kept.locked, hl.recorded_of_acquire ha⟩

/-- Announced content of no bytes is put in place, if the record needs it and a staging file can be made. -/
theorem Store.announced_takes (ha : s.acquire notice.path v = (.ok lease, w))
    (hplan : lease.record.plan notice = .pull p) (hb : Transfer.begin s notice p w = (.ok t, w₁))
    (takes : w₁.TakesFile lease.file) (hz : notice.size = 0)
    (hset : t.settle (lease.record.announced notice) = .ok (r', replies))
    (chunkSize : UInt32) (ts : Transfers) :
    ∃ w', s.announced chunkSize notice ts v = (.ok replies, ts, w') ∧ Tracked s notice.path w' r' [] ∧
    w'.locked = v.locked := by
  obtain ⟨σ, g⟩ := acquire_ok ha
  obtain ⟨hk, began, -⟩ := Transfer.begun_of_begin hb
  obtain ⟨blank, hread, hblank⟩ := began.blank
  obtain ⟨w₂, hm⟩ := takes.moves hread
  have hfin := Transfer.finish_ok hset hm
  have hpull : s.pull chunkSize notice p lease.file (lease.record.announced notice) w =
      (.ok (replies, none), r', w₂) := by
    unfold pull
    rw [hb]
    dsimp only
    rw [if_pos (by rw [began.complete]; simpa using hz), hfin]
  rcases g.finished hk began.unused (lease.record.announced notice) with ⟨e, w₂', hf, -⟩ |
    ⟨r₁, replies', w₂', content, hf, -, hread', hk₂, hfind⟩ <;> cases hfin.symm.trans hf
  cases hread.symm.trans hread'
  obtain ⟨hl, hfinds⟩ :=
    g.leased hk₂ (fun h => h.elim (fun h => σ.record_not_staging h.1) g.leads.record_ne_file) r'
  refine ⟨_, announced_of_pull ha hplan hpull ts,
    ⟨hl.recorded_of_acquire ha, lease.file, g.resolves, ?_⟩, hl.kept.locked⟩
  exact bytesAt?_eq_some.mpr ⟨_, _, _, (hfinds _ _ g.resolves).trans hfind, by simpa [hz] using hblank⟩

end Announced

end TreeReplica
