import TreeReplica.Proofs.Containment
import TreeReplica.Proofs.Harmless
import TreeReplica.Proofs.Sample
import TreeReplica.Proofs.Unfailing

/-! Pieces of files for peers. What a lease finds that is asked for where the directories are there
    (`Store.acquire_of_walk`), what is read under it, and what is left when it ends. Main statement:
    `Store.served_piece`. -/

namespace TreeReplica
open Volume

/-! ### What is read -/

/-- Reading `size` bytes from `offset` on in a file of these bytes, or where there is none, comes to this
    answer. Nothing is read that ends past the last page. -/
def ReadsAs (file : String) (bytes? : Option Bytes) (offset : UInt64) (size : UInt32)
    (answer : Except Fault Bytes) : Prop :=
  match bytes? with
  | none => ∃ cause, answer = .error (.chunkRead file cause)
  | some bytes =>
    let stop := min (offset.toNat + size.toNat) bytes.length
    answer = if offset.toNat < stop ∧ lastPage < stop then .error (.chunkRead file .valueTooLarge)
      else .ok ((bytes.take stop).drop offset.toNat)

/-- What a peer gets that asks for a piece, from the owner of record `r` whose file has these bytes or is not
    there. -/
def ServesAs (chunkSize : UInt32) (request : ChunkRequest) (file : String) (r : Record) (bytes? : Option Bytes)
    (answer : Except Fault Message) : Prop :=
  let reply := fun data => Message.fileChunk ⟨request.path, r.client, request.offset, data⟩
  if request.client = r.client then
    ∃ read, ReadsAs file bytes? request.offset (min request.size chunkSize) read ∧ answer = read.map reply
  else answer = .ok (reply [])

namespace Volume
variable {v : Volume} {file : String}

theorem find_of_bytesAt?_none (hd : v.isDirectory file = false) (hb : v.bytesAt? file = none) :
    ∃ e, v.find file = .error e := by
  unfold isDirectory at hd
  unfold bytesAt? at hb
  split at hb
  · cases hb
  rcases hf : v.find file with e | ⟨l, entry⟩
  · exact ⟨e, rfl⟩
  cases entry with
  | directory => simp [hf] at hd
  | file id content => simp_all

theorem isDirectory_of_bytesAt? {bytes : Bytes} (hb : v.bytesAt? file = some bytes) :
    v.isDirectory file = false := by
  obtain ⟨l, id, content, hf, -⟩ := bytesAt?_eq_some.mp hb
  simp [isDirectory, hf]

theorem find_unlock (v : Volume) (h : Handle) (file : String) : (v.unlock h).find file = v.find file :=
  find_congr (v := v) (w := v.unlock h) rfl (fun _ => Or.inl rfl) fun _ _ _ _ => rfl

theorem bytesAt?_unlock (v : Volume) (h : Handle) (file : String) :
    (v.unlock h).bytesAt? file = v.bytesAt? file := by
  unfold bytesAt?
  rw [find_unlock]

theorem unlock_lock {h : Handle} (hu : v.isLocked h = false) : (v.lock h).unlock h = v := by
  have hid : h.id ∉ v.locked := by simpa [isLocked] using hu
  have hlocked : (v.lock h).locked.filter (· ≠ h.id) = v.locked := by
    rw [lock, List.filter_cons_of_neg (by simp), List.filter_eq_self]
    intro id hm
    simpa using fun he : id = h.id => hid (he ▸ hm)
  rw [unlock, hlocked]
  rfl

theorem readsAs (hd : v.isDirectory file = false) (offset : UInt64) (size : UInt32) :
    ReadsAs file (v.bytesAt? file) offset size (Store.readBytes v file offset size) := by
  cases hb : v.bytesAt? file with
  | none =>
    obtain ⟨e, hf⟩ := find_of_bytesAt?_none hd hb
    exact ⟨e, by simp [Store.readBytes, hf]⟩
  | some bytes =>
    obtain ⟨l, id, content, hf, rfl⟩ := bytesAt?_eq_some.mp hb
    have hsame : content.toList.take (offset.toNat + size.toNat) =
        content.toList.take (min (offset.toNat + size.toNat) content.toList.length) := by
      rw [← List.take_take, List.take_length]
    simp only [ReadsAs, Store.readBytes, hf, Content.size_eq, Content.slice_eq, hsame, gt_iff_lt]

end Volume

/-! ### What a lease finds -/

namespace Store
variable {s : Store} {v w : Volume} {path file : String} {dir : Location} {lease : Lease} {request : ChunkRequest}

theorem walk_of_locate {name : String} {slash : Bool} (hr : s.resolve path = .ok file)
    (hl : v.locate file = .ok (.inside dir name slash)) : v.walk (v.start s.root) (s.way path) = .ok dir := by
  obtain ⟨hway, hstart⟩ := names_of_resolve (v := v) hr
  rw [← hway, ← hstart]
  exact (locate_inside hl).2.2

theorem start_sidecar (hr : s.resolve path = .ok file) : v.start (Path.sidecar file) = v.start s.root ∧
    (Path.names (Path.sidecar file)).dropLast = s.way path := by
  obtain ⟨hway, hstart⟩ := names_of_resolve (v := v) hr
  obtain ⟨-, -, -, name, -, hname, -⟩ := Path.names_of_resolve hr
  refine ⟨?_, by rw [Path.names_sidecar hname, List.dropLast_concat, hway]⟩
  rw [← hstart]
  simp [Volume.start, Path.absolute_sidecar hname]

/-- A lease opens the record where its text leads. -/
theorem located_of_acquire (hr : s.resolve path = .ok file) (ha : s.acquire path v = (.ok lease, w)) :
    ∃ dir name, (s.entered path v).locate (Path.sidecar file) = .ok (.inside dir name false) ∧
    name.utf8ByteSize ≤ maxName ∧
      lease.handle.location = dir ++ [name] := by
  rcases s.acquire_entered path v with ⟨e, he⟩ | ⟨file', h, v₂, hr', ho, ⟨-, he⟩ | ⟨-, hg⟩⟩
  · cases he.symm.trans ha
  · cases he.symm.trans ha
  cases hr.symm.trans hr'
  obtain ⟨-, rfl, -⟩ := grant_ok (hg.symm.trans ha)
  obtain ⟨dir, name, hl, hsize, hloc, -⟩ := openOrCreate_ok ho
  exact ⟨dir, name, hl, hsize, hloc⟩

/-- The text of a record that is there led to the same place before the lease. -/
theorem located_of_present (hr : s.resolve path = .ok file) (hp : v.present (Path.sidecar file) = true)
    (ha : s.acquire path v = (.ok lease, w)) :
    ∃ dir name, v.locate (Path.sidecar file) = .ok (.inside dir name false) ∧ name.utf8ByteSize ≤ maxName ∧
      lease.handle.location = dir ++ [name] := by
  obtain ⟨dir, name, hl, hsize, hloc⟩ := located_of_acquire hr ha
  cases hv : v.locate (Path.sidecar file) with
  | error e => simp [present, find, hv] at hp
  | ok spot =>
    cases hl.symm.trans ((s.entered_kept path v fun _ => False).locate hv)
    exact ⟨dir, name, rfl, hsize, hloc⟩

/-- Where a file or a record is found, the directories on the way are there. -/
theorem walk_of_present (hr : s.resolve path = .ok file) (hd : v.isDirectory file = false)
    (hp : v.present file = true ∨ v.present (Path.sidecar file) = true) (ha : s.acquire path v = (.ok lease, w)) :
    ∃ dir, v.walk (v.start s.root) (s.way path) = .ok dir := by
  rcases hp with hp | hp
  · cases hb : v.bytesAt? file with
    | none =>
      obtain ⟨e, hf⟩ := find_of_bytesAt?_none hd hb
      simp [present, hf] at hp
    | some bytes =>
      obtain ⟨l, id, content, hf, -⟩ := bytesAt?_eq_some.mp hb
      obtain ⟨dir, name, hl, -⟩ := find_file hf
      exact ⟨dir, walk_of_locate hr hl⟩
  · obtain ⟨hstart, hway⟩ := start_sidecar (v := v) hr
    obtain ⟨dir, name, hl, -⟩ := located_of_present hr hp ha
    exact ⟨dir, hstart ▸ hway ▸ (locate_inside hl).2.2⟩

/-- What a lease finds where the directories on the way are there: the record that can be read, and then
nothing is changed, or no record yet, and then the initial one is written. -/
theorem acquire_of_walk (hr : s.resolve path = .ok file) (hw : v.walk (v.start s.root) (s.way path) = .ok dir)
    (ha : s.acquire path v = (.ok lease, w)) :
    s.recorded? path w = some (.ok lease.record) ∧
      ((s.recorded? path v = some (.ok lease.record) ∧ w = v.lock lease.handle) ∨
        ((∀ r, s.recorded? path v ≠ some (.ok r)) ∧ lease.record = .initial ∧
          ∀ content, v.content? (s.site v path).record = some content → content.toList = [])) := by
  obtain ⟨σ, g⟩ := acquire_ok ha
  obtain ⟨content, hfile, hdec⟩ := g.stored
  have hsite : σ = s.site v path := g.leads.eq_site.trans (site_congr g.kept.here)
  obtain ⟨hstart, hway⟩ := start_sidecar (v := v) hr
  obtain ⟨dir', name, hentered, hsize, hloc⟩ := located_of_acquire hr ha
  have hl : v.locate (Path.sidecar file) = .ok (.inside dir name false) :=
    locate_of_walk hentered (by rw [hstart, hway]; exact hw)
  obtain rfl : dir = dir' := by
    cases hentered.symm.trans ((s.entered_kept path v fun _ => False).locate hl)
    rfl
  have hplace : dir ++ [name] = σ.record := hloc.symm.trans g.location
  have hlock : (v.lock lease.handle).locate (Path.sidecar file) = .ok (.inside dir name false) :=
    (locate_congr (v := v) (w := v.lock lease.handle) rfl (fun _ => Or.inl rfl) _).trans hl
  have found : ∀ {u : Volume} {id : Nat} {c : Content},
    u.locate (Path.sidecar file) = .ok (.inside dir name false) →
      u.lookup σ.record = some (.file id c) → s.recorded? path u = some (Record.decode c.toList) := by
    intro u id c hu hc
    rw [← hplace] at hc
    simp [recorded?, hr, find_of_locate hu hsize hc]
  refine ⟨by rw [found (g.kept.locate hlock) hfile, hdec], ?_⟩
  cases hv : v.lookup σ.record with
  | none =>
    have missing : s.recorded? path v = none := by
      rw [← hplace] at hv
      simp [recorded?, hr, find, hl, hv, Nat.not_lt.mpr hsize]
    rcases g.before with ⟨-, hsame⟩ | ⟨-, hinit, hempty⟩
    · rw [hsame, hv] at hfile
      cases hfile
    · exact Or.inr ⟨by simp [missing], hinit, hsite ▸ hempty⟩
  | some entry =>
    cases entry with
    | directory =>
      have := g.kept.directory σ.record hv
      rw [hfile] at this
      cases this
    | file id content' =>
      have hfind : v.find (Path.sidecar file) = .ok (σ.record, .file id content') := by
        rw [← hplace] at hv ⊢
        exact find_of_locate hl hsize hv
      rcases g.before with ⟨hfresh, hsame⟩ | ⟨-, hinit, hempty⟩
      · rw [hsame, hv] at hfile
        cases hfile
        refine Or.inl ⟨by rw [found hl hv, hdec], ?_⟩
        rw [acquire_of_find hr hfind] at ha
        split at ha
        · cases ha
        · obtain ⟨-, hhandle, -, ⟨-, hlocked, -⟩ | ⟨htrue, -⟩⟩ := grant_ok ha
          · rw [hlocked, hhandle]
          · rw [hfresh] at htrue
            cases htrue
      · have hnil : content'.toList = [] := hempty content' (content?_eq_some.mpr ⟨id, hv⟩)
        exact Or.inr ⟨by simp [found hl hv, hnil, Record.decode, Record.storedSize], hinit, hsite ▸ hempty⟩

/-! ### What is served -/

theorem lookup_record_of_present (hr : s.resolve path = .ok file) (hp : v.present (Path.sidecar file) = true)
    (ha : s.acquire path v = (.ok lease, w)) : v.lookup (s.site v path).record ≠ none := by
  obtain ⟨σ, g⟩ := acquire_ok ha
  have hsite : σ = s.site v path := g.leads.eq_site.trans (site_congr g.kept.here)
  obtain ⟨dir, name, hl, hsize, hloc⟩ := located_of_present hr hp ha
  intro hn
  rw [← hsite, ← g.location, hloc] at hn
  simp [present, find, hl, hn, Nat.not_lt.mpr hsize] at hp

/-- Under a lease the tracked file is found as it was. -/
theorem found_of_acquire (hr : s.resolve path = .ok file) (hd : v.isDirectory file = false)
    (hp : v.present file = true ∨ v.present (Path.sidecar file) = true) (ha : s.acquire path v = (.ok lease, w)) :
    w.bytesAt? file = v.bytesAt? file ∧ w.isDirectory file = false := by
  have harmless : Harmless s path (fun _ => False) v (w.unlock lease.handle) := acquire_ok_harmless ha
  obtain ⟨dir, hw⟩ := walk_of_present hr hd hp ha
  cases hb : v.bytesAt? file with
  | some bytes =>
    have hbytes := harmless.bytesAt? (fun _ h => h.elim) hr hb
    rw [bytesAt?_unlock] at hbytes
    exact ⟨hbytes, isDirectory_of_bytesAt? hbytes⟩
  | none =>
    have hrecord : v.lookup (s.site v path).record ≠ none := by
      refine lookup_record_of_present hr (hp.resolve_left ?_) ha
      obtain ⟨e, hf⟩ := find_of_bytesAt?_none hd hb
      simp [present, hf]
    have hfind : w.find file = v.find file := by
      rw [← find_unlock w lease.handle]
      refine find_congr harmless.here (fun l => ?_) fun dir name slash hl => harmless.elsewhere hw fun he => ?_
      · rcases harmless.entry l with he | ⟨hway, hn, -⟩ | ⟨rfl, -, hdir, id, hfile⟩ | ⟨hq, -⟩
        · exact Or.inl he
        · rw [lookup_of_walk hw hway] at hn
          cases hn
        · rcases hv : v.lookup (s.site v path).record with _ | ⟨_ | ⟨id', content⟩⟩
          · exact absurd hv hrecord
          · exact absurd hv hdir
          · exact Or.inr ⟨⟨id', content, rfl⟩, id, _, hfile⟩
        · exact hq.elim
      · exact (leads_of_locate hr hl).file_not_record ⟨_, _, he⟩
    unfold Volume.bytesAt? at hb ⊢
    unfold isDirectory at hd ⊢
    rw [hfind]
    exact ⟨hb, hd⟩

/-- What is served under a lease is what the record and the file say, and the lease leaves the record. -/
theorem serveChunk_of_acquire (hr : s.resolve request.path = .ok file) (hd : v.isDirectory file = false)
    (hp : v.present file = true ∨ v.present (Path.sidecar file) = true)
    (ha : s.acquire request.path v = (.ok lease, w)) (chunkSize : UInt32) :
    (s.serveChunk chunkSize request v).2 = w.unlock lease.handle ∧
      ServesAs chunkSize request file lease.record (v.bytesAt? file) (s.serveChunk chunkSize request v).1 := by
  obtain ⟨σ, g⟩ := acquire_ok ha
  have hfile : lease.file = file := Except.ok.inj (g.resolves.symm.trans hr)
  obtain ⟨hbytes, hdir⟩ := found_of_acquire hr hd hp ha
  have htracked : s.tracked request.path v = .ok true := by
    unfold tracked
    rw [hr]
    rcases hp with hp | hp <;> simp [Except.map, hp]
  have hrelease : Lease.release { lease with record := lease.record } w = w.unlock lease.handle := by
    rw [release_eq, if_pos g.written]
  have hserved : s.serveChunk chunkSize request v =
      ((if request.client = lease.record.client then
          readBytes w file request.offset (min request.size chunkSize)
        else .ok []).map fun data => .fileChunk ⟨request.path, lease.record.client, request.offset, data⟩,
        w.unlock lease.handle) := by
    unfold serveChunk withTracked acquireTracked
    rw [htracked]
    dsimp only
    rw [ha]
    dsimp only [during]
    rw [hrelease, hfile]
    split <;> rename_i h <;> split at h <;> cases h <;> simp_all
  rw [hserved]
  refine ⟨rfl, ?_⟩
  unfold ServesAs
  split
  · rw [← hbytes]
    exact ⟨_, readsAs hdir request.offset (min request.size chunkSize), rfl⟩
  · rfl

/-- A request for a piece of a path with a regular file, or with none. Where there is neither a file nor a
    record it fails, and nothing is changed. Otherwise, if the lease can be had, it is answered from the
    record and from the bytes of the file. If there was a record, nothing is changed; if there was none, or
    its file was empty, it is the initial one, and nothing else is changed. -/
theorem served_piece (hr : s.resolve request.path = .ok file) (hd : v.isDirectory file = false)
    (chunkSize : UInt32) :
    (v.present file = false → v.present (Path.sidecar file) = false →
      s.serveChunk chunkSize request v = (.error (.chunkRead file .notTracked), v)) ∧
    (v.present file = true ∨ v.present (Path.sidecar file) = true → ∀ lease u,
      s.acquire request.path v = (.ok lease, u) →
      ∃ r w, (s.serveChunk chunkSize request v).2 = w ∧
        ServesAs chunkSize request file r (v.bytesAt? file) (s.serveChunk chunkSize request v).1 ∧
        s.recorded? request.path w = some (.ok r) ∧
        ((s.recorded? request.path v = some (.ok r) ∧ w = v) ∨
          (r = .initial ∧ (∀ content, v.content? (s.site v request.path).record = some content →
            content.toList = []) ∧
            w.locked = v.locked ∧ ∀ l, l ≠ (s.site v request.path).record → w.lookup l = v.lookup l))) := by
  refine ⟨fun hfile hrecord => ?_, fun hp lease u ha => ?_⟩
  · have htracked : s.tracked request.path v = .ok false := by
      unfold tracked
      rw [hr]
      simp [Except.map, hfile, hrecord]
    have huntracked : s.untracked request.path = .chunkRead file .notTracked := by
      rw [untracked, (Path.resolve_eq_ok.mp hr).1]
    simp [serveChunk, withTracked, acquireTracked, htracked, huntracked]
  · obtain ⟨σ, g⟩ := acquire_ok ha
    obtain ⟨hw, hserves⟩ := serveChunk_of_acquire hr hd hp ha chunkSize
    obtain ⟨dir, hwalk⟩ := walk_of_present hr hd hp ha
    obtain ⟨hfound, hcase⟩ := acquire_of_walk hr hwalk ha
    have hafter : s.recorded? request.path (u.unlock lease.handle) = some (.ok lease.record) := by
      rw [← hfound]
      unfold recorded?
      rw [hr]
      dsimp only
      rw [find_unlock]
    refine ⟨lease.record, u.unlock lease.handle, hw, hserves, hafter, ?_⟩
    rcases hcase with ⟨hbefore, rfl⟩ | ⟨-, hinit, hempty⟩
    · exact Or.inl ⟨hbefore, unlock_lock g.unlocked⟩
    · have harmless : Harmless s request.path (fun _ => False) v (u.unlock lease.handle) := acquire_ok_harmless ha
      exact Or.inr ⟨hinit, hempty, harmless.locked, fun l hl => harmless.elsewhere hwalk hl⟩

end Store

/-! ### Samples -/

/-- A piece of a file without a record: as much of it as one chunk holds, and the initial record. -/
theorem sample_served_piece :
    (sampleSetup.store.serveChunk 2 ⟨"a", 0, 1, 3⟩ (sampleVolume [1, 2, 3, 4, 5])).1 =
      .ok (.fileChunk ⟨"a", 0, 1, [2, 3]⟩) ∧
      sampleSetup.store.recorded? "a"
        (sampleSetup.store.serveChunk 2 ⟨"a", 0, 1, 3⟩ (sampleVolume [1, 2, 3, 4, 5])).2 =
        some (.ok .initial) := by
  have hnone : sampleSetup.store.recorded? "a" (sampleVolume [1, 2, 3, 4, 5]) = none := rfl
  obtain ⟨lease, u, ha⟩ : ∃ lease u, sampleSetup.store.acquire "a" (sampleVolume [1, 2, 3, 4, 5]) =
    (.ok lease, u) := ⟨_, _, rfl⟩
  have hr : sampleSetup.store.resolve (ChunkRequest.mk "a" 0 1 3).path = .ok "r/a" := rfl
  have hd : (sampleVolume [1, 2, 3, 4, 5]).isDirectory "r/a" = false := rfl
  obtain ⟨-, served⟩ := Store.served_piece hr hd 2
  obtain ⟨r, w, rfl, hserves, hrecord, ⟨hbefore, -⟩ | ⟨rfl, -⟩⟩ := served (Or.inl rfl) lease u ha
  · cases hnone.symm.trans hbefore
  · refine ⟨?_, hrecord⟩
    obtain ⟨read, hread, hanswer⟩ := hserves
    rw [hanswer, show read = .ok [2, 3] from hread]
    rfl

/-- A file as long as a file can be, and an empty record file without a file. -/
def longVolume : Volume where
  levels := ⟨[(1, ⟨[(["r"], .directory)]⟩),
    (2, ⟨[(["r", "a"], .file 0 ⟨[.hole maxSize]⟩), (["r", ".a.tsmeta"], .file 1 (.ofBytes Record.initial.encode)),
      (["r", ".e.tsmeta"], .file 2 .empty)]⟩)]⟩
  nextId := 3
  locked := []
  here := []

/-- Not every piece of a file is served, and a request can write a record where no file is. -/
theorem long_tail_refused :
    (¬∀ (s : Store) (chunkSize : UInt32) (request : ChunkRequest) (v u : Volume) (file : String)
      (bytes : Bytes) (r : Record) (lease : Lease), s.resolve request.path = .ok file → v.bytesAt? file = some bytes →
        s.recorded? request.path v = some (.ok r) → request.client = r.client →
        s.acquire request.path v = (.ok lease, u) →
        (s.serveChunk chunkSize request v).1 = .ok (.fileChunk ⟨request.path, r.client, request.offset,
          (bytes.take (min (request.offset.toNat + (min request.size chunkSize).toNat) bytes.length)).drop
            request.offset.toNat⟩)) ∧
    ¬∀ (s : Store) (chunkSize : UInt32) (request : ChunkRequest) (v u : Volume) (file : String) (lease : Lease),
      s.resolve request.path = .ok file → v.present file = false → s.acquire request.path v = (.ok lease, u) →
        (s.serveChunk chunkSize request v).2.bytesAt? (Path.sidecar file) = v.bytesAt? (Path.sidecar file) := by
  refine ⟨fun hall => ?_, fun hall => ?_⟩
  · have hfind : longVolume.find "r/a" = .ok (["r", "a"], .file 0 ⟨[.hole maxSize]⟩) := rfl
    have hrecord : Store.recorded? ⟨"r"⟩ "a" longVolume = some (.ok .initial) := rfl
    have hanswer : (Store.serveChunk ⟨"r"⟩ 65536 ⟨"a", 0, 9223372036854775802, 100⟩ longVolume).1 =
        .error (.chunkRead "r/a" .valueTooLarge) := rfl
    obtain ⟨lease, u, ha⟩ : ∃ lease u, Store.acquire ⟨"r"⟩ "a" longVolume = (.ok lease, u) := ⟨_, _, rfl⟩
    have h := hall ⟨"r"⟩ 65536 ⟨"a", 0, 9223372036854775802, 100⟩ longVolume u "r/a" _ .initial lease rfl
      (bytesAt?_eq_some.mpr ⟨_, _, _, hfind, rfl⟩) hrecord rfl ha
    rw [hanswer] at h
    cases h
  · obtain ⟨lease, u, ha⟩ : ∃ lease u, Store.acquire ⟨"r"⟩ "e" longVolume = (.ok lease, u) := ⟨_, _, rfl⟩
    have h := hall ⟨"r"⟩ 65536 ⟨"e", 0, 0, 100⟩ longVolume u "r/e" lease rfl rfl ha
    have hbefore : longVolume.bytesAt? (Path.sidecar "r/e") = some [] := rfl
    have hafter : (Store.serveChunk ⟨"r"⟩ 65536 ⟨"e", 0, 0, 100⟩ longVolume).2.bytesAt? (Path.sidecar "r/e") =
        some Record.initial.encode := rfl
    rw [hbefore, hafter] at h
    exact absurd h (by decide)

end TreeReplica
