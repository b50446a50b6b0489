import TreeReplica.Proofs.Session

/-! A tracked path as its users see it: a record and the bytes of a file. What the handlers do to both, one lemma
    for each. -/

namespace TreeReplica
open Volume

/-- The path has this record and a file of these bytes. -/
structure Tracked (s : Store) (path : String) (v : Volume) (r : Record) (bytes : Bytes) : Prop where
  record : s.recorded? path v = some (.ok r)
  file : ∃ file, s.resolve path = .ok file ∧ v.bytesAt? file = some bytes

/-- What a receiver says besides commits: it asks for pieces of the path, or refuses something. -/
def Asks (path : String) : Message → Prop
  | .requestChunk request => request.path = path
  | .nack _ => True
  | _ => False

namespace Tracked
variable {s : Store} {path : String} {P : Location → Prop} {v w : Volume} {σ : Site} {fresh : Bool}
  {r r₀ r' : Record} {bytes : Bytes}

theorem kept (t : Tracked s path v r bytes) (hk : Kept P v w)
    (hP : ∀ σ, s.Leads v path σ → v.record? σ = some r → ¬P σ.record ∧ ¬P σ.file) :
    Tracked s path w r bytes := by
  obtain ⟨file, hr, hb⟩ := t.file
  rcases recorded?_cases s path v with h | ⟨file', σ, id, content, hr', hlead, hf, h⟩
  · rw [t.record] at h
    cases h
  obtain ⟨hrec, hfile⟩ := hP σ hlead (hlead.record? t.record)
  obtain ⟨-, -, -, -, hlook⟩ := Volume.find_file hf
  refine ⟨?_, file, hr, by rw [hk.bytesAt? hlead hr hfile, hb]⟩
  rw [hk.recorded? hr' hf (hk.file hrec hlook), ← h, t.record]

/-- An operation under the lease of the path that does not touch its file. -/
theorem leased (t : Tracked s path v r bytes) (hl : Leased s path P v w σ fresh r₀ r') (hP : ¬P σ.file) :
    fresh = false ∧ r₀ = r ∧ Tracked s path w r' bytes := by
  obtain ⟨file, hr, hb⟩ := t.file
  rcases recorded?_cases s path v with h | ⟨-, τ, -, -, -, hlead, -, -⟩
  · rw [t.record] at h
    cases h
  obtain rfl : σ = τ := hl.leads.unique (hlead.kept hl.kept)
  obtain ⟨hfresh, hr₀, hrec⟩ := hl.recorded t.record
  have hne : ¬(P σ.file ∨ σ.file = σ.record) := fun h => h.elim hP hlead.record_ne_file.symm
  exact ⟨hfresh, hr₀, hrec, file, hr, by rw [hl.kept.bytesAt? hlead hr hne, hb]⟩

/-- An operation under the lease of the path that put content in the place of its file. -/
theorem installed {file : String} {id : Nat} {content : Content} (t : Tracked s path v r bytes)
    (hl : Leased s path P v w σ fresh r₀ r') (hr : s.resolve path = .ok file)
    (hf : w.find file = .ok (σ.file, .file id content)) : r₀ = r ∧ Tracked s path w r' content.toList := by
  obtain ⟨-, hr₀, hrec⟩ := hl.recorded t.record
  exact ⟨hr₀, hrec, file, hr, bytesAt?_eq_some.mpr ⟨_, _, _, hf, rfl⟩⟩

theorem acquire_error {p : String} {e : Fault} (t : Tracked s path v r bytes) (ha : s.acquire p v = (.error e, w)) :
    Tracked s path w r bytes := by
  refine t.kept (Store.acquire_error_kept ha) fun σ hlead hrec => ⟨?_, ?_⟩
  · rintro ⟨τ, he, hn⟩
    rw [← Site.record_injective he, hrec] at hn
    cases hn
  · rintro ⟨τ, he, -⟩
    exact hlead.file_not_record (he ▸ τ.recordPlace_record)

theorem staging (t : Tracked s path v r bytes) (hk : Kept StagingPlace v w) : Tracked s path w r bytes :=
  t.kept hk fun σ hlead _ => ⟨σ.record_not_staging, hlead.file_not_staging⟩

/-- As long as no lease is held, the lease of a tracked path can be had. -/
theorem acquires (t : Tracked s path v r bytes) (hu : v.locked = []) :
    ∃ lease w, s.acquire path v = (.ok lease, w) := by
  obtain ⟨lease, ha, -⟩ := Store.acquires_recorded t.record hu
  exact ⟨lease, _, ha⟩

/-! ### Where a path is edited -/

theorem report (t : Tracked s path v r bytes) (hu : v.locked = []) {e : LocalEdit} (he : e ≠ .deleted) :
    ∃ w, e.report s path v = (.ok (r.edit, LocalEdit.notice? path r.edit bytes.length), w) ∧
      Tracked s path w r.edit bytes ∧ w.locked = [] := by
  rcases e.report_cases s path v with ⟨err, w, ha, -⟩ | ⟨σ, fresh, r₀, w, file, hr, hl, hw⟩
  · obtain ⟨lease, w', ha'⟩ := t.acquires hu
    rw [ha] at ha'
    cases ha'
  obtain ⟨hfresh, hr₀, t'⟩ := t.leased hl id
  have happly : e.apply fresh r₀ = r.edit := by
    rw [hfresh, hr₀]
    cases e with
    | deleted => exact absurd rfl he
    | _ => rfl
  obtain ⟨file', hr', hb⟩ := t'.file
  cases hr.symm.trans hr'
  obtain ⟨l, id, content, hf, rfl⟩ := bytesAt?_eq_some.mp hb
  have hsize : w.sizeOf file = .ok content.toList.length := by
    unfold Volume.sizeOf
    rw [hf, ← Content.size_eq]
  rw [happly] at hw t'
  rw [hsize] at hw
  exact ⟨w, hw, t', hl.kept.locked.trans hu⟩

theorem commits (t : Tracked s path v r bytes) (hu : v.locked = []) {c : Commit} (hc : r.commit c = .ok r') :
    ∃ w, s.committed path c v = (.ok r', w) ∧ Tracked s path w r' bytes ∧ w.locked = [] := by
  rcases s.committed_cases path c v with ⟨err, w, ha, -⟩ |
    ⟨σ, fresh, r₀, w, ⟨why, hc', hl, -⟩ | ⟨r₁, hc', hl, hw⟩⟩
  · obtain ⟨lease, w', ha'⟩ := t.acquires hu
    rw [ha] at ha'
    cases ha'
  · obtain ⟨-, rfl, -⟩ := t.leased hl id
    rw [hc] at hc'
    cases hc'
  · obtain ⟨-, rfl, t'⟩ := t.leased hl id
    rw [hc] at hc'
    cases hc'
    exact ⟨w, hw, t', hl.kept.locked.trans hu⟩

/-- What is served of the path is a piece of its file, with the edit count of its record. -/
theorem serveChunk (t : Tracked s path v r bytes) (chunkSize : UInt32) {request : ChunkRequest}
    (hp : request.path = path) :
    ∃ answer w, s.serveChunk chunkSize request v = (answer, w) ∧ Tracked s path w r bytes ∧ w.locked = v.locked ∧
      ∀ reply, answer = .ok reply → ∃ data, reply = .fileChunk ⟨path, r.client, request.offset, data⟩ ∧
        (data ≠ [] → data <+: bytes.drop request.offset.toNat) := by
  subst hp
  rcases s.serveChunk_cases chunkSize request v with ⟨e, hw⟩ | ⟨e, w, ha, hw⟩ |
    ⟨σ, fresh, r₀, w, answer, hw, hl, hanswer⟩
  · exact ⟨_, v, hw, t, rfl, fun _ h => by cases h⟩
  · exact ⟨_, w, hw, t.acquire_error ha, (Store.acquire_error_kept ha).locked, fun _ h => by cases h⟩
  · obtain ⟨-, rfl, t'⟩ := t.leased hl id
    refine ⟨answer, w, hw, t', hl.kept.locked, fun reply hreply => ?_⟩
    obtain ⟨file, data, hr, rfl, hread⟩ := hanswer reply hreply
    refine ⟨data, rfl, fun hd => ?_⟩
    obtain ⟨file', hr', hb⟩ := t'.file
    cases hr.symm.trans hr'
    split at hread
    · obtain ⟨all, hall, hpiece⟩ := readBytes_piece hread hd
      rw [hb] at hall
      cases hall
      exact hpiece
    · exact absurd hread hd

/-! ### Where a path is pulled -/

/-- A notice of the base of a synced record, or of an earlier one, leaves record and file, but for content of
    no bytes, which is put in place at once. -/
theorem announced (t : Tracked s path v r bytes) (hc : r.client = 0) (hs : r.state = .synced)
    {ts : Transfers} (hts : ts.Staged) (chunkSize : UInt32) {notice : NewVersion} (hp : notice.path = path)
    (hle : notice.base ≤ r.base) :
    (Tracked s path (s.announced chunkSize notice ts v).2.2 r bytes ∧
        ∀ replies, (s.announced chunkSize notice ts v).1 = .ok replies → ∀ m ∈ replies, Asks path m) ∨
      (notice.base = r.base ∧ notice.size = 0 ∧
        Tracked s path (s.announced chunkSize notice ts v).2.2 r.adoptEdits [] ∧
        (s.announced chunkSize notice ts v).1 = .ok [.commit path ⟨r.base, r.base + 1, notice.client⟩]) := by
  subst hp
  obtain ⟨hsame, hpull⟩ := Record.announced_of_synced hc hs hle
  rcases s.announced_cases chunkSize notice ts v with ⟨e, w, ha, hw⟩ |
    ⟨σ, fresh, r₀, w, ⟨answer, hw, hnone, hl⟩ |
    ⟨p, x, -, -, hw, hl, began, -⟩ | ⟨p, x, r', replies, file, content, hplan, hz, hw, hpath, -, hclient,
      hset, hl, hr, hf, hempty⟩⟩
  · rw [hw]
    exact Or.inl ⟨t.acquire_error ha, fun _ h => by cases h⟩
  · obtain ⟨-, rfl, t'⟩ := t.leased hl fun h => hl.leads.file_not_staging h.1
    rw [hsame] at t'
    rw [hw]
    refine Or.inl ⟨t', fun replies h m hm => ?_⟩
    rcases hnone with ⟨rfl, -⟩ | ⟨e, rfl, -⟩ <;> cases h
    cases hm
  · obtain ⟨-, rfl, t'⟩ := t.leased hl fun h => hl.leads.file_not_staging h.1
    rw [hsame] at t'
    rw [hw]
    refine Or.inl ⟨t'.staging (hts.add (began.requests chunkSize).unused.1 w).2, fun replies h m hm => ?_⟩
    cases h
    obtain ⟨request, hrequest, rfl⟩ := List.mem_map.mp hm
    exact (Transfer.path_of_mem_requests hrequest).trans began.path
  · obtain ⟨rfl, t'⟩ := t.installed hl hr hf
    rw [hsame] at hset
    obtain ⟨-, rfl, rfl⟩ := Record.settle_of_synced hs hset
    rw [hempty] at t'
    rw [hw, ← hclient, ← hpath]
    exact Or.inr ⟨(hpull p hplan).2, hz, hpath ▸ t', rfl⟩

/-- A chunk leaves record and file, unless it completes a transfer of the base of the record: then the file has what
    the transfer has gathered. -/
theorem receiveChunk (t : Tracked s path v r bytes) (hs : r.state = .synced) {ts : Transfers}
    (hts : ts.Held v) (hd : ts.Distinct) {chunk : FileChunk} (hp : chunk.path = path) :
    (Tracked s path (s.receiveChunk chunk ts v).2.2 r bytes ∧
        ∀ replies, (s.receiveChunk chunk ts v).1 = .ok replies → ∀ m ∈ replies, Asks path m) ∨
      ∃ x whole, ts.get? path = some x ∧ x.pull = .peerEdit r.base ∧
        Tracked s path (s.receiveChunk chunk ts v).2.2 r.adoptEdits whole ∧
        (s.receiveChunk chunk ts v).1 = .ok [.commit path ⟨r.base, r.base + 1, x.client⟩] ∧
        ∀ all, x.Gathers v all →
          (chunk.client = x.client → chunk.data ≠ [] → chunk.data <+: all.drop chunk.offset.toNat) →
          whole = all := by
  subst hp
  have staged := hts.staged hd
  rcases s.receiveChunk_cases chunk ts v with ⟨-, hw⟩ | ⟨x, hx, ⟨-, answer, hw, hnone⟩ |
    ⟨hf, hne, ⟨-, hw⟩ | ⟨hc, answer, w, hi, hw⟩⟩⟩
  · rw [hw]
    exact Or.inl ⟨t, fun _ h => by cases h⟩
  · rw [hw]
    exact Or.inl ⟨t.staging (staged.drop chunk.path v).2,
      fun replies h m hm => by rw [hnone replies h] at hm; cases hm⟩
  · rw [hw]
    refine Or.inl ⟨t.staging (modify_staging v (staged.of_get? hx) _), fun replies h m hm => ?_⟩
    cases h
    obtain ⟨request, hrequest, rfl⟩ := List.mem_map.mp hm
    exact (Transfer.note_fst (Option.mem_toList.mp hrequest)).1.trans (hts _ _ hx).1
  -- The transfer of the path is complete.
  rw [hw]
  have hpath : (x.note chunk).2.path = chunk.path := (x.path_note chunk).trans (hts _ _ hx).1
  have hplace : StagingPlace (x.note chunk).2.staging.location := x.staging_note chunk ▸ (hts _ _ hx).2.1
  have t₁ := t.staging (modify_staging v (staged.of_get? hx) (·.write chunk.offset.toNat chunk.data))
  rcases s.install_cases (x.note chunk).2 _ hplace with ⟨e, w', ha, hw'⟩ | ⟨σ, fresh, r₀, w', ⟨e, hw', hl, -⟩ |
    ⟨r', replies, file, content, hw', hset, hl, hr, hread, hfind⟩⟩ <;> rw [hi] at hw' <;> cases hw'
  · exact Or.inl ⟨(t₁.acquire_error ha).staging (discard_staging w' hplace), fun _ h => by cases h⟩
  · rw [hpath] at hl
    obtain ⟨-, rfl, t₂⟩ := t₁.leased hl fun h => hl.leads.file_not_staging (h ▸ hplace)
    exact Or.inl ⟨t₂, fun _ h => by cases h⟩
  · rw [hpath] at hl hr
    obtain ⟨rfl, t₂⟩ := t₁.installed hl hr hfind
    obtain ⟨hpull, rfl, rfl⟩ := Record.settle_of_synced hs hset
    refine Or.inr ⟨x, content.toList, hx, by rw [← hpull, x.pull_note], t₂, by rw [hpath, x.client_note],
      fun all g hpiece => ?_⟩
    obtain ⟨content', hread', hall⟩ := (g.note hf (hpiece (Transfer.client_of_fault? hf) hne)).complete hc
    rw [hread] at hread'
    cases hread'
    exact hall

end Tracked

end TreeReplica
