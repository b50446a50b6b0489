import TreeReplica.Proofs.Staging
import TreeReplica.Proofs.Transfer.Gathering

/-! A chunk installs everything or nothing. What a transfer has staged are the bytes that its chunks supplied,
    at each offset the last one (`Transfer.Supplied`). So where a chunk completes a transfer, and content,
    record and answer change, all of the file is what the peer supplied; and otherwise no record and no file
    changes (`Node.Endures.all_or_nothing`). -/

namespace TreeReplica
open Volume

/-! ### What chunks supply -/

/-- The byte that a chunk has for an offset. -/
def FileChunk.byteAt? (chunk : FileChunk) (i : Nat) : Option UInt8 :=
  if chunk.offset.toNat ≤ i then chunk.data[i - chunk.offset.toNat]? else none

/-- The byte that came last for an offset. -/
def lastByteAt? (chunks : List FileChunk) (i : Nat) : Option UInt8 := chunks.reverse.findSome? (·.byteAt? i)

section Supplied
variable {chunks : List FileChunk} {chunk : FileChunk} {i : Nat}

theorem FileChunk.byteAt?_of_mem (hi : chunk.offset.toNat ≤ i ∧ i < chunk.offset.toNat + chunk.data.length) :
    ∃ byte, chunk.byteAt? i = some byte ∧ chunk.data[i - chunk.offset.toNat]? = some byte := by
  have hlt : i - chunk.offset.toNat < chunk.data.length := by omega
  refine ⟨chunk.data[i - chunk.offset.toNat], ?_, List.getElem?_eq_getElem hlt⟩
  rw [byteAt?, if_pos hi.1, List.getElem?_eq_getElem hlt]

theorem FileChunk.byteAt?_of_not_mem (hi : ¬(chunk.offset.toNat ≤ i ∧ i < chunk.offset.toNat + chunk.data.length)) :
    chunk.byteAt? i = none := by
  unfold byteAt?
  split
  · exact List.getElem?_eq_none (by omega)
  · rfl

theorem lastByteAt?_concat (chunks : List FileChunk) (chunk : FileChunk) (i : Nat) :
    lastByteAt? (chunks ++ [chunk]) i = (chunk.byteAt? i).or (lastByteAt? chunks i) := by
  rw [lastByteAt?, List.reverse_concat, List.findSome?_cons]
  cases chunk.byteAt? i <;> rfl

/-- What a transfer has staged is as long as its file, and wherever bytes have arrived it has the last ones. -/
structure Transfer.Supplied (t : Transfer) (chunks : List FileChunk) (content : Content) : Prop where
  bounded : t.size.toNat ≤ maxSize
  length : content.toList.length = t.size.toNat
  apart : Ranges.Apart t.received
  client : ∀ c ∈ chunks, c.client = t.client
  latest : ∀ i, Ranges.Holds t.received i → ∃ byte, lastByteAt? chunks i = some byte ∧
    content.toList[i]? = some byte

namespace Transfer
variable {t : Transfer} {content : Content}

theorem Supplied.note (s : t.Supplied chunks content) (hf : t.fault? chunk = none) :
    (t.note chunk).2.Supplied (chunks ++ [chunk]) (content.write chunk.offset.toNat chunk.data) := by
  obtain ⟨outstanding, hn⟩ := t.note_snd chunk
  obtain ⟨hstop, hle⟩ := reach_of_fault? hf s.bounded
  have hfits : chunk.offset.toNat + chunk.data.length ≤ content.toList.length := s.length ▸ hle
  rw [hn]
  refine ⟨s.bounded, by rw [Content.length_write hfits, s.length], s.apart.cover, fun c hc => ?_, fun i hi => ?_⟩
  · rcases List.mem_append.mp hc with hc | hc
    · exact s.client c hc
    · rw [List.mem_singleton.mp hc]
      exact client_of_fault? hf
  · rw [Content.getElem?_write hfits, lastByteAt?_concat]
    by_cases hin : chunk.offset.toNat ≤ i ∧ i < chunk.offset.toNat + chunk.data.length
    · obtain ⟨byte, hbyte, hdata⟩ := FileChunk.byteAt?_of_mem hin
      exact ⟨byte, by rw [hbyte]; rfl, by rw [if_pos hin, hdata]⟩
    · rw [FileChunk.byteAt?_of_not_mem hin, if_neg hin, Option.none_or]
      rcases (Ranges.mem_cover s.apart i).mp hi with hi | hi
      · exact s.latest i hi
      · exact absurd (hstop ▸ hi) hin

theorem Supplied.complete (s : t.Supplied chunks content) (hc : t.complete = true) :
    content.size = t.size.toNat ∧
      ∀ i < t.size.toNat, ∃ byte, lastByteAt? chunks i = some byte ∧ content.toList[i]? = some byte :=
  ⟨by rw [Content.size_eq, s.length], fun i hi => s.latest i (holds_of_complete hc hi)⟩

end Transfer

end Supplied

/-! ### What changes -/

/-- Every record and every file is as it was, but those at the sites in `Q`, and staging files. -/
structure Volume.Unchanged (Q : Site → Prop) (v w : Volume) : Prop where
  recordAt : ∀ σ, ¬Q σ → w.recordAt σ = v.recordAt σ
  recorded : ∀ σ r, ¬Q σ → v.record? σ = some r → w.record? σ = some r
  content : ∀ l, ¬RecordPlace l → ¬StagingPlace l → (∀ σ, Q σ → l ≠ σ.file) → w.content? l = v.content? l

section Unchanged
variable {Q : Site → Prop} {s : Store} {u v w : Volume} {path : String} {σ : Site} {fresh : Bool} {r : Record}

theorem Volume.Unchanged.trans (h₁ : Unchanged Q u v) (h₂ : Unchanged Q v w) : Unchanged Q u w where
  recordAt σ hσ := (h₂.recordAt σ hσ).trans (h₁.recordAt σ hσ)
  recorded σ r hσ hr := h₂.recorded σ r hσ (h₁.recorded σ r hσ hr)
  content l hr hs hl := (h₂.content l hr hs hl).trans (h₁.content l hr hs hl)

theorem Volume.Kept.unchanged (h : Kept StagingPlace v w) (Q : Site → Prop) : Unchanged Q v w where
  recordAt σ _ := h.recordAt_staging σ
  recorded σ r _ hr := by rw [h.record? σ.record_not_staging, hr]
  content l _ hs _ := h.content? hs

theorem acquire_error_unchanged {e : Fault} (ha : s.acquire path v = (.error e, w)) (Q : Site → Prop) :
    Unchanged Q v w where
  recordAt σ _ := acquire_error_recordAt ha σ
  recorded σ r _ hr := by
    obtain ⟨r', hr'⟩ := Option.isSome_iff_exists.mp ((acquire_error_lasts ha).recorded σ (by rw [hr]; rfl))
    have same := acquire_error_recordAt ha σ
    rw [recordAt_of_record? hr, recordAt_of_record? hr'] at same
    rw [hr', same]
  content l hr _ _ := (Store.acquire_error_kept ha).content? fun ⟨σ, hl, _⟩ => hr (hl ▸ σ.recordPlace_record)

theorem Leased.unchanged {P : Location → Prop} {r' : Record} (h : Leased s path P v w σ fresh r r')
    (hP : ∀ l, P l → StagingPlace l ∨ l = σ.file) : Unchanged (· = σ) v w where
  recordAt τ hτ := (h.mono hP).elsewhere hτ
  recorded τ r₀ hτ hr := by
    rw [h.kept.record? fun hl => ?_, hr]
    rcases hl with hl | he
    · rcases hP _ hl with hs | he
      · exact τ.record_not_staging hs
      · exact h.leads.file_not_record (he ▸ τ.recordPlace_record)
    · exact hτ (Site.record_injective he)
  content l hr hs hl := h.kept.content? fun hc => by
    rcases hc with hc | he
    · exact (hP l hc).elim hs (hl σ rfl)
    · exact hr (he ▸ σ.recordPlace_record)

/-- A lease that leaves the record as it found it changes nothing. -/
theorem Leased.unmoved {P : Location → Prop} (h : Leased s path P v w σ fresh r r) (hP : ∀ l, P l → StagingPlace l)
    (Q : Site → Prop) : Unchanged Q v w where
  recordAt τ _ := by
    by_cases hτ : τ = σ
    · rw [hτ, h.begins.1, recordAt_of_record? h.after]
    · exact (h.unchanged fun l hl => Or.inl (hP l hl)).recordAt τ hτ
  recorded τ r₀ _ hr := by
    by_cases hτ : τ = σ
    · subst hτ
      rw [h.after, (h.found hr).2]
    · exact (h.unchanged fun l hl => Or.inl (hP l hl)).recorded τ r₀ hτ hr
  content l hr hs _ :=
    h.kept.content? fun hc => hc.elim (fun hl => hs (hP l hl)) fun he => hr (he ▸ σ.recordPlace_record)

end Unchanged

/-! ### Ending a transfer -/

/-- A transfer is in place: its content is the file's, and the record and the answer say so. -/
structure Installed (s : Store) (t : Transfer) (content : Content) (v : Volume)
    (answer : Except Fault (List Message)) (w : Volume) (σ : Site) : Prop where
  leads : s.Leads w t.path σ
  file : w.content? σ.file = some content
  others : Unchanged (· = σ) v w
  settled : (∃ base, t.pull = .peerEdit base ∧ (v.recordAt σ).base = base ∧ (v.recordAt σ).pending = false ∧
      w.record? σ = some ⟨base + 1, 0, .synced⟩ ∧ answer = .ok [.commit t.path ⟨base, base + 1, t.client⟩]) ∨
    ∃ remote, t.pull = .catchUp remote ∧ (v.recordAt σ).base < remote ∧ (v.recordAt σ).state = .stale ∧
      w.record? σ = some ⟨remote, 0, .synced⟩ ∧ answer = .ok []

section Installed
variable {s : Store} {t : Transfer} {u v w : Volume} {content : Content} {answer : Except Fault (List Message)}
  {σ : Site}

/-- What was staged before changes nothing of this. -/
theorem Installed.behind (hk : Kept StagingPlace u v) (h : Installed s t content v answer w σ) :
    Installed s t content u answer w σ where
  leads := h.leads
  file := h.file
  others := (hk.unchanged _).trans h.others
  settled := by
    have settled := h.settled
    rwa [hk.recordAt_staging] at settled

theorem Record.Idle.not_pending {r : Record} (h : r.Idle) : r.pending = false := by
  rcases h with ⟨hc, hs | hs⟩ <;> simp [pending, hc, hs]

/-- However the install of a complete transfer ends, it does all that it should or nothing. -/
theorem installAmid_all_or_nothing (x : Option Mishap) (hp : StagingPlace t.staging.location)
    (hread : v.read? t.staging = some content) :
    (Unchanged (fun _ => False) v (s.installAmid x t v).2 ∧ ∃ e, (s.installAmid x t v).1 = .error e) ∨
      ∃ σ, Installed s t content v (s.installAmid x t v).1 (s.installAmid x t v).2 σ := by
  rcases s.installAmid_cases x t v hp with ⟨e, w, ha, hw⟩ |
    ⟨σ, fresh, r, w, -, ⟨e, hw, hl⟩ | ⟨r', replies, staged, hw, hs, hl, hstaged, hlook⟩⟩ <;> rw [hw]
  · exact Or.inl ⟨(acquire_error_unchanged ha _).trans ((discard_staging w hp).unchanged _), e, rfl⟩
  · exact Or.inl ⟨hl.unmoved (fun l he => he ▸ hp) _, e, rfl⟩
  · have others := hl.unchanged fun l hl => hl.imp (fun (he : l = t.staging.location) => he ▸ hp) id
    cases hread.symm.trans hstaged
    refine Or.inr ⟨σ, hl.leads, content?_eq_some.mpr ⟨_, hlook⟩, others, ?_⟩
    have before := hl.begins.1
    rcases settle_cases hs with ⟨hpull, idle, rfl, rfl⟩ | ⟨remote, hpull, stale, hlt, rfl, rfl⟩
    · refine Or.inl ⟨r.base, hpull, by rw [before], by rw [before]; exact idle.not_pending, ?_, rfl⟩
      rw [hl.after, Record.adoptEdits, idle.1]
    · have hmax : max r.base remote = remote := if_pos (UInt64.le_of_lt hlt)
      refine Or.inr ⟨remote, hpull, by rw [before]; exact hlt, by rw [before]; exact stale, ?_, rfl⟩
      rw [hl.after, Record.catchUp, hmax]

/-- A chunk changes no record and no file, and then at most asks for more, or it completes a transfer that is
    in place then. -/
theorem receiveChunkAmid_all_or_nothing (x : Option Mishap) {ts : Transfers} (chunk : FileChunk) (held : ts.Held v)
    (distinct : ts.Distinct) :
    (Unchanged (fun _ => False) v (s.receiveChunkAmid x chunk ts v).2.2 ∧
        ∀ replies, (s.receiveChunkAmid x chunk ts v).1 = .ok replies →
          ∀ reply ∈ replies, ∃ request, reply = .requestChunk request) ∨
      ∃ t content σ, ts.get? chunk.path = some t ∧ v.read? t.staging = some content ∧ t.fault? chunk = none ∧
        (t.note chunk).2.complete = true ∧
        Installed s (t.note chunk).2 (content.write chunk.offset.toNat chunk.data) v
          (s.receiveChunkAmid x chunk ts v).1 (s.receiveChunkAmid x chunk ts v).2.2 σ ∧
        (s.receiveChunkAmid x chunk ts v).2.1.get? chunk.path = none := by
  have placed := held.staged distinct
  rcases s.receiveChunkAmid_cases x chunk ts v with ⟨-, hw⟩ | ⟨t, ht, ⟨-, answer, w, hw, hk, told⟩ |
    ⟨hf, -, -, ⟨-, hw⟩ | ⟨hc, answer, w, hi, hw⟩⟩⟩ <;> rw [hw]
  · exact Or.inl ⟨(Kept.refl _ v).unchanged _, fun _ h => by cases h⟩
  · have hp := placed.of_get? ht
    refine Or.inl ⟨((hk.mono fun l he => he ▸ hp).trans (placed.drop chunk.path w).2).unchanged _,
      fun replies h reply hm => ?_⟩
    rw [(told replies h).1] at hm
    cases hm
  · refine Or.inl ⟨(modify_staging v (placed.of_get? ht) _).unchanged _, fun replies h reply hm => ?_⟩
    cases h
    obtain ⟨request, -, rfl⟩ := List.mem_map.mp hm
    exact ⟨request, rfl⟩
  · obtain ⟨-, hp, content, hread⟩ := held chunk.path t ht
    have written : Kept StagingPlace v (v.modify t.staging (·.write chunk.offset.toNat chunk.data)) :=
      modify_staging v hp _
    have hread' : (v.modify t.staging (·.write chunk.offset.toNat chunk.data)).read? (t.note chunk).2.staging =
        some (content.write chunk.offset.toNat chunk.data) := by
      rw [Transfer.staging_note, read?_eq_some, lookup_modify, hread]
      exact if_pos rfl
    rcases installAmid_all_or_nothing (s := s) x (t.staging_note chunk ▸ hp) hread' with
      ⟨unchanged, e, he⟩ | ⟨σ, installed⟩
    · rw [hi] at unchanged he
      refine Or.inl ⟨(written.unchanged _).trans unchanged, fun replies h => ?_⟩
      rw [he] at h
      cases h
    · rw [hi] at installed
      exact Or.inr ⟨t, content, σ, ht, hread, hf, hc,
        installed.behind written, by rw [Table.get?_erase, if_pos rfl]⟩

end Installed

/-! ### Runs -/

/-- A session has the transfer of a path that has this staging file, before an event and after it. -/
def Moment.Carries (x : Moment) (name path : String) (staging : Handle) : Prop :=
  (∃ t, (x.node.session name).transfers.get? path = some t ∧ t.staging = staging) ∧
    ∃ t, (x.next.session name).transfers.get? path = some t ∧ t.staging = staging

/-- With a notice the transfer of a session began that has this staging file, it has gone on since then, and
    these are the chunks that the session took for its path meanwhile. -/
def Moment.Since (h : List Moment) (name : String) (notice : NewVersion) (p : Pull) (staging : Handle)
    (chunks : List FileChunk) : Prop :=
  ∃ before x after t, h = before ++ x :: after ∧ x.Begins name notice p t ∧ t.staging = staging ∧
    (∀ y ∈ after, y.Carries name notice.path staging) ∧ chunks = after.filterMap (·.accepted? name notice.path)

section Since
variable {h : List Moment} {x : Moment} {name path : String} {notice : NewVersion} {p : Pull} {staging : Handle}
  {chunk : FileChunk} {chunks : List FileChunk} {t : Transfer}

theorem Moment.Leaves.carries (l : x.Leaves name path t) : x.Carries name path t.staging :=
  ⟨⟨t, l.before, rfl⟩, t, l.after, rfl⟩

theorem Moment.Feeds.carries (f : x.Feeds name chunk t) : x.Carries name chunk.path t.staging :=
  ⟨⟨t, f.held, rfl⟩, _, f.after, t.staging_note chunk⟩

theorem Moment.Begins.since (b : x.Begins name notice p t) : Moment.Since (h ++ [x]) name notice p t.staging [] :=
  ⟨h, x, [], t, rfl, b, rfl, List.forall_mem_nil _, rfl⟩

theorem Moment.Since.later (s : Moment.Since h name notice p staging chunks)
    (carries : x.Carries name notice.path staging) :
    Moment.Since (h ++ [x]) name notice p staging (chunks ++ (x.accepted? name notice.path).toList) := by
  obtain ⟨before, y, after, t, rfl, b, hs, goesOn, rfl⟩ := s
  refine ⟨before, y, after ++ [x], t, by simp, b, hs, ?_, ?_⟩
  · intro z hz
    rcases List.mem_append.mp hz with hz | hz
    · exact goesOn z hz
    · rw [List.mem_singleton.mp hz]
      exact carries
  · rw [List.filterMap_append]
    cases hx : x.accepted? name notice.path <;> simp [hx]

end Since

namespace Node

section Runs
variable {u : Setup} {m : Node} {v w w₀ : Volume} {h : List Moment} {name path : String} {t : Transfer}

/-- A transfer is of the version that was announced, and has staged what the chunks since then supplied. -/
def Feeding (h : List Moment) (name path : String) (t : Transfer) (content : Content) : Prop :=
  ∃ notice p chunks, Moment.Since h name notice p t.staging chunks ∧ notice.path = path ∧ t.pull = p ∧
    t.client = notice.client ∧ t.size = notice.size ∧ t.Supplied chunks content

theorem Endures.fed (run : Endures ⟨u, .empty⟩ v h m w) (ht : (m.session name).transfers.get? path = some t) :
    ∃ content, w.read? t.staging = some content ∧ Feeding h name path t content := by
  refine run.transfers (I := Feeding) (fun {h x name path t content} leaves fed => ?_)
    (fun {h x name notice p t content} _ b hread => ?_) (fun {h x name chunk t content} f fed => ?_) ht
  · obtain ⟨notice, p, chunks, since, rfl, hp, hc, hs, supplied⟩ := fed
    refine ⟨notice, p, chunks, ?_, rfl, hp, hc, hs, supplied⟩
    have later := since.later leaves.carries
    rwa [leaves.accepts, Option.toList_none, List.append_nil] at later
  · obtain ⟨outstanding, hreq⟩ := t.requests_snd u.config.chunkSize
    obtain ⟨content', hread', hblank⟩ := b.began.blank
    cases hread.symm.trans hread'
    refine ⟨notice, p, [], Transfer.staging_requests t u.config.chunkSize ▸ b.since, rfl, ?_⟩
    rw [hreq]
    refine ⟨b.began.pull, b.began.client, b.began.size, by rw [b.began.size]; exact b.bounded,
      by rw [hblank, b.began.size, List.length_replicate], by rw [b.began.received]; trivial,
      fun c hc => (by cases hc), fun i hi => ?_⟩
    rw [b.began.received] at hi
    obtain ⟨range, hrange, -⟩ := hi
    cases hrange
  · obtain ⟨notice, p, chunks, since, hpath, hp, hc, hs, supplied⟩ := fed
    have later := since.later (hpath ▸ f.carries)
    rw [hpath, f.accepted?, Option.toList_some] at later
    obtain ⟨outstanding, hn⟩ := t.note_snd chunk
    refine ⟨notice, p, chunks ++ [chunk], t.staging_note chunk ▸ later, hpath, ?_, ?_, ?_, supplied.note f.fault⟩
    · rw [Transfer.pull_note, hp]
    · rw [Transfer.client_note, hc]
    · rw [hn, hs]

/-- A chunk installs everything or nothing, whatever records and files have become, and also when it meets a
    mishap of the disk. Either no record and no file changes, and the answer at most asks for more. Or the
    chunk completes the transfer that the session has for its path: the file has as many bytes as the notice
    said with which the transfer began, at each offset the one that came last in a chunk of the announced
    count since then; the record is settled and the answer says so; nothing else has changed; and the transfer
    is over. -/
theorem Endures.all_or_nothing (run : Endures ⟨u, .empty⟩ v h m w)
    (others : Restaged (fun _ => False) w w₀) (name : String) (chunk : FileChunk)
    {answer : Except Fault (List Message)} {ts : Transfers} {w₁ : Volume}
    (hx : u.store.receiveChunk chunk (m.session name).transfers w₀ = (answer, ts, w₁) ∨
      ∃ x, u.store.receiveChunkAmid (some x) chunk (m.session name).transfers w₀ = (answer, ts, w₁)) :
    (Unchanged (fun _ => False) w₀ w₁ ∧
        ∀ replies, answer = .ok replies → ∀ reply ∈ replies, ∃ request, reply = .requestChunk request) ∨
      ∃ t notice p chunks σ content, (m.session name).transfers.get? chunk.path = some t ∧
        Moment.Since h name notice p t.staging chunks ∧ notice.path = chunk.path ∧
        (∀ c ∈ chunks ++ [chunk], c.client = notice.client) ∧
        u.store.Leads w₁ chunk.path σ ∧ w₁.content? σ.file = some content ∧ content.size = notice.size.toNat ∧
        (∀ i < notice.size.toNat, ∃ byte, lastByteAt? (chunks ++ [chunk]) i = some byte ∧
          content.toList[i]? = some byte) ∧
        ((p = .peerEdit notice.base ∧ (w₀.recordAt σ).base = notice.base ∧ (w₀.recordAt σ).pending = false ∧
            w₁.record? σ = some ⟨notice.base + 1, 0, .synced⟩ ∧
            answer = .ok [.commit chunk.path ⟨notice.base, notice.base + 1, notice.client⟩]) ∨
          p = .catchUp notice.base ∧ (w₀.recordAt σ).base < notice.base ∧ (w₀.recordAt σ).state = .stale ∧
            w₁.record? σ = some ⟨notice.base, 0, .synced⟩ ∧ answer = .ok []) ∧
        Unchanged (· = σ) w₀ w₁ ∧ ts.get? chunk.path = none := by
  obtain ⟨x, hx⟩ : ∃ x, u.store.receiveChunkAmid x chunk (m.session name).transfers w₀ = (answer, ts, w₁) :=
    hx.elim (fun hx => ⟨none, (Store.receiveChunkAmid_none ..).trans hx⟩) fun ⟨x, hx⟩ => ⟨some x, hx⟩
  have ho := (run.orderly (orderly_start u v)).1
  have same : ∀ {path t}, (m.session name).transfers.get? path = some t →
      w₀.read? t.staging = w.read? t.staging := fun ht =>
    others.read? (ho.held name _ _ ht).2.1 id
  have held : (m.session name).transfers.Held w₀ := fun path t ht => by
    obtain ⟨hpath, hp, content, hread⟩ := ho.held name path t ht
    exact ⟨hpath, hp, content, (same ht).trans hread⟩
  rcases receiveChunkAmid_all_or_nothing (s := u.store) x chunk held (ho.distinct name) with nothing |
    ⟨t, content, σ, ht, hread, hf, hc, installed, gone⟩
  · rw [hx] at nothing
    exact Or.inl nothing
  rw [hx] at installed gone
  -- What is installed is what the run says that the transfer staged, with this chunk.
  obtain ⟨content', hread', notice, p, chunks, since, hpath, hp, hclient, hsize, supplied⟩ := run.fed ht
  cases hread.symm.trans ((same ht).trans hread')
  have fed := supplied.note hf
  obtain ⟨hlength, latest⟩ := fed.complete hc
  have htpath : (t.note chunk).2.path = chunk.path := (t.path_note chunk).trans (ho.held name _ t ht).1
  have htclient : (t.note chunk).2.client = notice.client := (t.client_note chunk).trans hclient
  have htsize : (t.note chunk).2.size = notice.size := by
    obtain ⟨outstanding, hn⟩ := t.note_snd chunk
    rw [hn, hsize]
  have htpull : (t.note chunk).2.pull = p := (t.pull_note chunk).trans hp
  rw [htsize] at hlength latest
  refine Or.inr ⟨t, notice, p, chunks, σ, _, ht, since, hpath, htclient ▸ fed.client,
    htpath ▸ installed.leads, installed.file, hlength, latest, ?_, installed.others, gone⟩
  have settled := installed.settled
  rw [htpull, htpath, htclient] at settled
  obtain ⟨_, _, _, _, _, begins, -⟩ := since
  rcases settled with ⟨base, hpeer, before⟩ | ⟨remote, hahead, before⟩ <;>
    rcases begins.pulls with h | h <;> subst h
  · cases hpeer
  · cases hpeer
    exact Or.inl ⟨rfl, before⟩
  · cases hahead
    exact Or.inr ⟨rfl, before⟩
  · cases hahead

end Runs

/-- Of three announced bytes the first two have come. -/
def sampleHalf : List Event :=
  [.message "peer" (.newVersion ⟨"a", 0, 1, 3⟩), .message "peer" (.fileChunk ⟨"a", 1, 0, [7, 8]⟩)]

def sampleHalfway : Node × Volume := Node.run sampleHalf ⟨sampleSetup, .empty⟩ (sampleVolume [])

/-- The last two bytes come, of which the first was there already. -/
def sampleLast : FileChunk := ⟨"a", 1, 1, [9, 10]⟩

theorem sample_all_or_nothing :
    Endures ⟨sampleSetup, .empty⟩ (sampleVolume []) (moments sampleHalf ⟨sampleSetup, .empty⟩ (sampleVolume []))
        sampleHalfway.1 sampleHalfway.2 ∧
      Restaged (fun _ => False) sampleHalfway.2 sampleHalfway.2 ∧
      ∃ ts w σ content, sampleSetup.store.receiveChunk sampleLast (sampleHalfway.1.session "peer").transfers
          sampleHalfway.2 = (.ok [.commit "a" ⟨0, 1, 1⟩], ts, w) ∧
        w.content? σ.file = some content ∧ content.toList = [7, 9, 10] ∧ w.record? σ = some ⟨1, 0, .synced⟩ ∧
        ts.get? "a" = none := by
  have run : Endures _ _ _ sampleHalfway.1 sampleHalfway.2 :=
    endures_of_passes (passes_run sampleHalf ⟨sampleSetup, .empty⟩ (sampleVolume []))
  have rests := Restaged.refl (fun _ => False) sampleHalfway.2
  have answers : (sampleSetup.store.receiveChunk sampleLast (sampleHalfway.1.session "peer").transfers
      sampleHalfway.2).1 = .ok [.commit "a" ⟨0, 1, 1⟩] := ok_of_toOption (by decide +kernel)
  refine ⟨run, rests, ?_⟩
  obtain ⟨answer, ts, w, hx⟩ : ∃ answer ts w, sampleSetup.store.receiveChunk sampleLast
    (sampleHalfway.1.session "peer").transfers sampleHalfway.2 = (answer, ts, w) := ⟨_, _, _, rfl⟩
  rw [hx] at answers
  cases answers
  rcases run.all_or_nothing rests "peer" sampleLast (Or.inl hx) with ⟨-, asks⟩ |
    ⟨t, notice, p, chunks, σ, content, -, since, -, -, leads, hfile, hsize, latest, settled, -, gone⟩
  · obtain ⟨request, h⟩ := asks _ rfl _ List.mem_cons_self
    cases h
  -- The one notice of the run is the first of its two moments.
  obtain ⟨before, y, after, t, hmoments, begins, -, -, rfl⟩ := since
  obtain ⟨first, second, hboth, hfirst, hsecond⟩ : ∃ first second,
      moments sampleHalf ⟨sampleSetup, .empty⟩ (sampleVolume []) = [first, second] ∧
      first.event = .message "peer" (.newVersion ⟨"a", 0, 1, 3⟩) ∧
      second.event = .message "peer" (.fileChunk ⟨"a", 1, 0, [7, 8]⟩) ∧
      second.accepted? "peer" "a" = some ⟨"a", 1, 0, [7, 8]⟩ :=
    ⟨_, _, rfl, rfl, rfl, by decide +kernel⟩
  rw [hboth] at hmoments
  have noticed : y = first ∧ after = [second] := by
    match before, hmoments with
    | [], h => cases h; exact ⟨rfl, rfl⟩
    | [_], h =>
      cases h
      have := hsecond.1.symm.trans begins.event
      cases this
    | _ :: _ :: rest, h => simp at h
  obtain ⟨rfl, rfl⟩ := noticed
  have hnotice := hfirst.symm.trans begins.event
  cases hnotice
  rw [List.filterMap_cons, hsecond.2, List.filterMap_nil] at latest
  have bytes : content.toList = [7, 9, 10] := by
    refine List.ext_getElem? fun i => ?_
    by_cases hi : i < 3
    · obtain ⟨byte, hlast, hget⟩ := latest i hi
      rw [hget, ← hlast]
      obtain rfl | rfl | rfl : i = 0 ∨ i = 1 ∨ i = 2 := by omega
      all_goals rfl
    · have hlen : content.toList.length = 3 := (Content.size_eq content).symm.trans hsize
      rw [List.getElem?_eq_none (by omega), List.getElem?_eq_none (Nat.not_lt.mp hi)]
  rcases settled with ⟨-, -, -, hrecord, -⟩ | ⟨-, -, -, -, h⟩
  · exact ⟨ts, w, σ, content, hx, hfile, bytes, hrecord, gone⟩
  · cases h

end Node

end TreeReplica
