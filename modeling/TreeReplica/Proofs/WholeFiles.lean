import TreeReplica.Proofs.Sample
import TreeReplica.Proofs.Serving
import TreeReplica.Proofs.Session
import TreeReplica.Proofs.Transfer.Gathering

/-! Files arrive whole, as long as the base holds. A transfer that is fed the answers of one serving node puts in
    place what was announced, if no chunk was served after the base had moved or the path was deleted
    (`Node.whole_file`). Without that it may put pieces of two versions together: a chunk tells its edit count, and
    commits take the count back to where it was. -/

namespace TreeReplica
namespace Node
open Volume

/-! ### One transfer -/

/-- What the transfer with this staging file, if it is the one of the path, has gathered. -/
structure Gathering (name path : String) (h : Handle) (client : UInt64) (bytes : Bytes) (n : Node)
    (v : Volume) : Prop where
  old : h.id < v.nextId
  gathers : ∀ t, (n.session name).transfers.get? path = some t → t.staging = h →
    t.client = client ∧ t.Gathers v bytes

/-- The chunks of the path that come to the session at the edit count are pieces of these bytes. -/
def Pieces (name path : String) (client : UInt64) (bytes : Bytes) (e : Event) : Prop :=
  ∀ chunk, e = .message name (.fileChunk chunk) → chunk.path = path → chunk.client = client → chunk.data ≠ [] →
    chunk.data <+: bytes.drop chunk.offset.toNat

section Gathering
variable {name path : String} {h : Handle} {client : UInt64} {bytes : Bytes} {n m : Node} {v w : Volume}

/-- A transfer that stays as it is, and whose staging file is spared, keeps what it has gathered. -/
theorem Gathering.spares {n' : Node} {Q : Location → Prop}
    (g : Gathering name path h client bytes n v) (ho : n.Orderly v) (spares : Spares Q v w)
    (hkeep : ∀ t, (n'.session name).transfers.get? path = some t → t.staging = h →
      (n.session name).transfers.get? path = some t ∧ ¬Q t.staging.location) :
    Gathering name path h client bytes n' w where
  old := Nat.lt_of_lt_of_le g.old spares.next
  gathers t ht hs := by
    obtain ⟨ht, hq⟩ := hkeep t ht hs
    obtain ⟨hc, hg⟩ := g.gathers t ht hs
    exact ⟨hc, gathers_of_spares hg (ho.held name path t ht).2 spares hq⟩

theorem Gathering.turn {n' : Node} {msg : Message} (g : Gathering name path h client bytes n v) (ho : n.Orderly v)
    (turn : Turn msg (n.session name).transfers v (n'.session name).transfers w)
    (hp : Pieces name path client bytes (.message name msg)) : Gathering name path h client bytes n' w := by
  obtain ⟨_, _, -, spares, -⟩ := turn.touches (ho.held name)
  refine ⟨Nat.lt_of_lt_of_le g.old spares.next, fun t ht hs => ?_⟩
  rcases ho.follows turn ht with ⟨notice, p, -, -, -, began⟩ | ⟨t₀, ht₀, on⟩
  · -- The new staging file has a number that no earlier one has.
    have := began.numbered.1
    have := g.old
    rw [← hs] at this
    omega
  · obtain ⟨hc, hg⟩ := g.gathers t₀ ht₀ (on.staging ▸ hs)
    refine ⟨on.client.trans hc, on.gathers bytes hg fun chunk hm hpath hcount hd => ?_⟩
    exact hp chunk (by rw [hm]) hpath (hcount.trans hc) hd

theorem Gathering.event (g : Gathering name path h client bytes n v) (ho : n.Orderly v) (e : Event)
    (hp : Pieces name path client bytes e) : Gathering name path h client bytes (n.step e v).1 (n.step e v).2 := by
  cases e with
  | edit edit p =>
    have spares : Spares (fun _ => False) v (n.step (.edit edit p) v).2 := report_spares edit n.setup.store p v
    exact g.spares ho spares fun t ht _ => ⟨ht, id⟩
  | close other => exact g.spares ho (n.close_spares other v) fun t ht _ => ho.closed ht
  | message other msg =>
    have turn := answer_turn (ho.held other) n.setup msg
    by_cases hother : other = name
    · subst hother
      have htable := n.message_transfers other msg v other
      rw [if_pos rfl] at htable
      rw [← htable] at turn
      exact g.turn ho turn hp
    · obtain ⟨key, after, -, spares, -⟩ := turn.touches (ho.held other)
      refine g.spares ho spares fun t ht _ => ?_
      rw [n.message_transfers other msg v name, if_neg hother] at ht
      refine ⟨ht, fun hq => ?_⟩
      obtain ⟨old, hold, he⟩ := hq
      exact hother (ho.apart ht hold he).1.symm

theorem Gathering.evolves {allowed : Event → Prop} (g : Gathering name path h client bytes n v) (ho : n.Orderly v)
    (hp : ∀ e, allowed e → Pieces name path client bytes e) (he : Evolves allowed n v m w) :
    Gathering name path h client bytes m w := by
  induction he with
  | rest => exact g
  | event e ha he ih => exact ih.event (ho.evolves he) e (hp e ha)
  | use he kept ih =>
    have spares : Spares (fun _ => False) _ _ := kept.spares fun _ hp hl => absurd hp hl.2
    exact ih.spares (ho.evolves he) spares fun t ht _ => ⟨ht, id⟩

/-- What is put in place by a chunk is what its transfer has staged with it, once it is complete. -/
theorem replaced_by_chunk {chunk : FileChunk} {content : Content} (ho : n.Orderly v)
    (hr : n.Replaces (.message name (.fileChunk chunk)) v chunk.path content) :
    ∃ t, (n.session name).transfers.get? chunk.path = some t ∧ t.fault? chunk = none ∧ chunk.data ≠ [] ∧
      (t.note chunk).2.complete = true ∧
      (v.modify t.staging (·.write chunk.offset.toNat chunk.data)).read? (t.note chunk).2.staging =
        some content := by
  have staged := (ho.held name).staged (ho.distinct name)
  have untouched : ∀ {w : Volume}, (n.step (.message name (.fileChunk chunk)) v).2 = w → ¬Kept StagingPlace v w :=
    fun he hk => not_replaces_of_kept (he ▸ hk) (fun _ => Or.inl) hr
  rcases n.step_message name (.fileChunk chunk) v with he | he
  · exact absurd (.refl _ v) (untouched he)
  replace he : (n.step (.message name (.fileChunk chunk)) v).2 =
    (n.setup.store.receiveChunk chunk (n.session name).transfers v).2.2 := he
  rcases n.setup.store.receiveChunk_cases chunk (n.session name).transfers v with ⟨-, hw⟩ |
    ⟨t, ht, ⟨-, answer, hw, -⟩ |
    ⟨hf, hd, ⟨-, hw⟩ | ⟨hc, answer, w, hi, hw⟩⟩⟩ <;> rw [hw] at he <;> dsimp only at he
  · exact absurd (.refl _ v) (untouched he)
  · exact absurd (staged.drop chunk.path v).2 (untouched he)
  · exact absurd (modify_staging v (staged.of_get? ht) _) (untouched he)
  refine ⟨t, ht, hf, hd, hc, ?_⟩
  have hplace : StagingPlace (t.note chunk).2.staging.location := t.staging_note chunk ▸ staged.of_get? ht
  have hmod := modify_staging v (staged.of_get? ht) (·.write chunk.offset.toNat chunk.data)
  have leaves : ∀ {P : Location → Prop}, Kept P (v.modify t.staging (·.write chunk.offset.toNat chunk.data)) w →
      ¬∀ l, P l → StagingPlace l ∨ RecordPlace l := fun hk hP =>
    not_replaces_of_kept (he ▸ (hmod.mono fun _ => Or.inl).trans (hk.mono hP)) (fun _ => id) hr
  rcases n.setup.store.install_cases (t.note chunk).2 _ hplace with ⟨e, w', ha, hw'⟩ |
    ⟨σ, fresh, r, w', ⟨e, hw', hl, -⟩ |
    ⟨r', replies, file, content', hw', -, -, hres, hread, hfind⟩⟩ <;> rw [hi] at hw' <;> cases hw'
  · refine absurd (fun l hl => ?_) (leaves (((Store.acquire_error_kept ha).mono fun _ => Or.inl).trans
      ((discard_kept w' (t.note chunk).2.staging).mono fun _ => Or.inr)))
    rcases hl with ⟨σ, rfl, -⟩ | rfl
    · exact Or.inr σ.recordPlace_record
    · exact Or.inl hplace
  · refine absurd (fun l hl => ?_) (leaves hl.kept)
    rcases hl with rfl | rfl
    · exact Or.inl hplace
    · exact Or.inr σ.recordPlace_record
  · have hpath : (t.note chunk).2.path = chunk.path := (t.path_note chunk).trans (ho.held name chunk.path t ht).1
    rw [hpath] at hres
    rw [← he] at hfind
    rw [hr.content_eq hres hfind]
    exact hread

/-- What is put in place by a chunk that completes the transfer. -/
theorem Gathering.completed {chunk : FileChunk} {content : Content}
    (g : Gathering name path h client bytes n v) (ho : n.Orderly v)
    (hp : Pieces name path client bytes (.message name (.fileChunk chunk))) (hpath : chunk.path = path)
    (hcur : ∀ t, (n.session name).transfers.get? path = some t → t.staging = h)
    (hr : n.Replaces (.message name (.fileChunk chunk)) v path content) :
    content.toList = bytes ∧ chunk.client = client ∧ chunk.data ≠ [] := by
  subst hpath
  obtain ⟨t, ht, hf, hd, hc, hread⟩ := replaced_by_chunk ho hr
  obtain ⟨hclient, hg⟩ := g.gathers t ht (hcur t ht)
  have hcount : chunk.client = client := (Transfer.client_of_fault? hf).trans hclient
  obtain ⟨content', hread', hbytes⟩ := (hg.note hf (hp chunk rfl rfl hcount hd)).complete hc
  rw [hread] at hread'
  cases hread'
  exact ⟨hbytes, hcount, hd⟩

/-- What is put in place by an announcement is the content of no bytes that was announced. -/
theorem replaced_at_once {notice : NewVersion} {content : Content} (ho : n.Orderly v)
    (hr : n.Replaces (.message name (.newVersion notice)) v notice.path content) :
    notice.size = 0 ∧ content.toList = [] := by
  have staged := (ho.held name).staged (ho.distinct name)
  have untouched : ∀ {w : Volume} {P : Location → Prop}, (n.step (.message name (.newVersion notice)) v).2 = w →
      Kept P v w → ¬∀ l, P l → StagingPlace l ∨ RecordPlace l :=
    fun he hk hP => not_replaces_of_kept (he ▸ hk) hP hr
  rcases n.step_message name (.newVersion notice) v with he | he
  · exact absurd (fun _ h => h.elim) (untouched he (.refl (fun _ => False) v))
  replace he : (n.step (.message name (.newVersion notice)) v).2 =
    (n.setup.store.announced n.setup.config.chunkSize notice (n.session name).transfers v).2.2 := he
  rcases n.setup.store.announced_cases n.setup.config.chunkSize notice (n.session name).transfers v
    with ⟨e, w, ha, hw⟩ |
    ⟨σ, fresh, r, w, ⟨answer, hw, -, hl⟩ | ⟨p, t, -, -, hw, hl, ht, -⟩ |
      ⟨p, t, r', replies, file, content', -, hz, hw, -, -, -, -, -, hres, hfind, hempty⟩⟩ <;> rw [hw] at he <;>
    dsimp only at he
  · refine absurd (fun l hl => ?_) (untouched he (Store.acquire_error_kept ha))
    obtain ⟨σ, rfl, -⟩ := hl
    exact Or.inr σ.recordPlace_record
  · refine absurd (fun l hl => ?_) (untouched he hl.kept)
    rcases hl with hl | rfl
    · exact Or.inl hl.1
    · exact Or.inr σ.recordPlace_record
  · have hp : StagingPlace (t.requests n.setup.config.chunkSize).2.staging.location := (ht.requests _).unused.1
    refine absurd (fun l hl => ?_) (untouched he ((hl.kept.mono fun l => Or.inl).trans
      ((staged.add hp w).2.mono fun l => Or.inr)))
    rcases hl with (h | rfl) | h
    · exact Or.inl h.1
    · exact Or.inr σ.recordPlace_record
    · exact Or.inl h
  · rw [← he] at hfind
    exact ⟨hz, (congrArg _ (hr.content_eq hres hfind)).trans hempty⟩

end Gathering

/-! ### Served files -/

/-- A path that leads to `file` was announced after an edit, as version `r₀` and of a length that a file can
    have, and then `ds` happened. The edits do not take the count past what it can hold. -/
structure Announcing (s : Store) (chunkSize : UInt32) (path file : String) (v : Volume)
    (r₀ : Record) (notice : NewVersion) (ds : List Deed) : Prop where
  resolves : s.resolve path = .ok file
  report : ∃ e v₁, LocalEdit.report e s path v₁ = (.ok (r₀, some notice), v)
  size : ∀ bytes, v.bytesAt? file = some bytes → bytes.length ≤ maxSize
  serves : ∃ w, Serves s chunkSize v ds w
  counted : r₀.client.toNat + Deed.edits ds < UInt64.size

/-- The chunks of the path that come to the session are answers of the serving node. -/
def Fed (name path : String) (ds : List Deed) (e : Event) : Prop :=
  ∀ chunk, e = .message name (.fileChunk chunk) → chunk.path = path →
    ∃ request v, Deed.answered request (.ok (.fileChunk chunk)) v ∈ ds

/-- Whenever bytes of the path were served at the edit count of version `r₀`, the base was the one of `r₀`, and
    the path was not deleted. -/
def BaseHolds (s : Store) (path : String) (r₀ : Record) (ds : List Deed) : Prop :=
  ∀ request chunk v, Deed.answered request (.ok (.fileChunk chunk)) v ∈ ds → chunk.path = path →
    chunk.client = r₀.client → chunk.data ≠ [] →
    ∃ r, s.recorded? path v = some (.ok r) ∧ r.base = r₀.base ∧ r.state ≠ .deleted

/-- What any receiver puts in place for the notice has these bytes: at once, or with the last chunk of the transfer
    that the notice started, as long as this transfer is fed from what was served. -/
def ArrivesWhole (notice : NewVersion) (ds : List Deed) (bytes : Bytes) : Prop :=
  ∀ {u : Setup} {n : Node} {v₀ v : Volume} (name : String), Evolves (fun _ => True) ⟨u, .empty⟩ v₀ n v →
    let (n₁, v₁) := n.step (.message name (.newVersion notice)) v
    (∀ content, n.Replaces (.message name (.newVersion notice)) v notice.path content → content.toList = bytes) ∧
    ∀ t, (n₁.session name).transfers.get? notice.path = some t → v.lookup t.staging.location = none →
      ∀ m w, Evolves (Fed name notice.path ds) n₁ v₁ m w →
        (∀ t', (m.session name).transfers.get? notice.path = some t' → t'.staging = t.staging) →
        ∀ chunk content, chunk.path = notice.path → Fed name notice.path ds (.message name (.fileChunk chunk)) →
          m.Replaces (.message name (.fileChunk chunk)) w notice.path content → content.toList = bytes

section Served
variable {s : Store} {chunkSize : UInt32} {name path file : String} {v w : Volume} {r₀ : Record}
  {notice : NewVersion} {ds : List Deed}

theorem Announcing.pieces (a : Announcing s chunkSize path file v r₀ notice ds)
    (hb : BaseHolds s path r₀ ds) {chunk : FileChunk} (hf : Fed name path ds (.message name (.fileChunk chunk)))
    (hpath : chunk.path = path) (hclient : chunk.client = r₀.client) (hd : chunk.data ≠ []) :
    ∃ bytes, v.bytesAt? file = some bytes ∧ chunk.data <+: bytes.drop chunk.offset.toNat := by
  obtain ⟨e, v₁, report⟩ := a.report
  obtain ⟨w, serves⟩ := a.serves
  obtain ⟨σ, start, -⟩ := Since.announced a.resolves report
  obtain ⟨request, x, hmem⟩ := hf chunk rfl hpath
  obtain ⟨k, x₀, since, served⟩ := serves.answered start a.resolves a.counted hmem
  obtain ⟨r, hr, hbase, hstate⟩ := hb _ _ _ hmem hpath hclient hd
  exact since.served a.resolves served hpath hd (since.leads.record? hr) hbase hclient hstate

theorem gathering_of_announced {n : Node} {t : Transfer} {bytes : Bytes} (ho : n.Orderly v)
    (ht : ((n.step (.message name (.newVersion notice)) v).1.session name).transfers.get? notice.path = some t)
    (hfree : v.lookup t.staging.location = none) (hs : notice.size.toNat = bytes.length) :
    Gathering name notice.path t.staging notice.client bytes (n.step (.message name (.newVersion notice)) v).1
      (n.step (.message name (.newVersion notice)) v).2 := by
  have older : (n.session name).transfers.get? notice.path ≠ some t := fun ht => by
    obtain ⟨-, -, content, hread⟩ := ho.held name notice.path t ht
    rw [read?_eq_some.mp hread] at hfree
    cases hfree
  have turn := answer_turn (ho.held name) n.setup (.newVersion notice)
  have htable := n.message_transfers name (.newVersion notice) v name
  rw [if_pos rfl] at htable
  rw [← htable] at turn
  cases turn with
  | same unchanged spares =>
    rw [unchanged] at ht
    exact absurd ht older
  | gone ht' differs spares =>
    rw [differs.get] at ht
    split at ht
    · cases ht
    · exact absurd ht older
  | begun hm pulls began differs spares =>
    cases hm
    rw [differs.get, if_pos rfl] at ht
    cases ht
    refine ⟨began.numbered.2, fun t' ht' _ => ?_⟩
    rw [differs.get, if_pos rfl] at ht'
    cases ht'
    exact ⟨began.client, began.gathers hs⟩
  | fed hm ht' hd hf differs hw => cases hm

theorem Announcing.length (a : Announcing s chunkSize path file v r₀ notice ds) {bytes : Bytes}
    (hb : v.bytesAt? file = some bytes) : notice.size.toNat = bytes.length := by
  obtain ⟨e, v₁, report⟩ := a.report
  obtain ⟨σ, -, -, -, -, -, hsize⟩ := Since.announced a.resolves report
  have hmax := a.size bytes hb
  rw [hsize bytes hb, UInt64.toNat_ofNat']
  unfold maxSize at hmax
  omega

/-- A file arrives whole if its base holds while it is served: what is put in place is what the file was when it
    was announced. -/
theorem whole_file (a : Announcing s chunkSize path file v r₀ notice ds) (hb : BaseHolds s path r₀ ds) :
    ArrivesWhole notice ds ((v.bytesAt? file).getD []) := by
  intro u n v₀ v₁ name receiver
  obtain ⟨e, v', report⟩ := a.report
  obtain ⟨-, -, rfl, -, hclient, -, -⟩ := Since.announced a.resolves report
  have ho := (orderly_start u v₀).evolves receiver
  refine ⟨fun content hr => ?_, fun t ht hfree m x evolves hcur chunk content hpath hfed hr => ?_⟩
  · obtain ⟨hz, hempty⟩ := replaced_at_once ho hr
    rw [hempty]
    cases hbytes : v.bytesAt? file with
    | none => rfl
    | some bytes =>
      have hlen := a.length hbytes
      rw [hz] at hlen
      exact (List.eq_nil_of_length_eq_zero hlen.symm).symm
  -- Without a file no bytes are served, and any bytes of the announced length will do.
  obtain ⟨bytes, hbytes, hlen⟩ : ∃ bytes, (∀ b, v.bytesAt? file = some b → b = bytes) ∧
      notice.size.toNat = bytes.length := by
    cases hb : v.bytesAt? file with
    | none => exact ⟨List.replicate notice.size.toNat 0, fun _ h => (nomatch h), by simp⟩
    | some bytes => exact ⟨bytes, fun _ h => (Option.some.inj h).symm, a.length hb⟩
  have pieces : ∀ e, Fed name notice.path ds e → Pieces name notice.path notice.client bytes e := by
    rintro e hfed chunk rfl hpath hc hd
    obtain ⟨b, hat, hpiece⟩ := a.pieces hb hfed hpath (hc.trans hclient) hd
    exact hbytes b hat ▸ hpiece
  have ho₁ := ho.event (.message name (.newVersion notice))
  have g := (gathering_of_announced ho ht hfree hlen).evolves ho₁ pieces evolves
  obtain ⟨hall, hc, hd⟩ := g.completed (ho₁.evolves evolves) (pieces _ hfed) hpath hcur hr
  obtain ⟨b, hat, -⟩ := a.pieces hb hfed hpath (hc.trans hclient) hd
  rw [hall, hat, ← hbytes b hat]
  rfl

end Served

/-! ### A file that tears -/

/-- The sample after an edit was reported, which makes its edit count 1 and leaves its base. -/
def sampleEdited : Volume := (LocalEdit.report .written sampleSetup.store "a" (sampleVolume [1, 2, 3, 4])).2

def sampleNotice : NewVersion := ⟨"a", 0, 1, 4⟩

/-- Two bytes of the sample are served at edit count 1. -/
def samplePiece (offset : UInt64) (v : Volume) : Deed :=
  .answered ⟨"a", 1, offset, 2⟩ (sampleSetup.store.serveChunk 2 ⟨"a", 1, offset, 2⟩ v).1
    (sampleSetup.store.serveChunk 2 ⟨"a", 1, offset, 2⟩ v).2

def sampleChunk (offset : UInt64) (data : Bytes) : Message := .fileChunk ⟨"a", 1, offset, data⟩

/-- What a session comes to that pulls the sample, up to the chunk that completes it. -/
def samplePull (first : Bytes) : Node × Volume :=
  Node.run [.message "peer" (.newVersion sampleNotice),
    .message "peer" (sampleChunk 0 first)] ⟨sampleSetup, .empty⟩ (sampleVolume [])

/-- Both halves of the sample are served, then a peer commits the edit. -/
def sampleServing : List Deed :=
  let v := (sampleSetup.store.serveChunk 2 ⟨"a", 1, 0, 2⟩ sampleEdited).2
  [samplePiece 0 sampleEdited, samplePiece 2 v, .committed "a" ⟨0, 1, 1⟩]

/-- The sample is pulled while its base holds. -/
theorem sample_whole :
    Announcing sampleSetup.store 2 "a" "r/a" sampleEdited ⟨0, 1, .dirty⟩ sampleNotice sampleServing ∧
      BaseHolds sampleSetup.store "a" ⟨0, 1, .dirty⟩ sampleServing ∧
      ArrivesWhole sampleNotice sampleServing [1, 2, 3, 4] ∧
      ∃ content, (samplePull [1, 2]).1.Replaces (.message "peer" (sampleChunk 2 [3, 4]))
        (samplePull [1, 2]).2 "a" content := by
  have a : Announcing sampleSetup.store 2 "a" "r/a" sampleEdited ⟨0, 1, .dirty⟩ sampleNotice sampleServing :=
    ⟨rfl, ⟨.written, sampleVolume [1, 2, 3, 4], rfl⟩, fun bytes hb => by cases hb; decide,
      ⟨_, ((Serves.start.request rfl).request rfl).commit rfl⟩, by decide⟩
  have hb : BaseHolds sampleSetup.store "a" ⟨0, 1, .dirty⟩ sampleServing := by
    intro request chunk v hm _ _ _
    rcases List.mem_cons.mp hm with h | hm
    · cases h
      exact ⟨_, rfl, rfl, by decide⟩
    rcases List.mem_cons.mp hm with h | hm
    · cases h
      exact ⟨_, rfl, rfl, by decide⟩
    · cases List.mem_singleton.mp hm
  exact ⟨a, hb, whole_file a hb, _, "r/a", ["r", "a"], 2, rfl, rfl, by decide⟩

/-- The file of the sample is written anew, and that is reported. -/
def sampleRewritten (v : Volume) : Except Fault (Record × Option NewVersion) × Volume :=
  LocalEdit.report .written sampleSetup.store "a" (v.modify ⟨["r", "a"], 0⟩ fun _ => .ofBytes [5, 6, 7, 8])

/-- Between the two halves of the sample there come an edit and the commit of one edit, which takes the edit
    count back. -/
def sampleTearing : List Deed :=
  let v := (sampleRewritten (sampleSetup.store.serveChunk 2 ⟨"a", 1, 0, 2⟩ sampleEdited).2).2
  [samplePiece 0 sampleEdited, .edited "a", .committed "a" ⟨0, 1, 1⟩,
    samplePiece 2 (sampleSetup.store.committed "a" ⟨0, 1, 1⟩ v).2]

theorem sampleTearing_serves : ∃ w, Serves sampleSetup.store 2 sampleEdited sampleTearing w := by
  have first : Serves sampleSetup.store 2 sampleEdited [samplePiece 0 sampleEdited] _ := Serves.start.request rfl
  have report : sampleRewritten (sampleSetup.store.serveChunk 2 ⟨"a", 1, 0, 2⟩ sampleEdited).2 =
      (.ok (⟨0, 2, .dirty⟩, some ⟨"a", 0, 2, 4⟩), _) := rfl
  have edited :=
    first.edit (σ := ⟨["r"], "a"⟩) ⟨"r/a", rfl, rfl, rfl⟩ (modify_kept (h := ⟨["r", "a"], 0⟩) _) report
  exact ⟨_, (edited.commit rfl).request rfl⟩

/-- A session asks for the two halves of the sample, and puts the first half of what was announced before the second
    half of what was written later. -/
theorem sample_tears :
    Announcing sampleSetup.store 2 "a" "r/a" sampleEdited ⟨0, 1, .dirty⟩ sampleNotice sampleTearing ∧
      sampleEdited.bytesAt? "r/a" = some [1, 2, 3, 4] ∧
      (Session.new.answer sampleSetup (.newVersion sampleNotice) (sampleVolume [])).1 =
        .ok (.all [.requestChunk ⟨"a", 1, 0, 2⟩, .requestChunk ⟨"a", 1, 2, 2⟩]) ∧
      (∃ content, (samplePull [1, 2]).1.Replaces (.message "peer" (sampleChunk 2 [7, 8]))
        (samplePull [1, 2]).2 "a" content ∧
        content.toList = [1, 2, 7, 8]) ∧
      ¬ArrivesWhole sampleNotice sampleTearing [1, 2, 3, 4] := by
  have a : Announcing sampleSetup.store 2 "a" "r/a" sampleEdited ⟨0, 1, .dirty⟩ sampleNotice sampleTearing :=
    ⟨rfl, ⟨.written, sampleVolume [1, 2, 3, 4], rfl⟩, fun bytes hb => by cases hb; decide,
      sampleTearing_serves, by decide⟩
  have replaces : ∃ content,
    (samplePull [1, 2]).1.Replaces (.message "peer" (sampleChunk 2 [7, 8])) (samplePull [1, 2]).2 "a" content ∧
      content.toList = [1, 2, 7, 8] := ⟨_, ⟨"r/a", ["r", "a"], 2, rfl, rfl, by decide⟩, rfl⟩
  refine ⟨a, rfl, rfl, replaces, fun whole => ?_⟩
  obtain ⟨content, hr, hbytes⟩ := replaces
  have fed : ∀ offset data v, samplePiece offset v ∈ sampleTearing →
      (sampleSetup.store.serveChunk 2 ⟨"a", 1, offset, 2⟩ v).1 = .ok (sampleChunk offset data) →
      Fed "peer" "a" sampleTearing (.message "peer" (sampleChunk offset data)) := by
    intro offset data v hm hs chunk he _
    cases he
    unfold samplePiece at hm
    rw [hs] at hm
    exact ⟨_, _, hm⟩
  have first := fed 0 [1, 2] _ (.head _) rfl
  have second := fed 2 [7, 8] _ (.tail _ (.tail _ (.tail _ (.head _)))) rfl
  have torn := (whole "peer" .rest).2 _ rfl rfl _ _ (.event _ first .rest) (fun t ht => by cases ht; rfl)
    ⟨"a", 1, 2, [7, 8]⟩ content rfl second hr
  rw [hbytes] at torn
  cases torn

end Node
end TreeReplica
