import TreeReplica.Proofs.Sample
import TreeReplica.Proofs.Transfer.Asking
import TreeReplica.Proofs.Unfailing

/-! Two sessions of a node that pull newer versions of one path at the same time. Each has a transfer of its
    own, and they share the record: whichever transfer is complete first is put in place and makes the record
    synced, and the other one is refused then, also if its version is the newer one
    (`Node.first_version_stays`). -/

namespace TreeReplica
open Volume

/-- A newer version of a path, as a peer announces it. -/
structure Newer where
  base : UInt64
  client : UInt64
  bytes : Bytes
  deriving DecidableEq

/-- A chunk brings some bytes of a version of the path. -/
structure FileChunk.Brings (chunk : FileChunk) (path : String) (x : Newer) : Prop where
  path : chunk.path = path
  client : chunk.client = x.client
  data : chunk.data ≠ []
  piece : chunk.data <+: x.bytes.drop chunk.offset.toNat

namespace Transfer

/-- What is left of a transfer when some chunks have come: nothing if one of them completed it. -/
def left (t : Transfer) : List FileChunk → Option Transfer
  | [] => some t
  | chunk :: rest => if (t.note chunk).2.complete then none else (t.note chunk).2.left rest

/-- Whether the second of two transfers is complete before the first, when their chunks come in this order:
    those on the left are for the first, those on the right for the second. -/
def overtaken (t t' : Transfer) : List (FileChunk ⊕ FileChunk) → Bool
  | [] => false
  | .inl chunk :: rest => !(t.note chunk).2.complete && (t.note chunk).2.overtaken t' rest
  | .inr chunk :: rest => (t'.note chunk).2.complete || t.overtaken (t'.note chunk).2 rest

theorem left_cons (t? : Option Transfer) (chunk : FileChunk) (rest : List FileChunk) :
    t?.bind (·.left (chunk :: rest)) = (t?.bind (·.left [chunk])).bind (·.left rest) := by
  cases t? with
  | none => rfl
  | some t =>
    simp only [Option.bind_some, left]
    split <;> rfl

theorem settle_behind {t : Transfer} {base remote : UInt64} (pull : t.pull = .catchUp remote)
    (ahead : base < remote) :
    t.settle ⟨base, 0, .stale⟩ = .ok (⟨remote, 0, .synced⟩, []) := by
  have hle : ¬remote ≤ base := UInt64.not_le.mpr ahead
  have hmax : max base remote = remote := if_pos (UInt64.le_of_lt ahead)
  unfold settle
  rw [pull]
  simp [hle, Record.catchUp, hmax]

end Transfer

/-- The record of the path is behind, and whatever is pulled of it can be put in place. -/
structure Store.Behind (s : Store) (path : String) (base : UInt64) (v : Volume) : Prop where
  record : s.recorded? path v = some (.ok ⟨base, 0, .stale⟩)
  unlocked : v.locked = []
  place : ∃ file, s.resolve path = .ok file ∧ v.TakesFile file

namespace Node
variable {n : Node} {v : Volume} {name name' path : String} {base : UInt64} {x y : Newer} {t t' : Transfer}
  {t? t'? : Option Transfer} {chunk : FileChunk} {r : Record} {bytes : Bytes}

/-! ### One chunk -/

/-- A session that may send chunks has this transfer of the path, or none, and it pulls a newer version. -/
structure CatchesUp (n : Node) (name path : String) (x : Newer) (t? : Option Transfer) : Prop where
  admitted : ∀ chunk, (n.session name).gated n.setup (.fileChunk chunk) = false
  transfer : (n.session name).transfers.get? path = t?
  pull : ∀ t, t? = some t → t.pull = .catchUp x.base
  client : ∀ t, t? = some t → t.client = x.client
  size : ∀ t, t? = some t → t.size.toNat = x.bytes.length

/-- A chunk of a session that may send it changes the transfers of the session. -/
theorem step_chunk (admitted : ∀ chunk, (n.session name).gated n.setup (.fileChunk chunk) = false)
    (chunk : FileChunk) (v : Volume) :
    n.step (.message name (.fileChunk chunk)) v =
      (n.setSession name { n.session name with
          transfers := (n.setup.store.receiveChunk chunk (n.session name).transfers v).2.1 },
        (n.setup.store.receiveChunk chunk (n.session name).transfers v).2.2) := by
  show (n.setSession name ((n.session name).answer n.setup (.fileChunk chunk) v).2.1,
    ((n.session name).answer n.setup (.fileChunk chunk) v).2.2) = _
  rcases (n.session name).answer_cases n.setup (.fileChunk chunk) v with ⟨gated, -⟩ |
    ⟨-, answer, session, w, handled, ⟨reply, -, h⟩ | ⟨e, reply, -, h, -⟩⟩
  · rw [admitted chunk] at gated
    cases gated
  · rw [h]
    exact congrArg (fun out => (n.setSession name out.2.1, out.2.2)) handled.symm
  · rw [h]
    exact congrArg (fun out => (n.setSession name out.2.1, out.2.2)) handled.symm

theorem CatchesUp.fault? (c : n.CatchesUp name path x (some t)) (b : chunk.Brings path x) : t.fault? chunk = none :=
  (Transfer.fault?_of_piece (c.size t rfl) (b.client.trans (c.client t rfl).symm) b.data b.piece).1

/-- A chunk of its version takes a transfer further, or completes it; then it is gone. -/
theorem CatchesUp.fed (c : n.CatchesUp name path x t?) (b : chunk.Brings path x) (v : Volume) :
    (n.step (.message name (.fileChunk chunk)) v).1.CatchesUp name path x (t?.bind (·.left [chunk])) := by
  have step := n.step_chunk c.admitted chunk v
  have kept : ∀ t, t?.bind (·.left [chunk]) = some t → ∃ t₀, t? = some t₀ ∧ t = (t₀.note chunk).2 := by
    intro t ht
    obtain ⟨t₀, ht₀, hleft⟩ := Option.bind_eq_some_iff.mp ht
    unfold Transfer.left at hleft
    split at hleft
    · cases hleft
    · exact ⟨t₀, ht₀, (Option.some.inj hleft).symm⟩
  rw [step]
  refine ⟨fun chunk' => ?_, ?_, fun t ht => ?_, fun t ht => ?_, fun t ht => ?_⟩
  · rw [session_setSession, if_pos rfl]
    exact c.admitted chunk'
  · rw [session_setSession, if_pos rfl]
    show (n.setup.store.receiveChunk chunk (n.session name).transfers v).2.1.get? path = _
    rcases n.setup.store.receiveChunk_cases chunk (n.session name).transfers v with ⟨hnone, hw⟩ | ⟨t, ht, cases⟩
    · rw [b.path, c.transfer] at hnone
      rw [hw, c.transfer, hnone]
      rfl
    rw [b.path, c.transfer] at ht
    subst ht
    rcases cases with ⟨hnot | hnot, -⟩ | ⟨-, -, ⟨incomplete, hw⟩ | ⟨complete, answer, w, -, hw⟩⟩
    · exact absurd hnot b.data
    · exact absurd (c.fault? b) hnot
    · rw [hw]
      dsimp only [Option.bind_some, Transfer.left]
      rw [if_neg (by rw [incomplete]; exact Bool.false_ne_true), Table.get?_insert, if_pos b.path]
    · rw [hw]
      dsimp only [Option.bind_some, Transfer.left]
      rw [if_pos complete, Table.get?_erase, if_pos b.path]
  · obtain ⟨t₀, ht₀, rfl⟩ := kept t ht
    exact (t₀.pull_note chunk).trans (c.pull t₀ ht₀)
  · obtain ⟨t₀, ht₀, rfl⟩ := kept t ht
    exact (t₀.client_note chunk).trans (c.client t₀ ht₀)
  · obtain ⟨t₀, ht₀, rfl⟩ := kept t ht
    obtain ⟨outstanding, hn⟩ := t₀.note_snd chunk
    rw [hn]
    exact c.size t₀ ht₀

/-- Other sessions keep their transfers. -/
theorem CatchesUp.beside (c : n.CatchesUp name path x t?) (c' : n.CatchesUp name' path y t'?) (apart : name ≠ name')
    (chunk : FileChunk) (v : Volume) :
    (n.step (.message name (.fileChunk chunk)) v).1.CatchesUp name' path y t'? := by
  have same : (n.step (.message name (.fileChunk chunk)) v).1.session name' = n.session name' := by
    rw [n.step_chunk c.admitted, session_setSession, if_neg apart]
  have setup : (n.step (.message name (.fileChunk chunk)) v).1.setup = n.setup := by
    rw [n.step_chunk c.admitted]
    rfl
  exact ⟨by rw [same, setup]; exact c'.admitted, by rw [same]; exact c'.transfer, c'.pull, c'.client, c'.size⟩

theorem setup_chunk (c : n.CatchesUp name path x t?) (chunk : FileChunk) (v : Volume) :
    (n.step (.message name (.fileChunk chunk)) v).1.setup = n.setup := by
  rw [n.step_chunk c.admitted]
  rfl

/-- As long as the record is behind, a chunk goes to its place, or the transfer that it completes is put in
    place. -/
theorem CatchesUp.gathers (c : n.CatchesUp name path x (some t)) (o : n.Orderly v)
    (behind : n.setup.store.Behind path base v) (ahead : base < x.base) (g : t.Gathers v x.bytes)
    (b : chunk.Brings path x) :
    ((t.note chunk).2.complete = false ∧
        n.setup.store.Behind path base (n.step (.message name (.fileChunk chunk)) v).2 ∧
        (t.note chunk).2.Gathers (n.step (.message name (.fileChunk chunk)) v).2 x.bytes ∧
        ∀ name' t' bytes', name ≠ name' → (n.session name').transfers.get? path = some t' → t'.Gathers v bytes' →
          t'.Gathers (n.step (.message name (.fileChunk chunk)) v).2 bytes') ∨
      ((t.note chunk).2.complete = true ∧
        Tracked n.setup.store path (n.step (.message name (.fileChunk chunk)) v).2
          ⟨x.base, 0, .synced⟩ x.bytes) := by
  obtain ⟨hpath, hplace, -⟩ := o.held name path t c.transfer
  obtain ⟨file, hr, takes⟩ := behind.place
  have fault := c.fault? b
  have kept := modify_staging v hplace (·.write chunk.offset.toNat chunk.data)
  have record := kept.recorded?_eq (fun σ => σ.record_not_staging) behind.record
  have unlocked := kept.locked.trans behind.unlocked
  have noted := g.note fault b.piece
  rw [n.step_chunk c.admitted]
  rcases n.setup.store.receiveChunk_cases chunk (n.session name).transfers v with ⟨hnone, -⟩ | ⟨t₀, ht, cases⟩
  · rw [b.path, c.transfer] at hnone
    cases hnone
  rw [b.path, c.transfer] at ht
  cases ht
  rcases cases with ⟨hnot | hnot, -⟩ | ⟨-, -, ⟨incomplete, hw⟩ | ⟨complete, answer, w, hi, hw⟩⟩
  · exact absurd hnot b.data
  · exact absurd fault hnot
  · rw [hw]
    refine Or.inl ⟨incomplete, ⟨record, unlocked, file, hr, takes.modify _ _⟩, noted,
      fun name' t' bytes' apart ht' g' => ?_⟩
    -- What the chunk is written to is the transfer's own staging file.
    exact gathers_of_spares g' (o.held name' path t' ht').2 ((modify_kept (v := v) _).spares fun _ _ => Or.inr)
      fun he => apart (o.apart c.transfer ht' he.symm).1
  · rw [hw]
    refine Or.inr ⟨complete, ?_⟩
    have path' : (t.note chunk).2.path = path := (t.path_note chunk).trans hpath
    obtain ⟨content, hread, hbytes⟩ := noted.complete complete
    rw [← path'] at record hr ⊢
    obtain ⟨w', hinstall, tracked, -⟩ := Store.installs record unlocked hr (takes.modify _ _)
      (t.staging_note chunk ▸ hplace) hread
      (Transfer.settle_behind ((t.pull_note chunk).trans (c.pull t rfl)) ahead)
    cases hi.symm.trans hinstall
    rwa [hbytes] at tracked

/-- A chunk of a version that comes when the record is synced changes neither record nor file, whatever it
    completes. -/
theorem CatchesUp.late (c : n.CatchesUp name path x t?) (o : n.Orderly v)
    (tracked : Tracked n.setup.store path v ⟨base, 0, .synced⟩ bytes) (b : chunk.Brings path x) :
    Tracked n.setup.store path (n.step (.message name (.fileChunk chunk)) v).2 ⟨base, 0, .synced⟩ bytes := by
  rw [n.step_chunk c.admitted]
  rcases tracked.receiveChunk rfl (o.held name) (o.distinct name) b.path with ⟨tracked', -⟩ |
    ⟨t, whole, ht, hpull, -⟩
  · exact tracked'
  · rw [c.pull t (c.transfer.symm.trans ht)] at hpull
    cases hpull

/-! ### The chunks of two sessions -/

/-- A chunk for the first of two sessions, or for the second. -/
def chunkFor (first second : String) : FileChunk ⊕ FileChunk → Event
  | .inl chunk => .message first (.fileChunk chunk)
  | .inr chunk => .message second (.fileChunk chunk)

variable {first second : String} {feeds : List (FileChunk ⊕ FileChunk)}

/-- The chunks that each of two sessions gets are pieces of the version that it pulls. -/
def Served (path : String) (x y : Newer) (feeds : List (FileChunk ⊕ FileChunk)) : Prop :=
  ∀ chunk ∈ feeds, chunk.elim (·.Brings path x) (·.Brings path y)

/-- Once the record is synced, the chunks of both sessions are taken and leave record and file. -/
theorem CatchesUp.later (apart : first ≠ second) (fed : Served path x y feeds) (o : n.Orderly v)
    (c : n.CatchesUp first path x t?) (c' : n.CatchesUp second path y t'?)
    (tracked : Tracked n.setup.store path v ⟨base, 0, .synced⟩ bytes) :
    Tracked n.setup.store path (run (feeds.map (chunkFor first second)) n v).2 ⟨base, 0, .synced⟩ bytes ∧
      (run (feeds.map (chunkFor first second)) n v).1.CatchesUp first path x
        (t?.bind (·.left (feeds.filterMap Sum.getLeft?))) ∧
      (run (feeds.map (chunkFor first second)) n v).1.CatchesUp second path y
        (t'?.bind (·.left (feeds.filterMap Sum.getRight?))) := by
  induction feeds generalizing n v t? t'? with
  | nil => exact ⟨tracked, by simpa [Transfer.left, run] using c, by simpa [Transfer.left, run] using c'⟩
  | cons feed feeds ih =>
    have rest : Served path x y feeds := fun chunk hm => fed chunk (List.mem_cons_of_mem _ hm)
    have head := fed feed List.mem_cons_self
    cases feed with
    | inl chunk =>
      have tracked' := c.late o tracked head
      rw [← setup_chunk c chunk v] at tracked' ⊢
      obtain ⟨done, left, right⟩ := ih rest (o.event _) (c.fed head v) (c.beside c' apart chunk v) tracked'
      exact ⟨done, (Transfer.left_cons t? chunk _).symm ▸ left, right⟩
    | inr chunk =>
      have tracked' := c'.late o tracked head
      rw [← setup_chunk c' chunk v] at tracked' ⊢
      obtain ⟨done, left, right⟩ := ih rest (o.event _) (c'.beside c apart.symm chunk v) (c'.fed head v) tracked'
      exact ⟨done, left, (Transfer.left_cons t'? chunk _).symm ▸ right⟩

/-- Of two versions that are pulled at the same time, the one that is complete first is the one that stays. -/
theorem CatchesUp.race (apart : first ≠ second) (fed : Served path x y feeds) (o : n.Orderly v)
    (behind : n.setup.store.Behind path base v) (ahead : base < x.base) (ahead' : base < y.base)
    (c : n.CatchesUp first path x (some t)) (c' : n.CatchesUp second path y (some t')) (g : t.Gathers v x.bytes)
    (g' : t'.Gathers v y.bytes)
    (whole : t.left (feeds.filterMap Sum.getLeft?) = none ∨ t'.left (feeds.filterMap Sum.getRight?) = none) :
    Tracked n.setup.store path (run (feeds.map (chunkFor first second)) n v).2
        ⟨(if t.overtaken t' feeds then y else x).base, 0, .synced⟩ (if t.overtaken t' feeds then y else x).bytes ∧
      (run (feeds.map (chunkFor first second)) n v).1.CatchesUp first path x
        (t.left (feeds.filterMap Sum.getLeft?)) ∧
      (run (feeds.map (chunkFor first second)) n v).1.CatchesUp second path y
        (t'.left (feeds.filterMap Sum.getRight?)) := by
  induction feeds generalizing n v t t' with
  | nil => simp [Transfer.left] at whole
  | cons feed feeds ih =>
    have rest : Served path x y feeds := fun chunk hm => fed chunk (List.mem_cons_of_mem _ hm)
    have head := fed feed List.mem_cons_self
    cases feed with
    | inl chunk =>
      have beside : (Sum.inl chunk :: feeds).filterMap Sum.getRight? = feeds.filterMap Sum.getRight? := rfl
      have after := c.fed head v
      have others := c.beside c' apart chunk v
      rw [Option.bind_some, Transfer.left] at after
      rcases c.gathers o behind ahead g head with ⟨incomplete, behind', noted, spared⟩ | ⟨complete, tracked⟩
      · rw [if_neg (by rw [incomplete]; exact Bool.false_ne_true)] at after
        rw [← setup_chunk c chunk v] at behind' ⊢
        have later := ih rest (o.event _) behind' after others noted (spared second t' y.bytes apart c'.transfer g')
          (whole.imp_left fun h => by simpa [Transfer.left, incomplete] using h)
        simpa [Transfer.overtaken, Transfer.left, incomplete, chunkFor, run, beside] using later
      · rw [if_pos complete] at after
        rw [← setup_chunk c chunk v] at tracked ⊢
        have later := after.later apart rest (o.event _) others tracked
        simpa [Transfer.overtaken, Transfer.left, complete, chunkFor, run, beside] using later
    | inr chunk =>
      have beside : (Sum.inr chunk :: feeds).filterMap Sum.getLeft? = feeds.filterMap Sum.getLeft? := rfl
      have after := c'.fed head v
      have others := c'.beside c apart.symm chunk v
      rw [Option.bind_some, Transfer.left] at after
      rcases c'.gathers o behind ahead' g' head with ⟨incomplete, behind', noted, spared⟩ | ⟨complete, tracked⟩
      · rw [if_neg (by rw [incomplete]; exact Bool.false_ne_true)] at after
        rw [← setup_chunk c' chunk v] at behind' ⊢
        have later :=
          ih rest (o.event _) behind' others after (spared first t x.bytes apart.symm c.transfer g) noted
            (whole.imp_right fun h => by simpa [Transfer.left, incomplete] using h)
        simpa [Transfer.overtaken, Transfer.left, incomplete, chunkFor, run, beside] using later
      · rw [if_pos complete] at after
        rw [← setup_chunk c' chunk v] at tracked ⊢
        have later := others.later apart rest (o.event _) after tracked
        simpa [Transfer.overtaken, Transfer.left, complete, chunkFor, run, beside] using later

/-- Two sessions pull two newer versions of one path, `x` and the later `y`, while its record is behind both,
    and each gets all of its content, in any order of the chunks. The record is synced at `y` afterwards, with
    its content in the file, exactly if the transfer of `y` is complete first. Otherwise record and file stay
    at `x`, though the content of `y` has come; both transfers are gone. -/
theorem first_version_stays (apart : first ≠ second) (orderly : n.Orderly v)
    (behind : n.setup.store.Behind path base v) (ahead : base < x.base) (later : x.base < y.base)
    (pulls : n.CatchesUp first path x (some t)) (pulls' : n.CatchesUp second path y (some t'))
    (gathered : t.Gathers v x.bytes) (gathered' : t'.Gathers v y.bytes) (fed : Served path x y feeds)
    (whole : t.left (feeds.filterMap Sum.getLeft?) = none)
    (whole' : t'.left (feeds.filterMap Sum.getRight?) = none) :
    let out := run (feeds.map (chunkFor first second)) n v
    (t.overtaken t' feeds = true → Tracked n.setup.store path out.2 ⟨y.base, 0, .synced⟩ y.bytes) ∧
      (t.overtaken t' feeds = false → Tracked n.setup.store path out.2 ⟨x.base, 0, .synced⟩ x.bytes) ∧
      (n.setup.store.recorded? path out.2 = some (.ok ⟨y.base, 0, .synced⟩) ↔ t.overtaken t' feeds = true) ∧
      (out.1.session first).transfers.get? path = none ∧ (out.1.session second).transfers.get? path = none := by
  intro out
  have ahead' : base < y.base := UInt64.lt_trans ahead later
  obtain ⟨tracked, gone, gone'⟩ :=
    pulls.race apart fed orderly behind ahead ahead' pulls' gathered gathered' (Or.inl whole)
  refine ⟨fun h => by simpa [h] using tracked, fun h => by simpa [h] using tracked, ⟨fun record => ?_, fun h => ?_⟩,
    gone.transfer.trans whole, gone'.transfer.trans whole'⟩
  · refine Decidable.byContradiction fun h => ?_
    have stays := tracked.record
    rw [if_neg h] at stays
    have same := (Record.mk.inj (Except.ok.inj (Option.some.inj (stays.symm.trans record)))).1
    exact UInt64.lt_irrefl _ (same ▸ later)
  · simpa [h] using tracked.record

/-! ### The sample -/

/-- Two peers announce newer versions of the sample. -/
def sampleRacing : Node × Volume :=
  run [.message "one" (.newVersion ⟨"a", 5, 0, 4⟩), .message "two" (.newVersion ⟨"a", 3, 0, 2⟩)]
    ⟨sampleSetup, .empty⟩ (sampleVolume [1])

def sampleOlder : Newer := ⟨3, 0, [3, 3]⟩

def sampleNewer : Newer := ⟨5, 0, [5, 5, 5, 5]⟩

def sampleOlderTransfer : Transfer := ⟨"a", .catchUp 3, 0, 2, [], ⟨[(0, 2)]⟩, ⟨["r", ".a.000003.tsstage"], 3⟩⟩

def sampleNewerTransfer : Transfer :=
  ⟨"a", .catchUp 5, 0, 4, [], ⟨[(0, 2), (2, 4)]⟩, ⟨["r", ".a.000002.tsstage"], 2⟩⟩

/-- The older version comes between the two chunks of the newer one. -/
def sampleFeeds : List (FileChunk ⊕ FileChunk) :=
  [.inr ⟨"a", 0, 0, [5, 5]⟩, .inl ⟨"a", 0, 0, [3, 3]⟩, .inr ⟨"a", 0, 2, [5, 5]⟩]

theorem sampleRacing_orderly : sampleRacing.1.Orderly sampleRacing.2 :=
  have heard := (orderly_start sampleSetup (sampleVolume [1])).event (.message "one" (.newVersion ⟨"a", 5, 0, 4⟩))
  heard.event (.message "two" (.newVersion ⟨"a", 3, 0, 2⟩))

theorem sampleRacing_behind : sampleRacing.1.setup.store.Behind "a" 0 sampleRacing.2 := by
  have record : (sampleRacing.1.setup.store.recorded? "a" sampleRacing.2).map (·.toOption) =
      some (some ⟨0, 0, .stale⟩) := by
    decide +kernel
  have place : (sampleRacing.2.locate "r/a").toOption = some (.inside ["r"] "a" false) := by decide +kernel
  obtain ⟨found, hfound, hrecord⟩ := Option.map_eq_some_iff.mp record
  rw [ok_of_toOption hrecord] at hfound
  exact ⟨hfound, by decide +kernel, "r/a", rfl, ["r"], "a", ok_of_toOption place, by decide, by decide +kernel⟩

theorem sampleRacing_older : sampleRacing.1.CatchesUp "two" "a" sampleOlder (some sampleOlderTransfer) :=
  ⟨fun _ => rfl, by decide +kernel, fun _ h => by cases h; rfl, fun _ h => by cases h; rfl,
    fun _ h => by cases h; rfl⟩

theorem sampleRacing_newer : sampleRacing.1.CatchesUp "one" "a" sampleNewer (some sampleNewerTransfer) :=
  ⟨fun _ => rfl, by decide +kernel, fun _ h => by cases h; rfl, fun _ h => by cases h; rfl,
    fun _ h => by cases h; rfl⟩

theorem sampleRacing_gathers : sampleOlderTransfer.Gathers sampleRacing.2 sampleOlder.bytes ∧
    sampleNewerTransfer.Gathers sampleRacing.2 sampleNewer.bytes := by
  exact ⟨⟨rfl, trivial, ⟨[.hole 2]⟩, by decide +kernel, rfl, fun i hi => absurd hi (Ranges.not_holds_nil i)⟩,
    ⟨rfl, trivial, ⟨[.hole 4]⟩, by decide +kernel, rfl, fun i hi => absurd hi (Ranges.not_holds_nil i)⟩⟩

theorem sampleFeeds_served : Served "a" sampleOlder sampleNewer sampleFeeds := by
  intro chunk hm
  simp only [sampleFeeds, List.mem_cons, List.not_mem_nil, or_false] at hm
  rcases hm with rfl | rfl | rfl
  · exact ⟨rfl, rfl, by decide, by decide⟩
  · exact ⟨rfl, rfl, by decide, by decide⟩
  · exact ⟨rfl, rfl, by decide, by decide⟩

theorem sample_first_version :
    sampleOlderTransfer.overtaken sampleNewerTransfer sampleFeeds = false ∧
      Tracked sampleSetup.store "a" (run (sampleFeeds.map (chunkFor "two" "one")) sampleRacing.1 sampleRacing.2).2
        ⟨3, 0, .synced⟩ [3, 3] := by
  have order : sampleOlderTransfer.overtaken sampleNewerTransfer sampleFeeds = false := by decide
  obtain ⟨-, stays, -⟩ :=
    first_version_stays (by decide) sampleRacing_orderly sampleRacing_behind (by decide) (by decide)
      sampleRacing_older sampleRacing_newer sampleRacing_gathers.1 sampleRacing_gathers.2 sampleFeeds_served
      (by decide) (by decide)
  exact ⟨order, stays order⟩

/-- The content of the later version can have come, and the record is synced below it. -/
theorem later_version_refused :
    ¬∀ (n : Node) (v : Volume) (first second path : String) (base : UInt64) (x y : Newer) (t t' : Transfer)
      (feeds : List (FileChunk ⊕ FileChunk)), first ≠ second → n.Orderly v →
      n.setup.store.Behind path base v → base < x.base → x.base < y.base →
      n.CatchesUp first path x (some t) → n.CatchesUp second path y (some t') → t.Gathers v x.bytes →
      t'.Gathers v y.bytes → Served path x y feeds → t.left (feeds.filterMap Sum.getLeft?) = none →
      t'.left (feeds.filterMap Sum.getRight?) = none →
      Tracked n.setup.store path (run (feeds.map (chunkFor first second)) n v).2 ⟨y.base, 0, .synced⟩ y.bytes := by
  intro claimed
  have tracked :=
    claimed _ _ _ _ _ _ _ _ _ _ sampleFeeds (by decide) sampleRacing_orderly sampleRacing_behind (by decide)
      (by decide) sampleRacing_older sampleRacing_newer sampleRacing_gathers.1 sampleRacing_gathers.2
      sampleFeeds_served (by decide) (by decide)
  have record : (sampleRacing.1.setup.store.recorded? "a"
      (run (sampleFeeds.map (chunkFor "two" "one")) sampleRacing.1 sampleRacing.2).2).map (·.toOption) =
        some (some ⟨3, 0, .synced⟩) := by decide +kernel
  rw [tracked.record] at record
  exact absurd record (by decide)

end Node

end TreeReplica
