import TreeReplica.Proofs.Replication

/-! Chunks on a disk that may refuse. The bytes of a chunk may be written in part only, and a staging file may
    stay where it is when it is to be moved (`Mishap`). Whatever a chunk comes to then, a transfer that ends
    without its content in place leaves no staging file (`Store.receiveChunkAmid_cases`,
    `Store.installAmid_cases`), and without a mishap a chunk is handled as ever
    (`Store.receiveChunkAmid_none`). -/

namespace TreeReplica
open Volume

/-- What can go wrong on the disk while a chunk is handled. -/
inductive Mishap
  /-- Of the bytes of the chunk only so many are written. -/
  | write (written : Nat) (cause : IoCause)
  /-- The staging file is not moved to the place of the file. -/
  | move (cause : IoCause)
  deriving DecidableEq, Repr

/-! ### Handling a chunk -/

namespace Transfer

/-- Takes one chunk, as `write` does, unless its bytes cannot all be written. -/
def writeAmid (x : Option Mishap) (t : Transfer) (chunk : FileChunk) (v : Volume) :
    Except Fault (Option ChunkRequest × Transfer) × Volume :=
  match t.fault? chunk, x with
  | none, some (.write written cause) =>
    (.error (.io cause), v.modify t.staging (·.write chunk.offset.toNat (chunk.data.take written)))
  | _, _ => t.write chunk v

/-- Ends a complete transfer, as `finish` does, unless its staging file cannot be moved. -/
def finishAmid (x : Option Mishap) (t : Transfer) (file : String) (r : Record) (v : Volume) :
    Except Fault (List Message) × Record × Volume :=
  match t.settle r, x with
  | .ok _, some (.move cause) => (.error (.io cause), r, t.abandon v)
  | _, _ => t.finish file r v

end Transfer

namespace Store

def installAmid (x : Option Mishap) (s : Store) (t : Transfer) (v : Volume) :
    Except Fault (List Message) × Volume :=
  match s.acquire t.path v with
  | (.error e, v) => (.error e, t.abandon v)
  | (.ok lease, v) => during lease (fun lease v => t.finishAmid x lease.file lease.record v) v

def receiveChunkAmid (x : Option Mishap) (s : Store) (chunk : FileChunk) (ts : Transfers) (v : Volume) :
    Except Fault (List Message) × Transfers × Volume :=
  match ts.get? chunk.path with
  | none => (.error (.stale (.unsolicited chunk.path)), ts, v)
  | some t =>
    if chunk.refusal then
      let (ts, v) := ts.drop chunk.path v
      (.ok [], ts, v)
    else
      match t.writeAmid x chunk v with
      | (.error e, v) =>
        let (ts, v) := ts.drop chunk.path v
        (.error e, ts, v)
      | (.ok (rest, t), v) =>
        if t.complete then
          let (answer, v) := s.installAmid x t v
          (answer, ts.erase chunk.path, v)
        else (.ok (rest.toList.map .requestChunk), ts.insert chunk.path t, v)

end Store

/-- A chunk ends the transfer that it comes for: it has no bytes, it does not belong to the transfer, not all
    of its bytes are written, or all bytes have arrived with it, however the install of the content ends
    then. -/
inductive Transfer.EndedBy (t : Transfer) (x : Option Mishap) (chunk : FileChunk) : Prop
  | refusal (hd : chunk.data = [])
  | rejected {e : Fault} (hf : t.fault? chunk = some e)
  | unwritten {written : Nat} {cause : IoCause} (hx : x = some (.write written cause))
  | completed (hc : (t.note chunk).2.complete = true)

/-! ### What is left of a staging file -/

/-- No file stands here. -/
def Volume.Cleared (v : Volume) (l : Location) : Prop := ∀ id content, v.lookup l ≠ some (.file id content)

section Cleared
variable {v w : Volume} {h : Handle} {l : Location}

theorem Volume.cleared_of_lookup (hl : v.lookup l = none) : v.Cleared l := fun id content he => by
  rw [hl] at he
  cases he

theorem Volume.cleared_discard (v : Volume) (h : Handle) : (v.discard h).Cleared h.location := by
  unfold discard
  split
  · rename_i id content hl
    have hne : h.location ≠ [] := fun he => by simp [he] at hl
    exact cleared_of_lookup (by rw [lookup_removeEntry v hne, if_pos rfl])
  · rename_i hl
    exact fun id content he => hl id content he

/-- What is moved to another place is not where it was. -/
theorem Volume.cleared_move {path : String} (hm : v.move h path = (.ok (), w))
    (hp : ∀ dir name, v.locate path = .ok (.inside dir name false) → dir ++ [name] ≠ h.location) :
    w.Cleared h.location := by
  obtain ⟨dir, name, content, hloc, -, hf, -, rfl⟩ := move_ok hm
  have hne : h.location ≠ [] := location_ne_nil (read?_eq_some.mpr hf)
  refine cleared_of_lookup ?_
  rw [lookup_setEntry _ concat_ne_nil, if_neg (hp dir name hloc), lookup_removeEntry v hne, if_pos rfl]

end Cleared

/-! ### Ending a transfer -/

namespace Transfer
variable {t : Transfer} {x : Option Mishap}

theorem finishAmid_none (t : Transfer) (file : String) (r : Record) (v : Volume) :
    t.finishAmid none file r v = t.finish file r v := by
  unfold finishAmid
  split
  · rename_i h
    cases h
  · rfl

/-- A complete transfer that does not end with its content in place goes and leaves the record. -/
theorem finishAmid_cases (x : Option Mishap) (t : Transfer) (file : String) (r : Record) (v : Volume) :
    (∃ e, t.finishAmid x file r v = (.error e, r, t.abandon v)) ∨
      ∃ r' replies w, t.settle r = .ok (r', replies) ∧ v.move t.staging file = (.ok (), w) ∧
        t.finishAmid x file r v = (.ok replies, r', w) := by
  unfold finishAmid
  split
  · exact Or.inl ⟨_, rfl⟩
  · exact (t.finish_cases file r v).imp (fun ⟨e, he, _⟩ => ⟨e, he⟩) id

end Transfer

section Install
variable {s : Store} {v w : Volume} {path file : String} {lease : Lease} {σ : Site} {t : Transfer}

/-- However a transfer ends where the text of its path leads, its staging file is not there any more. -/
theorem Store.Leads.finishedAmid (hl : s.Leads w path σ) (hr : s.resolve path = .ok file)
    (hp : StagingPlace t.staging.location) (x : Option Mishap) (r : Record) :
    ∃ w₂, w₂.Cleared t.staging.location ∧
      ((∃ e, t.finishAmid x file r w = (.error e, r, w₂) ∧ Kept (· = t.staging.location) w w₂) ∨
        ∃ r' replies content, t.finishAmid x file r w = (.ok replies, r', w₂) ∧ t.settle r = .ok (r', replies) ∧
          w.read? t.staging = some content ∧ Kept (fun l => l = t.staging.location ∨ l = σ.file) w w₂ ∧
          w₂.lookup σ.file = some (.file t.staging.id content)) := by
  rcases t.finishAmid_cases x file r w with ⟨e, hf⟩ | ⟨r', replies, w₂, hs, hm, hf⟩
  · exact ⟨_, cleared_discard w t.staging, Or.inl ⟨e, hf, discard_kept w t.staging⟩⟩
  · obtain ⟨content, hread, hfind, hmoved⟩ := hl.moved hr hm
    obtain ⟨-, -, -, -, hlook⟩ := find_file hfind
    refine ⟨w₂, cleared_move hm fun dir name hloc he => ?_,
      Or.inr ⟨r', replies, content, hf, hs, hread, hmoved, hlook⟩⟩
    have hplace : StagingPlace (dir ++ [name]) := he ▸ hp
    exact (Store.leads_of_locate hr hloc).file_not_staging hplace

theorem Granted.cleared {P : Location → Prop} {w₂ : Volume} (g : Granted s path v lease w σ) (hk : Kept P w w₂)
    (hP : ¬P σ.record) {l : Location} (hl : l ≠ σ.record) (hc : w₂.Cleared l) (r : Record) :
    (Lease.release { lease with record := r } w₂).Cleared l := fun id content he => by
  rw [(g.release hk hP r).2.2 l hl] at he
  exact hc id content he

/-- A complete transfer fails with its lease, leaves the record, or puts what it staged in the place of the
    file and settles the record. In no case does its staging file stay. -/
theorem Store.installAmid_cases (x : Option Mishap) (s : Store) (t : Transfer) (v : Volume)
    (hp : StagingPlace t.staging.location) :
    (∃ e w, s.acquire t.path v = (.error e, w) ∧ s.installAmid x t v = (.error e, t.abandon w)) ∨
      ∃ σ fresh r w, w.Cleared t.staging.location ∧
        ((∃ e, s.installAmid x t v = (.error e, w) ∧ Leased s t.path (· = t.staging.location) v w σ fresh r r) ∨
          ∃ r' replies content, s.installAmid x t v = (.ok replies, w) ∧ t.settle r = .ok (r', replies) ∧
            Leased s t.path (fun l => l = t.staging.location ∨ l = σ.file) v w σ fresh r r' ∧
            v.read? t.staging = some content ∧ w.lookup σ.file = some (.file t.staging.id content)) := by
  unfold installAmid
  split
  · rename_i e w ha
    exact Or.inl ⟨e, w, ha, rfl⟩
  · rename_i lease w ha
    obtain ⟨σ, g⟩ := acquire_ok ha
    refine Or.inr ⟨σ, lease.fresh, lease.record, ?_⟩
    obtain ⟨answer, r, w₂, hb, hd⟩ := during_cases lease (fun lease v => t.finishAmid x lease.file lease.record v) w
    rw [hd]
    have hne : σ.record ≠ t.staging.location := fun he => σ.record_not_staging (he ▸ hp)
    obtain ⟨w₂', hc, ⟨e, hf, hk⟩ | ⟨r', replies, content, hf, hs, hread, hk, hlook⟩⟩ :=
      g.leads.finishedAmid g.resolves hp x lease.record
    · rw [hf] at hb
      cases hb
      exact ⟨_, g.cleared hk hne (Ne.symm hne) hc _, Or.inl ⟨e, rfl, (g.leased hk hne _).1⟩⟩
    · rw [hf] at hb
      cases hb
      have hP : ¬(σ.record = t.staging.location ∨ σ.record = σ.file) := fun h => h.elim hne g.leads.record_ne_file
      refine ⟨_, g.cleared hk hP (Ne.symm hne) hc r,
        Or.inr ⟨r, replies, content, rfl, hs, (g.leased hk hP r).1, ?_, ?_⟩⟩
      · exact read?_eq_some.mpr (g.kept.file_back (Ne.symm hne) (read?_eq_some.mp hread))
      · rw [(g.release hk hP r).2.2 _ (Ne.symm g.leads.record_ne_file), hlook]

end Install

/-! ### Chunks -/

namespace Store
variable {s : Store} {v w : Volume}

theorem installAmid_none (s : Store) (t : Transfer) (v : Volume) : s.installAmid none t v = s.install t v := by
  unfold installAmid install
  rcases s.acquire t.path v with ⟨_ | lease, w⟩
  · rfl
  · simp only [Transfer.finishAmid_none]

theorem receiveChunkAmid_none (s : Store) (chunk : FileChunk) (ts : Transfers) (v : Volume) :
    s.receiveChunkAmid none chunk ts v = s.receiveChunk chunk ts v := by
  have write : ∀ t : Transfer, t.writeAmid none chunk v = t.write chunk v := fun t => by
    unfold Transfer.writeAmid
    split
    · rename_i h
      cases h
    · rfl
  unfold receiveChunkAmid receiveChunk
  cases ts.get? chunk.path with
  | none => rfl
  | some t =>
    simp only [write]
    rcases t.write chunk v with ⟨_ | ⟨rest, t'⟩, w⟩
    · rfl
    · simp only [installAmid_none]

/-- A chunk is written to the staging file, or what was written of it goes with that file. -/
theorem writeAmid_cases (x : Option Mishap) (t : Transfer) (chunk : FileChunk) (v : Volume) :
    (∃ e w, t.writeAmid x chunk v = (.error e, w) ∧ Kept (· = t.staging.location) v w ∧ t.EndedBy x chunk) ∨
      (t.fault? chunk = none ∧ (∀ written cause, x ≠ some (.write written cause)) ∧
        t.writeAmid x chunk v = (.ok (t.note chunk),
          v.modify t.staging (·.write chunk.offset.toNat chunk.data))) := by
  unfold Transfer.writeAmid
  split
  · exact Or.inl ⟨_, _, rfl, modify_kept _, .unwritten rfl⟩
  · rename_i hwrite
    unfold Transfer.write
    split
    · rename_i hf
      exact Or.inl ⟨_, _, rfl, .refl _ v, .rejected hf⟩
    · rename_i hf
      exact Or.inr ⟨hf, fun written cause hx => hwrite written cause hf hx, rfl⟩

/-- A chunk that is received is unsolicited, ends its transfer, is kept, or completes its transfer. -/
theorem receiveChunkAmid_cases (x : Option Mishap) (s : Store) (chunk : FileChunk) (ts : Transfers) (v : Volume) :
    (ts.get? chunk.path = none ∧
        s.receiveChunkAmid x chunk ts v = (.error (.stale (.unsolicited chunk.path)), ts, v)) ∨
      ∃ t, ts.get? chunk.path = some t ∧
        ((t.EndedBy x chunk ∧ ∃ answer w, s.receiveChunkAmid x chunk ts v = (answer, ts.drop chunk.path w) ∧
            Kept (· = t.staging.location) v w ∧ ∀ replies, answer = .ok replies →
            replies = [] ∧ chunk.data = []) ∨
          (t.fault? chunk = none ∧ chunk.data ≠ [] ∧ (∀ written cause, x ≠ some (.write written cause)) ∧
            ((t.note chunk).2.complete = false ∧ s.receiveChunkAmid x chunk ts v =
                (.ok ((t.note chunk).1.toList.map .requestChunk), ts.insert chunk.path (t.note chunk).2,
                  v.modify t.staging (·.write chunk.offset.toNat chunk.data)) ∨
              (t.note chunk).2.complete = true ∧ ∃ answer w, s.installAmid x (t.note chunk).2
                  (v.modify t.staging (·.write chunk.offset.toNat chunk.data)) = (answer, w) ∧
                s.receiveChunkAmid x chunk ts v = (answer, ts.erase chunk.path, w)))) := by
  unfold receiveChunkAmid
  split
  · rename_i ht
    exact Or.inl ⟨ht, rfl⟩
  rename_i t ht
  refine Or.inr ⟨t, ht, ?_⟩
  split
  · rename_i hrefusal
    have hd : chunk.data = [] := by simpa [FileChunk.refusal] using hrefusal
    exact Or.inl ⟨.refusal hd, _, v, rfl, .refl _ v, fun replies h => ⟨(Except.ok.inj h).symm, hd⟩⟩
  rename_i hrefusal
  have hd : chunk.data ≠ [] := by simpa [FileChunk.refusal] using hrefusal
  rcases writeAmid_cases x t chunk v with ⟨e, w, hw, hk, ended⟩ | ⟨hf, hx, hw⟩
  · rw [hw]
    exact Or.inl ⟨ended, _, w, rfl, hk, fun _ h => by cases h⟩
  · rw [hw]
    refine Or.inr ⟨hf, hd, hx, ?_⟩
    dsimp only
    cases hc : (t.note chunk).2.complete
    · exact Or.inl ⟨rfl, rfl⟩
    · exact Or.inr ⟨rfl, _, _, rfl, rfl⟩

end Store

end TreeReplica
