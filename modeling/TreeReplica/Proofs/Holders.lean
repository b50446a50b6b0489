import TreeReplica.Proofs.Holders.Sound
import TreeReplica.Proofs.Sample

/-! Leases side by side. Who asks for a record that is held is refused, and who asks for one that nobody holds
    is granted it. So the holders of leases exclude each other, and together they do to each record what they
    would do one after the other (`Holders.leases_compose`). -/

namespace TreeReplica
open Volume

namespace Holders

/-! ### Asking for a lease that is held -/

section Locked
variable {s : Store} {first : Site → Record} {h : Holders} {w : Volume} {path file text : String} {n : String}
  {l : Lease}

/-- Whose record is held is refused, and nothing changes. -/
theorem Sound.locked_of_held (hs : h.Sound s first) (hl : h.leases.get? n = some l) (hr : s.resolve path = .ok file)
    {id : Nat} {content : Content}
    (hf : h.volume.find (Path.sidecar file) = .ok (l.handle.location, .file id content)) :
    s.acquire path h.volume = (.error (.recordLocked (Path.sidecar file)), h.volume) ∧
      s.acquireTracked path h.volume = (.error (.recordLocked (Path.sidecar file)), h.volume) := by
  obtain ⟨σ, hσ⟩ := hs.held hl
  obtain ⟨_, _, -, hlook, -⟩ := hσ.written
  have hid : id = l.handle.id := by
    obtain ⟨-, -, -, -, hlook'⟩ := find_file hf
    rw [hσ.location, hlook, Option.some.injEq, Entry.file.injEq] at hlook'
    exact hlook'.1.symm
  have ha : s.acquire path h.volume = (.error (.recordLocked (Path.sidecar file)), h.volume) := by
    rw [Store.acquire_of_find hr hf, if_pos]
    simpa [isLocked, hid] using hσ.locked
  refine ⟨ha, ?_⟩
  have ht : s.tracked path h.volume = .ok true := by
    unfold Store.tracked present
    simp [hr, hf, Except.map]
  unfold Store.acquireTracked
  rw [ht]
  dsimp only
  rw [ha]

theorem opened_of_locked {v : Volume} (ha : s.acquire path v = (.error (.recordLocked text), w)) :
    ∃ handle σ content, Store.Opened s path v w handle σ content ∧ handle.id ∈ w.locked := by
  unfold Store.acquire at ha
  split at ha
  · rename_i e hr
    obtain ⟨why, rfl⟩ := Store.resolve_error hr
    cases ha
  · rename_i file hr
    dsimp only at ha
    have hk := fun P => createDirectories_kept P v (Path.parent (Path.sidecar file))
    split at ha
    · cases ha
    · rename_i v₁ hc
      rw [hc] at hk
      split at ha
      · cases ha
      · rename_i handle v₂ ho
        split at ha
        · rename_i hlock
          cases ha
          obtain ⟨σ, content, o⟩ := Store.opened_of_ok hk hr ho
          exact ⟨handle, σ, content, o, by simpa [isLocked] using hlock⟩
        · obtain ⟨fault, he, -⟩ := Store.grant_error ha
          cases he

/-- Who is refused as locked asked for a record that is held. -/
theorem Sound.held_of_locked (hs : h.Sound s first)
    (ha : s.acquire path h.volume = (.error (.recordLocked text), w)) :
    ∃ σ n l, s.Leads w path σ ∧ h.leases.get? n = some l ∧ l.handle.location = σ.record := by
  obtain ⟨handle, σ, content, o, hid⟩ := opened_of_locked ha
  obtain ⟨n, l, hl, he⟩ := hs.locked (o.kept.locked ▸ hid)
  obtain ⟨τ, hτ⟩ := hs.held hl
  obtain ⟨_, _, -, hlook, -⟩ := hτ.written
  refine ⟨σ, n, l, o.leads, hl, hτ.location.trans ?_⟩
  rcases o.found with hsame | ⟨-, hnew, -⟩
  · exact hs.numbered.apart hlook (by rw [← hsame, he]; exact o.file)
  · exact absurd (hs.numbered.old hlook) (by rw [he]; exact Nat.not_lt.mpr hnew)

/-- A record that nobody holds is granted, wherever its file can be opened. -/
theorem Sound.granted (hs : h.Sound s first) {v₁ v₂ : Volume} {handle : Handle} (hr : s.resolve path = .ok file)
    (hc : h.volume.createDirectories (Path.parent (Path.sidecar file)) = (.ok (), v₁))
    (ho : v₁.openOrCreate (Path.sidecar file) = (.ok handle, v₂))
    (free : ∀ n l, h.leases.get? n = some l → l.handle.location ≠ handle.location) :
    ∃ lease w, s.acquire path h.volume = (.ok lease, w) := by
  have hk : ∀ P, Kept P h.volume v₁ := fun P => by
    have := createDirectories_kept P h.volume (Path.parent (Path.sidecar file))
    rwa [hc] at this
  obtain ⟨σ, content, o⟩ := Store.opened_of_ok hk hr ho
  have ha : s.acquire path h.volume = if v₂.isLocked handle then (.error (.recordLocked (Path.sidecar file)), v₂)
      else Store.grant path file handle v₂ := by
    simp only [Store.acquire, hr, hc, ho]
  cases hl : v₂.isLocked handle with
  | true =>
    rw [hl, if_pos rfl] at ha
    obtain ⟨τ, n, l, leads, hn, he⟩ := hs.held_of_locked ha
    obtain rfl := leads.unique o.leads
    exact absurd (he.trans o.location.symm) (free n l hn)
  | false =>
    rw [hl, if_neg Bool.false_ne_true] at ha
    rcases hg : Store.grant path file handle v₂ with ⟨e | lease, w⟩
    · -- Only a record that cannot be read is not granted then.
      obtain ⟨fault, -, hne, hd, -⟩ := Store.grant_error hg
      rw [o.read?, Option.getD_some] at hne hd
      obtain ⟨r?, hread⟩ := hs.readable σ content (content?_eq_some.mpr ⟨handle.id, o.found_of_ne hne ▸ o.file⟩)
      rw [Record.stored_eq_error.mpr ⟨hne, hd⟩] at hread
      cases hread
    · exact ⟨lease, w, ha.trans hg⟩

end Locked

/-! ### Working under a lease -/

section Scoped
variable {s : Store} {first : Site → Record} {h : Holders} {n : String}

/-- What others do leaves a lease with its holder. -/
theorem step_other {st : Step} (hst : st.holder? ≠ some n) : (h.step s st).leases.get? n = h.leases.get? n := by
  have insert : ∀ {m} (l : Lease), some m ≠ some n →
      (h.leases.insert m l).get? n = h.leases.get? n := fun l hm => by
    rw [Table.get?_insert, if_neg fun he => hm (congrArg some he)]
  have take : ∀ {m} (taken : Except Fault (Option Lease) × Volume), some m ≠ some n →
      (h.take m taken).leases.get? n = h.leases.get? n := fun taken hm => by
    unfold Holders.take
    split
    · exact insert _ hm
    · rfl
  unfold Holders.step
  cases st with
  | acquire m path =>
    dsimp only
    split
    · rfl
    · exact take _ hst
  | acquireTracked m path =>
    dsimp only
    split
    · rfl
    · exact take _ hst
  | change m f =>
    dsimp only
    split
    · rfl
    · exact insert _ hst
  | persist m =>
    dsimp only
    split
    · rfl
    · exact insert _ hst
  | release m =>
    dsimp only
    split
    · rfl
    · rw [Table.get?_erase, if_neg fun he => hst (congrArg some he)]
  | work work => rfl

theorem run_other {steps : List Step} (hsteps : ∀ st ∈ steps, st.holder? ≠ some n) :
    (h.run s steps).leases.get? n = h.leases.get? n := by
  induction steps generalizing h with
  | nil => rfl
  | cons st steps ih =>
    have hrest := ih (h := h.step s st) fun st' hst' => hsteps st' (List.mem_cons_of_mem _ hst')
    exact hrest.trans (step_other (hsteps st List.mem_cons_self))

theorem step_acquire {path : String} {lease : Lease} {w : Volume} (hn : h.leases.get? n = none)
    (ha : s.acquire path h.volume = (.ok lease, w)) : h.step s (.acquire n path) =
      ⟨w, h.leases.insert n lease, h.log ++ [(lease.handle.location, .began n lease.record)]⟩ := by
  simp only [Holders.step, hn, ha]
  rfl

theorem step_change {l : Lease} (hl : h.leases.get? n = some l) (f : Record → Record) : h.step s (.change n f) =
    ⟨h.volume, h.leases.insert n { l with record := f l.record },
      h.log ++ [(l.handle.location, .changed n f)]⟩ := by
  simp only [Holders.step, hl]

theorem step_release {l : Lease} (hl : h.leases.get? n = some l) : h.step s (.release n) =
    ⟨l.release h.volume, h.leases.erase n, h.log ++ [(l.handle.location, .ended n l.record)]⟩ := by
  simp only [Holders.step, hl]

/-- The end of a lease leaves its record in its file, and nobody holds that any more. -/
theorem Sound.released (hs : h.Sound s first) {l : Lease} {σ : Site} (hl : h.leases.get? n = some l)
    (hσ : l.handle.location = σ.record) : (h.step s (.release n)).volume.record? σ = some l.record ∧
      ∀ m l', (h.step s (.release n)).leases.get? m = some l' → l'.handle.location ≠ σ.record := by
  obtain ⟨τ, hτ⟩ := hs.held hl
  obtain rfl : σ = τ := Site.record_injective (hσ.symm.trans hτ.location)
  rw [step_release hl]
  refine ⟨hτ.persist.2.2.2, fun m l' hm he => ?_⟩
  obtain ⟨hne, hm⟩ := Table.of_get?_erase hm
  exact hne (hs.alone hm hl (he.trans hσ.symm))

/-- Work under a lease is a lease that is taken, what others do meanwhile, one change and the end of the lease. -/
theorem Sound.scoped {α : Type} (hs : h.Sound s first) (hn : h.leases.get? n = none) {path : String} {lease : Lease}
    {w : Volume} {σ : Site} (ha : s.acquire path h.volume = (.ok lease, w))
    (hσ : s.Leads w path σ) (body : Store.Body α) {steps : List Step}
    (hsteps : ∀ st ∈ steps, st.holder? ≠ some n) {answer : Except Fault α} {r : Record}
    (hb : body lease w = (answer, r, (h.run s (.acquire n path :: steps)).volume)) :
    s.withLease path body h.volume =
        (answer, (h.run s (.acquire n path :: steps ++ [.change n fun _ => r, .release n])).volume) ∧
      (h.run s (.acquire n path :: steps ++ [.change n fun _ => r, .release n])).volume.record? σ = some r ∧
      ∀ m l, (h.run s (.acquire n path :: steps ++ [.change n fun _ => r, .release n])).leases.get? m = some l →
        l.handle.location ≠ σ.record := by
  obtain ⟨τ, g⟩ := Store.acquire_ok ha
  obtain rfl : σ = τ := hσ.unique g.leads
  generalize hrun : h.run s (.acquire n path :: steps) = h₂ at hb
  have hlease : h₂.leases.get? n = some lease := by
    rw [← hrun]
    show ((h.step s (.acquire n path)).run s steps).leases.get? n = some lease
    rw [run_other hsteps, step_acquire hn ha, Table.get?_insert, if_pos rfl]
  have hchanged : (h₂.step s (.change n fun _ => r)).leases.get? n = some { lease with record := r } := by
    rw [step_change hlease, Table.get?_insert, if_pos rfl]
  have hend : h.run s (.acquire n path :: steps ++ [.change n fun _ => r, .release n]) =
      (h₂.step s (.change n fun _ => r)).step s (.release n) := by
    rw [← hrun]
    exact List.foldl_append
  have hs₂ : h₂.Sound s first := hrun ▸ hs.run _
  rw [hend]
  refine ⟨?_, (hs₂.step _).released hchanged g.location⟩
  rw [step_release hchanged, step_change hlease]
  unfold Store.withLease Store.during
  rw [ha]
  dsimp only
  rw [hb]

theorem withTracked_of_tracked {α : Type} {path : String} {v : Volume} (ht : s.tracked path v = .ok true)
    (body : Store.Body α) : s.withTracked path body v =
      ((s.withLease path body v).1.map some, (s.withLease path body v).2) := by
  unfold Store.withTracked Store.acquireTracked Store.withLease
  rw [ht]
  dsimp only
  rcases s.acquire path v with ⟨e | lease, w⟩
  · rfl
  · dsimp only
    rcases Store.during lease body w with ⟨e | a, w₂⟩ <;> rfl

end Scoped

/-! ### The discipline of leases -/

/-- What holds of the leases on a volume that was `v` when nobody held one. -/
structure Disciplined (s : Store) (v : Volume) (h : Holders) : Prop where
  /-- No record is held twice, whatever spellings of its path are used. -/
  exclusive : ∀ {m n l l' σ}, h.leases.get? m = some l → h.leases.get? n = some l' →
    s.Leads h.volume l.path σ → s.Leads h.volume l'.path σ → m = n
  /-- Who asks for a record that is held is told so, and nothing changes. -/
  refused : ∀ {n l path file id content}, h.leases.get? n = some l → s.resolve path = .ok file →
    h.volume.find (Path.sidecar file) = .ok (l.handle.location, .file id content) →
    s.acquire path h.volume = (.error (.recordLocked (Path.sidecar file)), h.volume) ∧
      s.acquireTracked path h.volume = (.error (.recordLocked (Path.sidecar file)), h.volume)
  /-- Nobody is told so of a record that is not held. -/
  locked : ∀ {path text w}, s.acquire path h.volume = (.error (.recordLocked text), w) →
    ∃ σ n l, s.Leads w path σ ∧ h.leases.get? n = some l ∧ l.handle.location = σ.record
  /-- A record that nobody holds is granted, wherever its file can be opened. -/
  granted : ∀ {path file v₁ handle v₂}, s.resolve path = .ok file →
    h.volume.createDirectories (Path.parent (Path.sidecar file)) = (.ok (), v₁) →
    v₁.openOrCreate (Path.sidecar file) = (.ok handle, v₂) →
    (∀ n l, h.leases.get? n = some l → l.handle.location ≠ handle.location) →
    ∃ lease w, s.acquire path h.volume = (.ok lease, w)
  /-- Who is given no lease, for whatever reason, changes no record. -/
  unchanged : ∀ {path e w}, s.acquire path h.volume = (.error e, w) → ∀ σ, w.record? σ = h.volume.record? σ
  /-- A lease begins with the record that the one before it ended with. -/
  handed_on : ∀ {σ : Site} {front back m n r r'},
    h.logAt σ.record = front ++ .ended m r :: .began n r' :: back → r' = r
  /-- The record of a held lease is what all changes made of the first one, lease by lease. -/
  held : ∀ {σ n l}, h.leases.get? n = some l → l.handle.location = σ.record →
    Serial ((v.record? σ).getD .initial) (h.logAt σ.record) (some n) l.record ∧
      l.record = (Serial.changes (h.logAt σ.record)).foldl (fun r f => f r) ((v.record? σ).getD .initial)
  /-- So is the record that nobody holds. -/
  free : ∀ {σ}, (∀ n l, h.leases.get? n = some l → l.handle.location ≠ σ.record) →
    Serial ((v.record? σ).getD .initial) (h.logAt σ.record) none ((h.volume.record? σ).getD .initial) ∧
      (h.volume.record? σ).getD .initial =
        (Serial.changes (h.logAt σ.record)).foldl (fun r f => f r) ((v.record? σ).getD .initial)
  /-- Work under a lease, while others go on, answers what its body answers. It leaves the record that the body
      decided on in its file, and no lease of it. -/
  under : ∀ {α : Type} {n path lease w σ steps} {body : Store.Body α} {answer r}, h.leases.get? n = none →
    s.acquire path h.volume = (.ok lease, w) → s.Leads w path σ → (∀ st ∈ steps, st.holder? ≠ some n) →
    body lease w = (answer, r, (h.run s (.acquire n path :: steps)).volume) →
    ∃ h', h' = h.run s (.acquire n path :: steps ++ [.change n fun _ => r, .release n]) ∧
      s.withLease path body h.volume = (answer, h'.volume) ∧
      (s.tracked path h.volume = .ok true → s.withTracked path body h.volume = (answer.map some, h'.volume)) ∧
      h'.volume.record? σ = some r ∧ ∀ m l, h'.leases.get? m = some l → l.handle.location ≠ σ.record

/-- Any number of holders, with any steps on any paths: leases exclude each other, and together they do to each
    record what they would do one after the other. -/
theorem leases_compose {s : Store} {v : Volume} (hr : v.Readable) (hn : v.Numbered)
    (hu : v.locked = []) (steps : List Step) :
    Disciplined s v ((start v).run s steps) := by
  have hs := (sound_start (s := s) hr hn hu).run steps
  constructor
  case exclusive =>
    intro m n l l' σ hm hl hσ hσ'
    obtain ⟨τ, hτ⟩ := hs.held hm
    obtain ⟨ρ, hρ⟩ := hs.held hl
    obtain rfl := hσ.unique hτ.leads
    obtain rfl := hσ'.unique hρ.leads
    exact hs.alone hm hl (hτ.location.trans hρ.location.symm)
  case refused => exact fun hl hres hf => hs.locked_of_held hl hres hf
  case locked => exact fun ha => hs.held_of_locked ha
  case granted => exact fun hres hc ho hfree => hs.granted hres hc ho hfree
  case unchanged => exact fun ha σ => (hs.refused ha fun _ => False).record? id
  case handed_on =>
    intro σ front back m n r r' hlog
    by_cases hheld : ∃ k l, ((start v).run s steps).leases.get? k = some l ∧ l.handle.location = σ.record
    · obtain ⟨k, l, hl, hσ⟩ := hheld
      exact (hlog ▸ hs.serial σ hl hσ).handed_on
    · exact (hlog ▸ hs.free σ fun k l hl hσ => hheld ⟨k, l, hl, hσ⟩).handed_on
  case held => exact fun hl hσ => ⟨hs.serial _ hl hσ, (hs.serial _ hl hσ).composes⟩
  case free => exact fun hσ => ⟨hs.free _ hσ, (hs.free _ hσ).composes⟩
  case under =>
    intro α n path lease w σ others body answer r hfree ha hσ hothers hb
    obtain ⟨hw, hrec, hnone⟩ := hs.scoped hfree ha hσ body hothers hb
    exact ⟨_, rfl, hw, fun ht => by rw [withTracked_of_tracked ht, hw], hrec, hnone⟩

theorem sampleVolume_numbered (bytes : Bytes) : (sampleVolume bytes).Numbered := by
  have only : ∀ {l id content}, (sampleVolume bytes).lookup l = some (.file id content) →
      l = ["r", "a"] ∧ id = 0 := by
    intro l id content hl
    have hne : l ≠ [] := fun he => by
      rw [he] at hl
      cases hl
    rcases List.mem_cons.mp (mem_entries_of_lookup hne hl) with h | h
    · cases h
    · rcases List.mem_cons.mp h with h | h
      · cases h
        exact ⟨rfl, rfl⟩
      · cases h
  exact ⟨fun hl => by rw [(only hl).2]; exact Nat.one_pos, fun hl hl' => (only hl).1.trans (only hl').1.symm⟩

/-- One holder edits a record while another one asks for it, too early and again. -/
def sampleSteps : List Step :=
  [.acquire "x" "a", .change "x" .edit, .acquire "y" "./a", .release "x", .acquireTracked "y" "./a"]

/-- The second holder is refused first, and is then granted the record with the edit of the first one. -/
theorem sample_leases_compose : (sampleVolume [1]).Readable ∧ (sampleVolume [1]).Numbered ∧
    (sampleVolume [1]).locked = [] ∧
    ((start (sampleVolume [1])).run ⟨"r"⟩ (sampleSteps.take 3)).leases.keys = ["x"] ∧
    ∃ l, ((start (sampleVolume [1])).run ⟨"r"⟩ sampleSteps).leases.get? "y" = some l ∧
      l.record = ⟨0, 1, .dirty⟩ ∧
      Serial .initial (((start (sampleVolume [1])).run ⟨"r"⟩ sampleSteps).logAt ["r", ".a.tsmeta"])
        (some "y") l.record ∧
      l.record =
        (Serial.changes (((start (sampleVolume [1])).run ⟨"r"⟩ sampleSteps).logAt ["r", ".a.tsmeta"])).foldl
          (fun r f => f r) .initial := by
  have hr : (sampleVolume [1]).Readable := fun σ content hc => by
    rw [sampleVolume_unrecorded [1] σ.recordPlace_record] at hc
    cases hc
  have granted : (((start (sampleVolume [1])).run ⟨"r"⟩ sampleSteps).leases.get? "y").map
      (fun l => (l.handle.location, l.record)) = some (["r", ".a.tsmeta"], ⟨0, 1, .dirty⟩) := by decide +kernel
  obtain ⟨l, hl, heq⟩ := Option.map_eq_some_iff.mp granted
  obtain ⟨hlocation, hrecord⟩ := Prod.mk.inj heq
  have hsite : (⟨["r"], "a"⟩ : Site).record = ["r", ".a.tsmeta"] := by decide +kernel
  have hfirst : (sampleVolume [1]).record? ⟨["r"], "a"⟩ = none := by decide +kernel
  have discipline : Disciplined ⟨"r"⟩ (sampleVolume [1]) ((start (sampleVolume [1])).run ⟨"r"⟩ sampleSteps) :=
    leases_compose hr (sampleVolume_numbered [1]) rfl sampleSteps
  have held := discipline.held hl (hlocation.trans hsite.symm)
  rw [hsite, hfirst] at held
  exact ⟨hr, sampleVolume_numbered [1], rfl, by decide +kernel, l, hl, hrecord, held⟩

end Holders

end TreeReplica
