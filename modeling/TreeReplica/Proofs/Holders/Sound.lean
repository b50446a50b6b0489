import TreeReplica.Proofs.Holders.Serial

/-! What every step of the holders keeps. A lease holds its record as long as its file is locked (`Holds`),
    every lock belongs to a lease, and record by record there is one lease after the other (`Holders.Sound`). -/

namespace TreeReplica
open Volume

/-! ### Held leases -/

/-- Every record file can be read; an empty one holds no record yet. -/
def Volume.Readable (v : Volume) : Prop :=
  ∀ (σ : Site) (content : Content), v.content? σ.record = some content → ∃ r?, Record.stored content = .ok r?

/-- A lease of the record at a site: its lock is held, and the file holds what the lease wrote last. -/
structure Holds (s : Store) (v : Volume) (l : Lease) (σ : Site) : Prop where
  leads : s.Leads v l.path σ
  location : l.handle.location = σ.record
  locked : l.handle.id ∈ v.locked
  written : ∃ r content, l.written = some r ∧ v.lookup σ.record = some (.file l.handle.id content) ∧
    Record.decode content.toList = .ok r

namespace Holds
variable {s : Store} {v w : Volume} {l : Lease} {σ τ : Site} {P : Location → Prop}

theorem kept (h : Holds s v l σ) (hk : Kept P v w) (hP : ¬P σ.record) : Holds s w l σ := by
  obtain ⟨r, content, hw, hl, hd⟩ := h.written
  exact ⟨h.leads.kept hk, h.location, hk.locked ▸ h.locked, r, content, hw, hk.file hP hl, hd⟩

theorem lock (h : Holds s v l σ) (handle : Handle) : Holds s (v.lock handle) l σ :=
  ⟨h.leads.lock handle, h.location, List.mem_cons_of_mem _ h.locked, h.written⟩

theorem unlock (h : Holds s v l σ) {handle : Handle} (hne : l.handle.id ≠ handle.id) :
    Holds s (v.unlock handle) l σ :=
  ⟨h.leads.unlock handle, h.location, List.mem_filter.mpr ⟨h.locked, by simpa using hne⟩, h.written⟩

/-- Writing a held record back leaves it in its file, and leaves all else. -/
theorem persist (h : Holds s v l σ) : (l.persist v).1 = { l with written := some l.record } ∧
    Kept (· = σ.record) v (l.persist v).2 ∧ Holds s (l.persist v).2 (l.persist v).1 σ ∧
    (l.persist v).2.record? σ = some l.record := by
  obtain ⟨r, content, hw, hl, hd⟩ := h.written
  unfold Lease.persist
  split
  · rename_i he
    obtain rfl : r = l.record := Option.some.inj (hw.symm.trans he)
    exact ⟨by rw [← he], .refl _ v, h, record?_eq_some.mpr ⟨_, content, hl, hd⟩⟩
  · have hk : Kept (· = σ.record) v (v.modify l.handle fun _ => .ofBytes l.record.encode) :=
      (modify_kept _).mono fun m hm => hm.trans h.location
    have hl' : (v.modify l.handle fun _ => .ofBytes l.record.encode).lookup σ.record =
        some (.file l.handle.id (.ofBytes l.record.encode)) := by
      rw [lookup_modify, read?_eq_some.mpr (h.location ▸ hl), h.location]
      exact if_pos rfl
    have hd' : Record.decode (Content.ofBytes l.record.encode).toList = .ok l.record := by
      rw [Content.toList_ofBytes, Record.decode_encode]
    exact ⟨rfl, hk, ⟨h.leads.kept hk, h.location, hk.locked ▸ h.locked, _, _, rfl, hl', hd'⟩,
      record?_eq_some.mpr ⟨_, _, hl', hd'⟩⟩

end Holds

/-- The record that a lease begins with: the one that was there, or the initial one. -/
theorem Granted.begins {s : Store} {path : String} {v w : Volume} {lease : Lease} {σ : Site}
    (g : Granted s path v lease w σ) : lease.record = (v.record? σ).getD .initial := by
  obtain ⟨content, hl, hd⟩ := g.stored
  rcases g.before with ⟨-, hsame⟩ | ⟨-, hinit, hempty⟩
  · rw [record?_eq_some.mpr ⟨_, content, hsame ▸ hl, hd⟩]
    rfl
  · cases hr : v.record? σ with
    | none => exact hinit
    | some r =>
      obtain ⟨id, content', hl', hd'⟩ := record?_eq_some.mp hr
      exact absurd (hempty content' (content?_eq_some.mpr ⟨id, hl'⟩)) (Record.ne_nil_of_decode hd')

theorem Store.path_of_acquire {s : Store} {path : String} {v w : Volume} {lease : Lease}
    (ha : s.acquire path v = (.ok lease, w)) : lease.path = path := by
  obtain ⟨v₁, -, ⟨e, he⟩ | ⟨file, h, v₂, -, -, ⟨-, he⟩ | ⟨-, hg⟩⟩⟩ := acquire_cases s path v
  · simp [he] at ha
  · simp [he] at ha
  · rw [hg] at ha
    unfold grant at ha
    dsimp only at ha
    split at ha
    · simp at ha
    · obtain ⟨rfl, -⟩ := Prod.mk.inj ha |>.imp Except.ok.inj id
      rfl
    · obtain ⟨rfl, -⟩ := Prod.mk.inj ha |>.imp Except.ok.inj id
      unfold Lease.persist
      split <;> rfl

namespace Holders

/-- Locks and held leases are the same thing, and to each record it happened what one lease after the other
    does to it. The records were `first` before. -/
structure Sound (s : Store) (first : Site → Record) (h : Holders) : Prop where
  readable : h.volume.Readable
  numbered : h.volume.Numbered
  held : ∀ {n l}, h.leases.get? n = some l → ∃ σ, Holds s h.volume l σ
  locked : ∀ {id}, id ∈ h.volume.locked → ∃ n l, h.leases.get? n = some l ∧ l.handle.id = id
  apart : ∀ {m n l l'}, h.leases.get? m = some l → h.leases.get? n = some l' → l.handle.id = l'.handle.id → m = n
  serial : ∀ σ {n l}, h.leases.get? n = some l → l.handle.location = σ.record →
    Serial (first σ) (h.logAt σ.record) (some n) l.record
  free : ∀ σ, (∀ n l, h.leases.get? n = some l → l.handle.location ≠ σ.record) →
    Serial (first σ) (h.logAt σ.record) none ((h.volume.record? σ).getD .initial)

/-- The log after one more happening, in whatever holders it stands. -/
theorem logAt_append {h : Holders} {v : Volume} {leases : Table String Lease} (l m : Location) (a : Happening) :
    (⟨v, leases, h.log ++ [(l, a)]⟩ : Holders).logAt m = if l = m then h.logAt m ++ [a] else h.logAt m := by
  unfold logAt
  by_cases he : l = m <;> simp [he]

namespace Sound
variable {s : Store} {first : Site → Record} {h : Holders} {w : Volume} {P : Location → Prop} {n : String}
  {l l' : Lease} {σ : Site}

/-- No record has two leases. -/
theorem alone (hs : h.Sound s first) {m : String} (hm : h.leases.get? m = some l) (hn : h.leases.get? n = some l')
    (he : l.handle.location = l'.handle.location) : m = n := by
  obtain ⟨σ, hσ⟩ := hs.held hm
  obtain ⟨τ, hτ⟩ := hs.held hn
  obtain rfl : σ = τ := Site.record_injective (hσ.location.symm.trans (he.trans hτ.location))
  obtain ⟨_, _, -, hl, -⟩ := hσ.written
  obtain ⟨_, _, -, hl', -⟩ := hτ.written
  rw [hl, Option.some.injEq, Entry.file.injEq] at hl'
  exact hs.apart hm hn hl'.1

/-- What leaves records and locks leaves the holders. -/
theorem kept (hs : h.Sound s first) (hk : Kept P h.volume w) (hP : ∀ σ : Site, ¬P σ.record) (hw : w.Numbered) :
    ({ h with volume := w } : Holders).Sound s first where
  readable σ content hc := hs.readable σ content (by rw [← hk.content? (hP σ), hc])
  numbered := hw
  held hl := (hs.held hl).imp fun σ hσ => hσ.kept hk (hP σ)
  locked hid := hs.locked (hk.locked ▸ hid)
  apart := hs.apart
  serial := hs.serial
  free σ hσ := by
    show Serial _ _ none ((w.record? σ).getD .initial)
    rw [hk.record? (hP σ)]
    exact hs.free σ hσ

theorem readable_of_kept {v : Volume} {r : Record} {id : Nat} {content : Content} (hr : v.Readable)
    (hk : Kept (· = σ.record) v w) (hl : w.lookup σ.record = some (.file id content))
    (hd : Record.decode content.toList = .ok r) : w.Readable := by
  intro τ content' hc
  by_cases he : τ.record = σ.record
  · obtain ⟨id', hl'⟩ := content?_eq_some.mp hc
    rw [he, hl] at hl'
    cases hl'
    exact ⟨some r, Record.stored_eq_some.mpr hd⟩
  · exact hr τ content' (by rw [← hk.content? he, hc])

/-- A holder has another record now, or has written it back. -/
theorem replaced {log : List (Location × Happening)} (hs : h.Sound s first) (hl : h.leases.get? n = some l)
    (hσ : Holds s h.volume l σ) (hk : Kept (· = σ.record) h.volume w) (hw : w.Numbered) (hσ' : Holds s w l' σ)
    (hid : l'.handle = l.handle)
    (hserial : Serial (first σ) ((⟨w, h.leases, log⟩ : Holders).logAt σ.record) (some n) l'.record)
    (hlog : ∀ τ : Site, τ.record ≠ σ.record →
      (⟨w, h.leases, log⟩ : Holders).logAt τ.record = h.logAt τ.record) :
    (⟨w, h.leases.insert n l', log⟩ : Holders).Sound s first := by
  -- Besides the lease that is replaced, every lease is one that was held, on another record.
  have others : ∀ {m l₁}, (h.leases.insert n l').get? m = some l₁ →
      (m = n ∧ l₁ = l') ∨ (h.leases.get? m = some l₁ ∧ l₁.handle.location ≠ σ.record) := fun hm =>
    (Table.of_get?_insert hm).imp id fun ⟨hne, hm⟩ =>
      ⟨hm, fun he => hne (hs.alone hm hl (he.trans hσ.location.symm))⟩
  obtain ⟨r, content, -, hlook, hd⟩ := hσ'.written
  constructor
  case readable => exact readable_of_kept hs.readable hk hlook hd
  case numbered => exact hw
  case held =>
    intro m l₁ hm
    rcases others hm with ⟨-, rfl⟩ | ⟨hm, hne⟩
    · exact ⟨σ, hσ'⟩
    · obtain ⟨τ, hτ⟩ := hs.held hm
      exact ⟨τ, hτ.kept hk fun he => hne (hτ.location.trans he)⟩
  case locked =>
    intro id hid'
    obtain ⟨m, l₁, hm, he⟩ := hs.locked (hk.locked ▸ hid')
    by_cases hmn : m = n
    · subst hmn
      obtain rfl := Option.some.inj (hl.symm.trans hm)
      exact ⟨m, l', by simp, hid ▸ he⟩
    · exact ⟨m, l₁, by simp [Ne.symm hmn, hm], he⟩
  case apart =>
    have before : ∀ {m l₁}, (h.leases.insert n l').get? m = some l₁ →
        ∃ l₀, h.leases.get? m = some l₀ ∧ l₀.handle.id = l₁.handle.id := fun hm => by
      rcases others hm with ⟨rfl, rfl⟩ | ⟨hm, -⟩
      · exact ⟨l, hl, by rw [hid]⟩
      · exact ⟨_, hm, rfl⟩
    intro m m' l₁ l₂ hm hm' he
    obtain ⟨l₁', h₁, he₁⟩ := before hm
    obtain ⟨l₂', h₂, he₂⟩ := before hm'
    exact hs.apart h₁ h₂ (he₁.trans (he.trans he₂.symm))
  case serial =>
    intro τ m l₁ hm hτ
    rcases others hm with ⟨rfl, rfl⟩ | ⟨hm, hne⟩
    · obtain rfl : τ = σ := Site.record_injective (by rw [← hτ, hid, hσ.location])
      exact hserial
    · have hτσ : τ.record ≠ σ.record := fun he => hne (hτ.trans he)
      exact (hlog τ hτσ) ▸ hs.serial τ hm hτ
  case free =>
    intro τ hτ
    have hτσ : τ.record ≠ σ.record := fun he => hτ n l' (by simp) (by rw [hid, hσ.location, he])
    have free := hs.free τ fun m l₁ hm => by
      by_cases hmn : m = n
      · subst hmn
        obtain rfl := Option.some.inj (hl.symm.trans hm)
        exact hid ▸ hτ m l' (by simp)
      · exact hτ m l₁ (by simp [Ne.symm hmn, hm])
    show Serial (first τ) _ none ((w.record? τ).getD .initial)
    rw [hk.record? hτσ]
    exact (hlog τ hτσ) ▸ free

/-- A record that is granted is held by nobody: its file would be locked. -/
theorem unheld {path : String} (hs : h.Sound s first) (g : Granted s path h.volume l w σ) :
    ∀ m l', h.leases.get? m = some l' → l'.handle.location ≠ σ.record := fun m l' hm he => by
  have hid : l.handle.id ∉ h.volume.locked := by simpa [isLocked] using g.unlocked
  obtain ⟨content, hlook, -⟩ := g.stored
  obtain ⟨τ, hτ⟩ := hs.held hm
  obtain rfl : τ = σ := Site.record_injective (hτ.location.symm.trans he)
  obtain ⟨r, content', -, hlook', hd'⟩ := hτ.written
  rcases g.before with ⟨-, hsame⟩ | ⟨-, -, hempty⟩
  · rw [← hsame, hlook, Option.some.injEq, Entry.file.injEq] at hlook'
    exact hid (hlook'.1 ▸ hτ.locked)
  · exact Record.ne_nil_of_decode hd' (hempty content' (content?_eq_some.mpr ⟨_, hlook'⟩))

theorem taken {path : String} (hs : h.Sound s first) (hn : h.leases.get? n = none)
    (ha : s.acquire path h.volume = (.ok l, w)) :
    (⟨w, h.leases.insert n l, h.log ++ [(l.handle.location, .began n l.record)]⟩ : Holders).Sound s first := by
  obtain ⟨σ, g⟩ := Store.acquire_ok ha
  obtain ⟨content, hlook, hd⟩ := g.stored
  have hid : l.handle.id ∉ h.volume.locked := by simpa [isLocked] using g.unlocked
  have hlocked : w.locked = l.handle.id :: h.volume.locked := g.kept.locked
  have hmine : Holds s w l σ := by
    refine ⟨Store.path_of_acquire ha ▸ g.leads, g.location, ?_, l.record, content, g.written, hlook, hd⟩
    rw [hlocked]
    exact List.mem_cons_self
  have hfree := hs.unheld g
  have apart : ∀ {m l₁}, h.leases.get? m = some l₁ → l₁.handle.id ≠ l.handle.id := fun hm he => by
    obtain ⟨τ, hτ⟩ := hs.held hm
    exact hid (he ▸ hτ.locked)
  constructor
  case readable => exact readable_of_kept (v := h.volume.lock l.handle) hs.readable g.kept hlook hd
  case numbered => exact hs.numbered.acquire ha
  case held =>
    intro m l₁ hm
    rcases Table.of_get?_insert hm with ⟨-, rfl⟩ | ⟨-, hm⟩
    · exact ⟨σ, hmine⟩
    · obtain ⟨τ, hτ⟩ := hs.held hm
      exact ⟨τ, (hτ.lock l.handle).kept g.kept fun he => hfree m l₁ hm (hτ.location.trans he)⟩
  case locked =>
    intro id hid'
    rcases List.mem_cons.mp (hlocked ▸ hid') with rfl | hid'
    · exact ⟨n, l, by simp, rfl⟩
    · obtain ⟨m, l₁, hm, he⟩ := hs.locked hid'
      have hmn : m ≠ n := fun hmn => by
        rw [hmn, hn] at hm
        cases hm
      exact ⟨m, l₁, by simp [Ne.symm hmn, hm], he⟩
  case apart =>
    intro m m' l₁ l₂ hm hm' he
    rcases Table.of_get?_insert hm with ⟨hmn, rfl⟩ | ⟨-, h₁⟩ <;>
      rcases Table.of_get?_insert hm' with ⟨hmn', rfl⟩ | ⟨-, h₂⟩
    · rw [hmn, hmn']
    · exact absurd he.symm (apart h₂)
    · exact absurd he (apart h₁)
    · exact hs.apart h₁ h₂ he
  case serial =>
    intro τ m l₁ hm hτ
    rw [logAt_append]
    rcases Table.of_get?_insert hm with ⟨rfl, rfl⟩ | ⟨-, hm⟩
    · obtain rfl : τ = σ := Site.record_injective (hτ.symm.trans g.location)
      rw [if_pos g.location, g.begins]
      exact .began m (hs.free τ hfree)
    · rw [if_neg fun he => hfree m l₁ hm (hτ.trans (he.symm.trans g.location))]
      exact hs.serial τ hm hτ
  case free =>
    intro τ hτ
    have hτσ : τ.record ≠ σ.record := fun he => hτ n l (by simp) (g.location.trans he.symm)
    have free := hs.free τ fun m l₁ hm => hτ m l₁ (by
      have hmn : m ≠ n := fun hmn => by
        rw [hmn, hn] at hm
        cases hm
      simp [Ne.symm hmn, hm])
    rw [logAt_append, if_neg fun he => hτσ (he.symm.trans g.location)]
    show Serial (first τ) _ none ((w.record? τ).getD .initial)
    rw [g.kept.record? hτσ]
    exact free

/-- A lease goes whose record is written back. -/
theorem dropped (hs : h.Sound s first) (hl : h.leases.get? n = some l) (hw : l.written = some l.record) :
    (⟨h.volume.unlock l.handle, h.leases.erase n,
      h.log ++ [(l.handle.location, .ended n l.record)]⟩ : Holders).Sound s first := by
  obtain ⟨σ, hσ⟩ := hs.held hl
  have others : ∀ {m l₁}, h.leases.get? m = some l₁ → m ≠ n →
      (h.leases.erase n).get? m = some l₁ := fun hm hne => by
    rw [Table.get?_erase, if_neg (Ne.symm hne), hm]
  constructor
  case readable => exact hs.readable
  case numbered => exact hs.numbered.unlock _
  case held =>
    intro m l₁ hm
    obtain ⟨hne, hm⟩ := Table.of_get?_erase hm
    obtain ⟨τ, hτ⟩ := hs.held hm
    exact ⟨τ, hτ.unlock fun he => hne (hs.apart hm hl he)⟩
  case locked =>
    intro id hid
    obtain ⟨hid, hne⟩ := List.mem_filter.mp hid
    obtain ⟨m, l₁, hm, he⟩ := hs.locked hid
    refine ⟨m, l₁, others hm fun hmn => ?_, he⟩
    subst hmn
    obtain rfl := Option.some.inj (hl.symm.trans hm)
    simp [he] at hne
  case apart =>
    intro m m' l₁ l₂ hm hm'
    exact hs.apart (Table.of_get?_erase hm).2 (Table.of_get?_erase hm').2
  case serial =>
    intro τ m l₁ hm hτ
    obtain ⟨hne, hm⟩ := Table.of_get?_erase hm
    rw [logAt_append, if_neg fun he => hne (hs.alone hm hl (hτ.trans he.symm))]
    exact hs.serial τ hm hτ
  case free =>
    intro τ hτ
    rw [logAt_append]
    show Serial (first τ) _ none ((h.volume.record? τ).getD .initial)
    by_cases he : l.handle.location = τ.record
    · obtain rfl : τ = σ := Site.record_injective (he.symm.trans hσ.location)
      obtain ⟨r, content, hwr, hlook, hd⟩ := hσ.written
      obtain rfl : r = l.record := Option.some.inj (hwr.symm.trans hw)
      rw [if_pos he, record?_eq_some.mpr ⟨_, content, hlook, hd⟩]
      exact .ended (hs.serial τ hl he)
    · rw [if_neg he]
      refine hs.free τ fun m l₁ hm => ?_
      by_cases hmn : m = n
      · subst hmn
        obtain rfl := Option.some.inj (hl.symm.trans hm)
        exact he
      · exact hτ m l₁ (others hm hmn)

/-- Who is not given a lease leaves all records. -/
theorem refused {path : String} {e : Fault} (hs : h.Sound s first) (ha : s.acquire path h.volume = (.error e, w))
    (P : Location → Prop) : Kept P h.volume w := by
  rcases Store.acquire_error ha with hk | ⟨σ, -, -, ⟨-, id, hid, hle⟩ | ⟨content, fault, hc, hne, hd, -⟩⟩
  · exact hk P
  · -- A lock that is held is on a file that is there.
    obtain ⟨n, l, hl, rfl⟩ := hs.locked hid
    obtain ⟨τ, hτ⟩ := hs.held hl
    obtain ⟨_, _, -, hlook, -⟩ := hτ.written
    exact absurd (hs.numbered.old hlook) (Nat.not_lt.mpr hle)
  · obtain ⟨r?, hr⟩ := hs.readable σ content hc
    rw [Record.stored_eq_error.mpr ⟨hne, hd⟩] at hr
    cases hr

theorem asked {path : String} {answer : Except Fault Lease} (hs : h.Sound s first) (hn : h.leases.get? n = none)
    (ha : s.acquire path h.volume = (answer, w)) : (h.take n (answer.map some, w)).Sound s first := by
  cases answer with
  | error e =>
    have hw : w.Numbered := hs.numbered.acquire ha
    exact hs.kept (hs.refused ha fun _ => False) (fun _ => id) hw
  | ok l => exact hs.taken hn ha

theorem persisted (hs : h.Sound s first) (hl : h.leases.get? n = some l) :
    ({ h with volume := (l.persist h.volume).2, leases := h.leases.insert n (l.persist h.volume).1 } :
      Holders).Sound s first := by
  obtain ⟨σ, hσ⟩ := hs.held hl
  obtain ⟨heq, hk, hσ', -⟩ := hσ.persist
  have hserial := hs.serial σ hl hσ.location
  refine hs.replaced hl hσ hk (hs.numbered.persist l) hσ' (by rw [heq]) ?_ fun _ _ => rfl
  rw [heq]
  exact hserial

/-- Every step keeps locks and leases the same, and record by record one lease after the other. -/
theorem step (hs : h.Sound s first) (st : Step) : (h.step s st).Sound s first := by
  unfold Holders.step
  cases st with
  | acquire n path =>
    dsimp only
    cases hn : h.leases.get? n with
    | some _ => exact hs
    | none =>
      rcases ha : s.acquire path h.volume with ⟨answer, w⟩
      exact hs.asked hn ha
  | acquireTracked n path =>
    dsimp only
    cases hn : h.leases.get? n with
    | some _ => exact hs
    | none =>
      rcases Store.acquireTracked_cases s path h.volume with ⟨e, -, ha⟩ | ha | ⟨answer, w, hacq, ha⟩
      · dsimp only
        rw [ha]
        exact hs
      · dsimp only
        rw [ha]
        exact hs
      · dsimp only
        rw [ha]
        exact hs.asked hn hacq
  | change n f =>
    dsimp only
    cases hn : h.leases.get? n with
    | none => exact hs
    | some l =>
      obtain ⟨σ, hσ⟩ := hs.held hn
      refine hs.replaced hn hσ (.refl _ _) hs.numbered
        ⟨hσ.leads, hσ.location, hσ.locked, hσ.written⟩ rfl ?_ fun τ hτ => ?_
      · rw [logAt_append, if_pos hσ.location]
        exact .changed f (hs.serial σ hn hσ.location)
      · rw [logAt_append, if_neg fun he => hτ (he.symm.trans hσ.location)]
  | persist n =>
    dsimp only
    cases hn : h.leases.get? n with
    | none => exact hs
    | some l => exact hs.persisted hn
  | release n =>
    dsimp only
    cases hn : h.leases.get? n with
    | none => exact hs
    | some l =>
      obtain ⟨σ, hσ⟩ := hs.held hn
      obtain ⟨heq, -⟩ := hσ.persist
      have hs' := (hs.persisted hn).dropped (n := n) (l := (l.persist h.volume).1) (by simp) (by rw [heq])
      rw [heq, Table.erase_insert] at hs'
      exact hs'
  | work work => exact hs.kept (work.kept _) (fun σ hσ => hσ σ.recordPlace_record) (work.numbered _ hs.numbered)

/-- Record by record, one lease after the other along every run. -/
theorem run (hs : h.Sound s first) (steps : List Step) : (h.run s steps).Sound s first := by
  induction steps generalizing h with
  | nil => exact hs
  | cons st steps ih => exact ih (hs.step st)

end Sound

theorem sound_start {s : Store} {v : Volume} (hr : v.Readable) (hn : v.Numbered) (hu : v.locked = []) :
    (start v).Sound s fun σ => (v.record? σ).getD .initial where
  readable := hr
  numbered := hn
  held hl := by cases hl
  locked hid := by
    rw [show (start v).volume.locked = [] from hu] at hid
    cases hid
  apart hl := by cases hl
  serial _ := fun hl => by cases hl
  free _ _ := .start

end Holders

end TreeReplica
