import TreeReplica.Proofs.Lease

/-! The numbers of files. Each file of a volume has one of its own, and all that leases do keeps it so
    (`Volume.Numbered.acquire`, `Volume.Numbered.persist`). -/

namespace TreeReplica
open Volume

/-- Every file has a number of its own, and a new file gets a new one. -/
structure Volume.Numbered (v : Volume) : Prop where
  old : ∀ {l id content}, v.lookup l = some (.file id content) → id < v.nextId
  apart : ∀ {l l' id content content'}, v.lookup l = some (.file id content) →
    v.lookup l' = some (.file id content') → l = l'

namespace Volume.Numbered
variable {v w : Volume} {s : Store} {path : String}

theorem kept (h : v.Numbered) (hk : Kept (fun _ => False) v w) : w.Numbered where
  old hl := Nat.lt_of_lt_of_le (h.old (hk.file_back id hl)) hk.next
  apart hl hl' := h.apart (hk.file_back id hl) (hk.file_back id hl')

theorem lock (h : v.Numbered) (handle : Handle) : (v.lock handle).Numbered := ⟨h.old, h.apart⟩

theorem unlock (h : v.Numbered) (handle : Handle) : (v.unlock handle).Numbered := ⟨h.old, h.apart⟩

theorem create (h : v.Numbered) {l : Location} (hne : l ≠ []) : (v.create l).2.Numbered := by
  have hlook : ∀ m, (v.create l).2.lookup m = if l = m then some (.file v.nextId .empty) else v.lookup m :=
    lookup_setEntry v hne _
  constructor
  · intro m id content hm
    rw [hlook] at hm
    show id < v.nextId + 1
    split at hm
    · cases hm
      exact Nat.lt_succ_self _
    · exact Nat.lt_succ_of_lt (h.old hm)
  · intro m m' id content content' hm hm'
    rw [hlook] at hm hm'
    split at hm
    · rename_i he
      split at hm'
      · rename_i he'
        exact he.symm.trans he'
      · cases hm
        exact absurd (h.old hm') (Nat.lt_irrefl _)
    · split at hm'
      · cases hm'
        exact absurd (h.old hm) (Nat.lt_irrefl _)
      · exact h.apart hm hm'

theorem modify (h : v.Numbered) (handle : Handle) (f : Content → Content) : (v.modify handle f).Numbered := by
  have hfile : ∀ {m id content}, (v.modify handle f).lookup m = some (.file id content) →
      ∃ content', v.lookup m = some (.file id content') := by
    intro m id content hm
    rw [lookup_modify] at hm
    split at hm
    · rename_i old hread
      split at hm
      · rename_i he
        cases hm
        exact ⟨old, he ▸ read?_eq_some.mp hread⟩
      · exact ⟨content, hm⟩
    · exact ⟨content, hm⟩
  have hnext : (v.modify handle f).nextId = v.nextId := by
    unfold Volume.modify
    split <;> rfl
  constructor
  · intro m id content hm
    obtain ⟨_, hv⟩ := hfile hm
    rw [hnext]
    exact h.old hv
  · intro m m' id content content' hm hm'
    obtain ⟨_, hv⟩ := hfile hm
    obtain ⟨_, hv'⟩ := hfile hm'
    exact h.apart hv hv'

theorem persist (h : v.Numbered) (l : Lease) : (l.persist v).2.Numbered := by
  unfold Lease.persist
  split
  · exact h
  · exact h.modify _ _

theorem acquire {answer : Except Fault Lease} (h : v.Numbered)
    (ha : s.acquire path v = (answer, w)) : w.Numbered := by
  obtain ⟨v₁, hk, ⟨e, he⟩ | ⟨file, handle, v₂, -, ho, hopened⟩⟩ := Store.acquire_cases s path v
  · rw [he] at ha
    cases ha
    exact h.kept (hk _)
  · have h₂ : v₂.Numbered := by
      obtain ⟨dir, name, -, -, hloc, ⟨_, -, rfl⟩ | ⟨-, -, rfl⟩⟩ := openOrCreate_ok ho
      · exact h.kept (hk _)
      · exact (h.kept (hk _)).create (hloc ▸ concat_ne_nil)
    rcases hopened with ⟨-, he⟩ | ⟨-, hg⟩
    · rw [he] at ha
      cases ha
      exact h₂
    · rw [ha] at hg
      cases answer with
      | error e =>
        obtain ⟨_, -, -, -, rfl⟩ := Store.grant_error hg.symm
        exact ((h₂.lock handle).modify _ _).unlock handle
      | ok lease =>
        obtain ⟨-, -, -, ⟨-, rfl, -⟩ | ⟨-, -, -, rfl⟩⟩ := Store.grant_ok hg.symm
        · exact h₂.lock handle
        · exact (h₂.lock handle).modify _ _

end Volume.Numbered

end TreeReplica
