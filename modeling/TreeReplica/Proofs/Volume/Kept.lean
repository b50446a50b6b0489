import TreeReplica.Proofs.Volume.Leading

/-! What the operations of a volume keep. Directories never go, and outside the places that an operation
    is about everything stays, but for directories that it makes where nothing was (`Volume.Kept`). So a
    text that led somewhere leads to the same place ever after (`Kept.walk`, `Kept.locate`). -/

namespace TreeReplica
namespace Volume

/-- What `w` has is what `v` has, but for the places in `P`, and for directories where nothing was. -/
structure Kept (P : Location → Prop) (v w : Volume) : Prop where
  here : w.here = v.here
  next : v.nextId ≤ w.nextId
  locked : w.locked = v.locked
  directory : ∀ l, v.lookup l = some .directory → w.lookup l = some .directory
  same : ∀ l, ¬P l → w.lookup l = v.lookup l ∨ (v.lookup l = none ∧ w.lookup l = some .directory)

namespace Kept
variable {P Q : Location → Prop} {u v w : Volume}

theorem refl (P : Location → Prop) (v : Volume) : Kept P v v :=
  ⟨rfl, Nat.le_refl _, rfl, fun _ h => h, fun _ _ => Or.inl rfl⟩

theorem trans (h₁ : Kept P u v) (h₂ : Kept P v w) : Kept P u w where
  here := h₂.here.trans h₁.here
  next := Nat.le_trans h₁.next h₂.next
  locked := h₂.locked.trans h₁.locked
  directory l h := h₂.directory l (h₁.directory l h)
  same l hl := by
    rcases h₁.same l hl with h | ⟨h, hd⟩
    · rw [← h]
      exact h₂.same l hl
    · exact Or.inr ⟨h, h₂.directory l hd⟩

theorem mono (h : Kept P v w) (hPQ : ∀ l, P l → Q l) : Kept Q v w :=
  { h with same := fun l hl => h.same l fun hp => hl (hPQ l hp) }

theorem file (h : Kept P v w) {l : Location} (hl : ¬P l) {id : Nat} {content : Content}
    (hv : v.lookup l = some (.file id content)) : w.lookup l = some (.file id content) := by
  rcases h.same l hl with hs | ⟨hn, -⟩
  · rw [hs, hv]
  · rw [hv] at hn
    cases hn

theorem file_back (h : Kept P v w) {l : Location} (hl : ¬P l) {id : Nat} {content : Content}
    (hw : w.lookup l = some (.file id content)) : v.lookup l = some (.file id content) := by
  rcases h.same l hl with hs | ⟨-, hd⟩
  · rw [← hs, hw]
  · rw [hw] at hd
    cases hd

theorem setEntry_file {l : Location} (hne : l ≠ []) (hv : v.lookup l ≠ some .directory) (id : Nat)
    (content : Content) : Kept (· = l) v (v.setEntry l (.file id content)) where
  here := rfl
  next := Nat.le_refl _
  locked := rfl
  directory m hm := by
    rw [lookup_setEntry v hne]
    split
    · rename_i he
      exact absurd (he ▸ hm) hv
    · exact hm
  same m hm := Or.inl (by rw [lookup_setEntry v hne, if_neg (Ne.symm hm)])

theorem setEntry_directory (P : Location → Prop) {l : Location} (hv : v.lookup l = none) :
    Kept P v (v.setEntry l .directory) := by
  have hne : l ≠ [] := by
    rintro rfl
    simp at hv
  refine ⟨rfl, Nat.le_refl _, rfl, fun m hm => ?_, fun m _ => ?_⟩
  · rw [lookup_setEntry v hne]
    split
    · rfl
    · exact hm
  · rw [lookup_setEntry v hne]
    split
    · rename_i he
      exact Or.inr ⟨he ▸ hv, rfl⟩
    · exact Or.inl rfl

theorem removeEntry {l : Location} (hne : l ≠ []) (hv : v.lookup l ≠ some .directory) :
    Kept (· = l) v (v.removeEntry l) where
  here := rfl
  next := Nat.le_refl _
  locked := rfl
  directory m hm := by
    rw [lookup_removeEntry v hne]
    split
    · rename_i he
      exact absurd (he ▸ hm) hv
    · exact hm
  same m hm := Or.inl (by rw [lookup_removeEntry v hne, if_neg (Ne.symm hm)])

theorem create {l : Location} (hne : l ≠ []) (hv : v.lookup l ≠ some .directory) :
    Kept (· = l) v (v.create l).2 :=
  { setEntry_file hne hv v.nextId .empty with next := Nat.le_succ _ }

/-! ### Texts lead where they led -/

theorem walk (h : Kept P v w) {dir e : Location} {names : List String} (hv : v.walk dir names = .ok e) :
    w.walk dir names = .ok e := walk_mono h.directory hv

theorem start (h : Kept P v w) (path : String) : w.start path = v.start path := by
  unfold Volume.start
  rw [h.here]

theorem locate (h : Kept P v w) {path : String} {spot : Spot} (hv : v.locate path = .ok spot) :
    w.locate path = .ok spot := by
  unfold Volume.locate at hv ⊢
  rw [h.start]
  split at hv
  · cases hv
  · have map : ∀ {dir : Location} {names : List String} {f : Location → Spot},
        (v.walk dir names).map f = .ok spot → (w.walk dir names).map f = .ok spot := by
      intro dir names f hm
      cases hw : v.walk dir names with
      | error e => simp [hw, Except.map] at hm
      | ok d =>
        rw [hw] at hm
        rw [h.walk hw]
        exact hm
    dsimp only at hv ⊢
    split at hv
    · split at hv
      · rename_i hdots
        rw [if_pos hdots]
        exact map hv
      · rename_i hdots
        rw [if_neg hdots]
        exact map hv
    · exact map hv

theorem find_file (h : Kept P v w) {path : String} {l : Location} {id : Nat} {content : Content}
    (hf : v.find path = .ok (l, .file id content)) (hl : ¬P l) : w.find path = .ok (l, .file id content) := by
  obtain ⟨dir, name, hloc, rfl, hlook⟩ := Volume.find_file hf
  exact find_of_locate (h.locate hloc) (size_le_of_find hloc hf) (h.file hl hlook)

end Kept

end Volume
end TreeReplica
