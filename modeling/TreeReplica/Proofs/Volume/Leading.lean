import TreeReplica.Proofs.Path
import TreeReplica.Volume

/-! Where texts lead in a volume. A text leads to a name below a directory (`locate_inside`), a file
    stands where its text leads (`find_file`), and both hang on the directories alone: with more of them
    no way is lost (`walk_mono`), and with the same ones all ways are the same (`locate_congr`). -/

namespace TreeReplica
namespace Volume

/-! ### Where texts lead -/

section Locate
variable {v : Volume} {path name : String} {dir : Location} {slash : Bool}

theorem getLast?_filter_of_last {α : Type} {p : α → Bool} {l : List α} {a : α}
    (h : l.getLast? = some a) (hp : p a) :
    (l.filter p).getLast? = some a := by
  obtain ⟨front, rfl⟩ := List.getLast?_eq_some_iff.mp h
  simp [List.filter_append, hp]

theorem locate_inside (h : v.locate path = .ok (.inside dir name slash)) :
    badText? path = none ∧ Path.fileName? path = some name ∧
      v.walk (v.start path) (Path.names path).dropLast = .ok dir := by
  unfold locate at h
  split at h
  · cases h
  rename_i hbad
  split at h
  · rename_i last hlast
    split at h
    · cases hw : v.walk (v.start path) (Path.names path) <;> simp [hw, Except.map] at h
    · rename_i hdots
      simp only [Bool.or_eq_true, decide_eq_true_eq, not_or] at hdots
      cases hw : v.walk (v.start path) (Path.names path).dropLast with
      | error e => simp [hw, Except.map] at h
      | ok d =>
        simp only [hw, Except.map, Except.ok.injEq, Spot.inside.injEq] at h
        obtain ⟨rfl, rfl, -⟩ := h
        refine ⟨hbad, ?_, rfl⟩
        unfold Path.fileName?
        rw [Path.names_eq, getLast?_filter_of_last hlast (by simpa using hdots.1)]
        simp [Option.filter, hdots.2]
  · cases hw : v.walk (v.start path) (Path.names path) <;> simp [hw, Except.map] at h

/-- What a text names below its directory hangs on the text alone. -/
theorem locate_of_walk {w : Volume} {dir' : Location} (h : w.locate path = .ok (.inside dir' name slash))
    (hw : v.walk (v.start path) (Path.names path).dropLast = .ok dir) :
    v.locate path = .ok (.inside dir name slash) := by
  unfold locate at h ⊢
  split at h
  · cases h
  split at h
  · split at h
    · cases hw' : w.walk (w.start path) (Path.names path) <;> simp [hw', Except.map] at h
    · rename_i hdots
      cases hw' : w.walk (w.start path) (Path.names path).dropLast with
      | error e => simp [hw', Except.map] at h
      | ok d =>
        simp only [hw', Except.map, Except.ok.injEq, Spot.inside.injEq] at h
        dsimp only
        rw [if_neg hdots, hw]
        simp [Except.map, h.2]
  · cases hw' : w.walk (w.start path) (Path.names path) <;> simp [hw', Except.map] at h

/-- A file stands where its text leads, under the last name of the text. -/
theorem find_file {location : Location} {id : Nat} {content : Content}
    (h : v.find path = .ok (location, .file id content)) :
    ∃ dir name, v.locate path = .ok (.inside dir name false) ∧ location = dir ++ [name] ∧
      v.lookup location = some (.file id content) := by
  unfold find at h
  split at h
  · cases h
  · simp at h
  · rename_i dir name slash hl
    split at h
    · cases h
    split at h
    · cases h
    · rename_i id' content' hlook
      split at h
      · cases h
      · rename_i hslash
        simp only [Except.ok.injEq, Prod.mk.injEq, Entry.file.injEq] at h
        obtain ⟨rfl, rfl, rfl⟩ := h
        exact ⟨dir, name, by rw [hl, Bool.eq_false_iff.mpr hslash], rfl, hlook⟩
    · simp at h

theorem find_of_locate {id : Nat} {content : Content} (h : v.locate path = .ok (.inside dir name false))
    (hsize : name.utf8ByteSize ≤ maxName) (hl : v.lookup (dir ++ [name]) = some (.file id content)) :
    v.find path = .ok (dir ++ [name], .file id content) := by
  unfold find
  simp [h, Nat.not_lt.mpr hsize, hl]

theorem size_le_of_find {location : Location} {entry : Entry} (hl : v.locate path = .ok (.inside dir name slash))
    (h : v.find path = .ok (location, entry)) : name.utf8ByteSize ≤ maxName := by
  unfold find at h
  rw [hl] at h
  dsimp only at h
  split at h
  · cases h
  · rename_i hs
    exact Nat.not_lt.mp hs

end Locate

/-! ### More directories

A volume with more directories than another one leads to all places that the other one leads to. -/

section Mono
variable {v w : Volume} (hd : ∀ l, v.lookup l = some .directory → w.lookup l = some .directory)
include hd

theorem enter_mono {dir e : Location} {name : String} (hv : v.enter dir name = .ok e) :
    w.enter dir name = .ok e := by
  unfold enter at hv ⊢
  split
  · rename_i hdots
    rw [if_pos hdots] at hv
    exact hv
  · rename_i hdots
    rw [if_neg hdots] at hv
    split
    · rename_i hs
      rw [if_pos hs] at hv
      cases hv
    · rename_i hs
      rw [if_neg hs] at hv
      split at hv
      · cases hv
      · cases hv
      · rename_i hl
        rw [hd _ hl]
        exact hv

theorem walk_mono {dir e : Location} {names : List String} (hv : v.walk dir names = .ok e) :
    w.walk dir names = .ok e := by
  induction names generalizing dir with
  | nil => exact hv
  | cons name names ih =>
    unfold walk at hv ⊢
    split at hv
    · cases hv
    · rename_i d he
      rw [enter_mono hd he]
      exact ih hv

end Mono

/-! ### The same directories

What texts lead to hangs on where directories and files stand, not on what the files hold. -/

section Congr
variable {v w : Volume} (hh : w.here = v.here)
  (hk : ∀ l, w.lookup l = v.lookup l ∨
    ((∃ id content, v.lookup l = some (.file id content)) ∧ ∃ id content, w.lookup l = some (.file id content)))
include hh hk

theorem locate_congr (path : String) : w.locate path = v.locate path := by
  have henter : ∀ dir name, w.enter dir name = v.enter dir name := fun dir name => by
    unfold enter
    rcases hk (dir ++ [name]) with h | ⟨⟨_, _, hv⟩, _, _, hw⟩
    · rw [h]
    · rw [hv, hw]
  have hwalk : ∀ names dir, w.walk dir names = v.walk dir names := by
    intro names
    induction names with
    | nil => exact fun _ => rfl
    | cons name names ih =>
      intro dir
      unfold walk
      rw [henter]
      split
      · rfl
      · exact ih _
  unfold locate start
  simp only [hwalk, hh]

theorem find_congr {path : String}
    (hl : ∀ dir name slash, v.locate path = .ok (.inside dir name slash) →
      w.lookup (dir ++ [name]) = v.lookup (dir ++ [name])) :
    w.find path = v.find path := by
  unfold find
  rw [locate_congr hh hk]
  split
  · rfl
  · rfl
  · rename_i dir name slash h
    rw [hl dir name slash h]

end Congr

end Volume
end TreeReplica
