/-!
The pieces of a list, most often of a text, between its marks. Main statements: `intercalate_pieces`
says that the marks put the pieces together again, and `not_mem_of_mem_pieces` that no piece holds one. -/

namespace TreeReplica

variable {α : Type} [DecidableEq α]

/-- The pieces of a list between the marks; there is always at least one. -/
def pieces (mark : α) : List α → List (List α)
  | [] => [[]]
  | c :: rest =>
    if c = mark then [] :: pieces mark rest
    else
      match pieces mark rest with
      | [] => [[c]]
      | piece :: others => (c :: piece) :: others

theorem pieces_ne_nil (mark : α) (cs : List α) : pieces mark cs ≠ [] := by
  cases cs with
  | nil => simp [pieces]
  | cons c rest =>
    unfold pieces
    repeat' split
    all_goals simp

theorem intercalate_pieces (mark : α) (cs : List α) :
    [mark].intercalate (pieces mark cs) = cs := by
  induction cs with
  | nil => simp [pieces, List.intercalate]
  | cons c rest ih =>
    unfold pieces
    split
    · rename_i h
      subst h
      obtain ⟨piece, others, hp⟩ := List.exists_cons_of_ne_nil (pieces_ne_nil c rest)
      rw [hp] at ih ⊢
      simpa [List.intercalate] using ih
    · split
      · rename_i hp
        exact absurd hp (pieces_ne_nil mark rest)
      · rename_i piece others hp
        rw [hp] at ih
        cases others <;> simpa [List.intercalate] using ih

theorem not_mem_of_mem_pieces {mark : α} {cs piece : List α} (h : piece ∈ pieces mark cs) :
    mark ∉ piece := by
  induction cs generalizing piece with
  | nil => simp_all [pieces]
  | cons c rest ih =>
    unfold pieces at h
    split at h
    · rcases List.mem_cons.1 h with rfl | h
      · simp
      · exact ih h
    · rename_i hc
      split at h
      · simp_all
        exact fun hm => hc hm.symm
      · rename_i first others hp
        rcases List.mem_cons.1 h with rfl | h
        · have hf := ih (hp ▸ List.mem_cons_self)
          simp only [List.mem_cons, not_or]
          exact ⟨fun hm => hc hm.symm, hf⟩
        · exact ih (hp ▸ List.mem_cons_of_mem _ h)

end TreeReplica
