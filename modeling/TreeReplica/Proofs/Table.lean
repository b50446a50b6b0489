import TreeReplica.Table

/-! Tables as lists of entries. The values that a table lists are the ones that can be looked up, as long as no
    key has two entries (`get?_of_mem`), and no operation gives a key a second one. -/

namespace TreeReplica
namespace Table
variable {κ α : Type} [DecidableEq κ] {t : Table κ α} {k : κ} {a b : α}

theorem mem_of_find {l : List (κ × α)} (h : find k l = some a) : (k, a) ∈ l := by
  induction l with
  | nil => cases h
  | cons e rest ih =>
    obtain ⟨j, b⟩ := e
    unfold find at h
    split at h
    · rename_i hj
      cases h
      exact hj ▸ List.mem_cons_self
    · exact List.mem_cons_of_mem _ (ih h)

theorem mem_values_of_get? (h : t.get? k = some a) : a ∈ t.values := List.mem_map.mpr ⟨_, mem_of_find h, rfl⟩

theorem mem_values_insert (h : b ∈ (t.insert k a).values) : b = a ∨ b ∈ t.values := by
  have put : ∀ l : List (κ × α), b ∈ (put k a l).map (·.2) → b = a ∨ b ∈ l.map (·.2) := by
    intro l
    induction l with
    | nil => simp [put]
    | cons e rest ih =>
      unfold Table.put
      split
      · simp only [List.map_cons, List.mem_cons]
        exact fun h => h.imp id Or.inr
      · simp only [List.map_cons, List.mem_cons]
        rintro (h | h)
        · exact Or.inr (Or.inl h)
        · exact (ih h).imp id Or.inr
  exact put _ h

theorem mem_values_erase (h : b ∈ (t.erase k).values) : b ∈ t.values := by
  obtain ⟨e, he, rfl⟩ := List.mem_map.mp h
  exact List.mem_map.mpr ⟨e, (List.mem_filter.mp he).1, rfl⟩

theorem of_get?_insert {j : κ} (h : (t.insert k a).get? j = some b) :
    (j = k ∧ b = a) ∨ (j ≠ k ∧ t.get? j = some b) := by
  rw [get?_insert] at h
  split at h
  · rename_i he
    exact Or.inl ⟨he.symm, (Option.some.inj h).symm⟩
  · rename_i hne
    exact Or.inr ⟨Ne.symm hne, h⟩

theorem of_get?_erase {j : κ} (h : (t.erase k).get? j = some b) : j ≠ k ∧ t.get? j = some b := by
  rw [get?_erase] at h
  split at h
  · cases h
  · rename_i hne
    exact ⟨Ne.symm hne, h⟩

theorem erase_insert (t : Table κ α) (k : κ) (a : α) : (t.insert k a).erase k = t.erase k := by
  have drop : ∀ l : List (κ × α), (put k a l).filter (·.1 ≠ k) = l.filter (·.1 ≠ k) := by
    intro l
    induction l with
    | nil => simp [put]
    | cons e rest ih =>
      unfold put
      split
      · rename_i he
        simp [he]
      · rename_i he
        simpa [List.filter_cons, he] using ih
  exact congrArg Table.mk (drop t.entries)

/-! ### Keys -/

/-- No key has two entries. -/
def Distinct (t : Table κ α) : Prop := t.keys.Nodup

omit [DecidableEq κ] in
theorem distinct_empty : (empty : Table κ α).Distinct := List.nodup_nil

theorem Distinct.erase (h : t.Distinct) (k : κ) : (t.erase k).Distinct :=
  h.sublist (List.filter_sublist.map _)

theorem Distinct.insert (h : t.Distinct) (k : κ) (a : α) : (t.insert k a).Distinct := by
  have keys : ∀ l : List (κ × α), (put k a l).map (·.1) = l.map (·.1) ∨
      (k ∉ l.map (·.1) ∧ (put k a l).map (·.1) = l.map (·.1) ++ [k]) := by
    intro l
    induction l with
    | nil => exact Or.inr ⟨by simp, rfl⟩
    | cons e rest ih =>
      unfold put
      split
      · rename_i he
        exact Or.inl (by simp [he])
      · rename_i he
        rcases ih with h | ⟨hn, h⟩
        · exact Or.inl (by simp [h])
        · exact Or.inr ⟨by simpa [Ne.symm he] using hn, by simp [h]⟩
  unfold Distinct Table.keys Table.insert
  rcases keys t.entries with hk | ⟨hn, hk⟩
  · rw [hk]
    exact h
  · rw [hk]
    exact List.nodup_append.mpr ⟨h, List.pairwise_singleton _ _, fun x hx y hy => by
      rw [List.mem_singleton.mp hy]
      exact fun he => hn (he ▸ hx)⟩

theorem Distinct.get?_of_mem (h : t.Distinct) (hm : (k, a) ∈ t.entries) : t.get? k = some a := by
  have look : ∀ l : List (κ × α), (l.map (·.1)).Nodup → (k, a) ∈ l → find k l = some a := by
    intro l
    induction l with
    | nil => exact fun _ hm => by cases hm
    | cons e rest ih =>
      intro hd hm
      rw [List.map_cons, List.nodup_cons] at hd
      unfold find
      rcases List.mem_cons.mp hm with rfl | hm
      · rw [if_pos rfl]
      · rw [if_neg fun he => hd.1 (List.mem_map.mpr ⟨_, hm, he.symm⟩)]
        exact ih hd.2 hm
  exact look _ h hm

theorem Distinct.get?_of_mem_values (h : t.Distinct) (hm : a ∈ t.values) : ∃ k, t.get? k = some a := by
  obtain ⟨e, he, rfl⟩ := List.mem_map.mp hm
  exact ⟨e.1, h.get?_of_mem he⟩

theorem mem_keys_iff : k ∈ t.keys ↔ (t.get? k).isSome = true := by
  have look : ∀ l : List (κ × α), k ∈ l.map (·.1) ↔ (find k l).isSome = true := by
    intro l
    induction l with
    | nil => simp [find]
    | cons e rest ih =>
      obtain ⟨j, b⟩ := e
      by_cases hj : j = k
      · simp [find, hj]
      · simpa [find, hj, Ne.symm hj] using ih
  exact look t.entries

/-! ### All values -/

theorem values_insert_of_none (h : t.get? k = none) (a : α) : (t.insert k a).values = t.values ++ [a] := by
  have add : ∀ l : List (κ × α), find k l = none → (put k a l).map (·.2) = l.map (·.2) ++ [a] := by
    intro l hl
    induction l with
    | nil => rfl
    | cons e rest ih =>
      unfold find at hl
      unfold put
      by_cases he : e.1 = k
      · rw [if_pos he] at hl
        cases hl
      · rw [if_neg he] at hl ⊢
        rw [List.map_cons, ih hl, List.map_cons, List.cons_append]
  exact add t.entries h

theorem Distinct.values_perm (h : t.Distinct) (hk : t.get? k = some a) :
    t.values.Perm (a :: (t.erase k).values) := by
  have part : ∀ l : List (κ × α), (l.map (·.1)).Nodup → find k l = some a →
      (l.map (·.2)).Perm (a :: (l.filter (·.1 ≠ k)).map (·.2)) := by
    intro l
    induction l with
    | nil => exact fun _ hk => by cases hk
    | cons e rest ih =>
      intro hd hk
      rw [List.map_cons, List.nodup_cons] at hd
      unfold find at hk
      by_cases he : e.1 = k
      · have others : rest.filter (·.1 ≠ k) = rest := List.filter_eq_self.mpr fun e' he' => decide_eq_true fun hj =>
          hd.1 (List.mem_map.mpr ⟨e', he', hj.trans he.symm⟩)
        rw [if_pos he, Option.some.injEq] at hk
        rw [List.filter_cons_of_neg (by simpa using he), others, List.map_cons, hk]
      · rw [if_neg he] at hk
        rw [List.filter_cons_of_pos (by simpa using he), List.map_cons, List.map_cons]
        exact ((ih hd.2 hk).cons e.2).trans (.swap _ _ _)
  exact part t.entries h hk

/-- An update that keeps what `g` sees of the values keeps it of all of them. -/
theorem map_values_update {β : Type} {g : α → β} {f : α → α} (hg : ∀ a, g (f a) = g a) (k : κ) :
    (t.update k f).values.map g = t.values.map g := by
  have same : ∀ (l : List (κ × α)) (a : α), find k l = some a →
      ((put k (f a) l).map (·.2)).map g = (l.map (·.2)).map g := by
    intro l a hl
    induction l with
    | nil => cases hl
    | cons e rest ih =>
      unfold find at hl
      unfold put
      by_cases he : e.1 = k
      · rw [if_pos he, Option.some.injEq] at hl
        rw [if_pos he, List.map_cons, List.map_cons, List.map_cons, List.map_cons, hg, hl]
      · rw [if_neg he] at hl ⊢
        rw [List.map_cons, List.map_cons, ih hl, List.map_cons, List.map_cons]
  unfold update
  split
  · rename_i a ha
    exact same t.entries a ha
  · rfl

theorem Distinct.update (h : t.Distinct) (k : κ) (f : α → α) : (t.update k f).Distinct := by
  unfold Table.update
  split
  · exact h.insert _ _
  · exact h

end Table
end TreeReplica
