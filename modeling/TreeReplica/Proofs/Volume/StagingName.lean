import TreeReplica.Proofs.Table
import TreeReplica.Proofs.Volume

/-! Names of staging files. Different numbers give different names (`stagingName_injective`), and there are
    more numbers to try than entries, so a free name is always found (`lookup_freeNumber`): a new staging
    file never takes the place of anything. -/

namespace TreeReplica
namespace Volume
open TreeReplica.Path

/-! ### Kinds of names -/

theorem toList_stagingName (name : String) (n : Nat) :
    (stagingName name n).toList = '.' :: name.toList ++ '.' :: (label n).toList ++ stagingSuffix.toList := by
  show ("." ++ name ++ "." ++ label n ++ stagingSuffix).toList = _
  simp only [String.toList_append, List.append_assoc]
  rfl

theorem reserved_stagingName (name : String) (n : Nat) : reserved (stagingName name n) = true := by
  unfold reserved
  rw [toList_stagingName, Bool.or_eq_true]
  refine Or.inr ?_
  rw [List.isSuffixOf_iff_suffix]
  exact List.suffix_append _ _

theorem stagingName_ne_recordName {a b : String} {n : Nat} : stagingName a n ≠ recordName b := fun h => by
  have := congrArg (fun s => s.toList.reverse.head?) h
  simp only [toList_stagingName, toList_recordName, List.reverse_append] at this
  exact absurd this (by simp [recordSuffix, stagingSuffix])

theorem label_injective {m n : Nat} (h : label m = label n) : m = n := by
  have key : ∀ k, Nat.ofDigitChars 10 (label k).toList 0 = k := fun k => by
    simp [label, Nat.ofDigitChars_append]
  rw [← key m, h, key n]

theorem stagingName_injective {name : String} {m n : Nat}
    (h : stagingName name m = stagingName name n) : m = n := by
  have := congrArg String.toList h
  simp only [toList_stagingName, List.append_cancel_right_eq, List.append_cancel_left_eq,
    List.cons_inj_right] at this
  exact label_injective (String.toList_inj.mp this)

theorem slash_not_mem_stagingName {name : String} (h : '/' ∉ name.toList) (n : Nat) :
    '/' ∉ (stagingName name n).toList := by
  have hlabel : '/' ∉ (label n).toList := fun hm => by
    unfold label at hm
    rw [String.toList_ofList, List.mem_append, List.mem_replicate] at hm
    rcases hm with ⟨-, he⟩ | hm
    · cases he
    · exact absurd (Nat.isDigit_of_mem_toDigits (by decide) (by decide) hm) (by decide)
  rw [toList_stagingName]
  simp [h, hlabel, stagingSuffix]

theorem names_stagingName {name : String} (h : '/' ∉ name.toList) (n : Nat) :
    Path.names (stagingName name n) = [stagingName name n] := by
  have hlong : ∀ {short : String}, short.toList.length < 2 → stagingName name n ≠ short := fun hs he => by
    have := congrArg (fun s => s.toList.length) he
    simp only [toList_stagingName] at this
    simp at this
    omega
  unfold Path.names
  rw [pieces_of_slash_not_mem (slash_not_mem_stagingName h n), List.filter_cons_of_pos, List.filter_nil]
  simp [blank, hlong (show "".toList.length < 2 by decide), hlong (show ".".toList.length < 2 by decide)]

theorem absolute_stagingName (name : String) (n : Nat) : absolute (stagingName name n) = false := by
  unfold absolute
  rw [toList_stagingName]
  rfl

/-- A staging file stands here, or could. -/
def StagingPlace (l : Location) : Prop := ∃ dir name n, l = dir ++ [stagingName name n]

/-- A record stands here, or could. -/
def RecordPlace (l : Location) : Prop := ∃ dir name, l = dir ++ [recordName name]

theorem StagingPlace.not_recordPlace {l : Location} (h : StagingPlace l) : ¬RecordPlace l := by
  obtain ⟨dir, name, n, rfl⟩ := h
  rintro ⟨dir', name', h⟩
  exact stagingName_ne_recordName (List.append_inj' h rfl |>.2 |> List.cons.inj |>.1)

theorem not_stagingPlace {dir : Location} {name : String} (h : reserved name = false) :
    ¬StagingPlace (dir ++ [name]) := by
  rintro ⟨dir', name', n, he⟩
  have := List.cons.inj (List.append_inj' he rfl).2
  rw [this.1, reserved_stagingName] at h
  cases h

theorem not_recordPlace {dir : Location} {name : String} (h : reserved name = false) :
    ¬RecordPlace (dir ++ [name]) := by
  rintro ⟨dir', name', he⟩
  have := List.cons.inj (List.append_inj' he rfl).2
  rw [this.1, reserved_recordName] at h
  cases h

/-! ### A free name -/

theorem mem_entries_of_lookup {v : Volume} {l : Location} {entry : Entry} (hne : l ≠ [])
    (h : v.lookup l = some entry) : (l, entry) ∈ v.entries := by
  unfold lookup at h
  rw [if_neg hne] at h
  have hm := Table.mem_of_find h
  unfold level at hm
  cases hl : v.levels.get? l.length with
  | none =>
    rw [hl] at hm
    cases hm
  | some table =>
    rw [hl] at hm
    refine List.mem_flatMap.mpr ⟨table, ?_, hm⟩
    exact List.mem_map.mpr ⟨_, Table.mem_of_find hl, rfl⟩

theorem lookup_freeNumber (v : Volume) (dir : Location) (name : String) :
    v.lookup (dir ++ [stagingName name (v.freeNumber dir name)]) = none := by
  let numbers := (List.range (v.entries.length + 1)).map (v.nextId + ·)
  let place := fun n => dir ++ [stagingName name n]
  unfold freeNumber
  cases hf : numbers.find? fun n => (v.lookup (place n)).isNone with
  | some n =>
    have hn := List.find?_some hf
    simpa [numbers, place, hf] using hn
  | none =>
    -- Otherwise every name that was tried is taken, and these are more names than there are entries.
    exfalso
    have htaken : ∀ n ∈ numbers, place n ∈ v.entries.map (·.1) := fun n hn => by
      obtain ⟨entry, he⟩ := Option.ne_none_iff_exists'.mp (by simpa using List.find?_eq_none.mp hf n hn)
      exact List.mem_map.mpr ⟨_, mem_entries_of_lookup concat_ne_nil he, rfl⟩
    have hnumbers : numbers.Nodup :=
      List.Pairwise.map _ (fun a b (hab : a ≠ b) he => hab (Nat.add_left_cancel he)) List.nodup_range
    have hnodup : (numbers.map place).Nodup :=
      List.Pairwise.map _ (fun a b (hab : a ≠ b) he => hab
        (stagingName_injective (List.cons.inj (List.append_inj' he rfl).2).1)) hnumbers
    have hle := List.Nodup.length_le_of_subset hnodup fun l hl => by
      obtain ⟨n, hn, rfl⟩ := List.mem_map.mp hl
      exact htaken n hn
    simp only [numbers, List.length_map, List.length_range] at hle
    omega

theorem createStaging_ok {v w : Volume} {dir name : String} {h : Handle}
    (hc : v.createStaging dir name = (.ok h, w)) :
    StagingPlace h.location ∧ v.lookup h.location = none ∧ h.id = v.nextId ∧ w = (v.create h.location).2 := by
  unfold createStaging at hc
  dsimp only at hc
  split at hc
  · simp at hc
  · simp at hc
  · split at hc
    · simp at hc
    · rename_i d _ _ _ _
      simp only [Prod.mk.injEq, Except.ok.injEq] at hc
      obtain ⟨rfl, rfl⟩ := hc
      exact ⟨⟨d, name, _, rfl⟩, lookup_freeNumber v d name, rfl, rfl⟩

theorem createStaging_error {v w : Volume} {dir name : String} {e : IoCause}
    (hc : v.createStaging dir name = (.error e, w)) : w = v := by
  unfold createStaging at hc
  dsimp only at hc
  repeat' split at hc
  all_goals first
    | exact (Prod.mk.inj hc).2.symm
    | simp at hc

end Volume
end TreeReplica
