import TreeReplica.Proofs.Volume.Kept

/-! Each operation of a volume by what it keeps: those that make directories keep everything else, and
    those on a file everything but the place that its text leads to. -/

namespace TreeReplica
namespace Volume

/-! ### Directories -/

section Directories
variable {v w : Volume} {path : String}

theorem makeDirectory_kept (P : Location → Prop) (v : Volume) (path : String) :
    Kept P v (v.makeDirectory path).2 := by
  unfold makeDirectory
  split
  · exact .refl P v
  · exact .refl P v
  · split
    · exact .refl P v
    · split
      · exact .refl P v
      · rename_i hl
        exact .setEntry_directory P hl

theorem ensureDirectory_snd (v : Volume) (path : String) :
    (v.ensureDirectory path).2 = (v.makeDirectory path).2 := by
  unfold ensureDirectory
  split
  · rename_i hm
    rw [hm]
  · rfl

theorem fill_kept (P : Location → Prop) (v : Volume) (dir : Location) (names : List String) :
    Kept P v (v.fill dir names).2 := by
  induction names generalizing v dir with
  | nil => exact .refl P v
  | cons name names ih =>
    unfold fill
    split
    · exact ih v _
    · rename_i he
      refine .trans (.setEntry_directory P ?_) (ih _ _)
      unfold enter at he
      split at he
      · cases he
      split at he
      · cases he
      split at he
      · assumption
      · cases he
      · cases he
    · exact .refl P v
    · exact .refl P v

theorem createDirectories_kept (P : Location → Prop) (v : Volume) (path : String) :
    Kept P v (v.createDirectories path).2 := by
  have ensure : ∀ v : Volume, Kept P v (v.ensureDirectory path).2 := fun v => by
    rw [ensureDirectory_snd]
    exact makeDirectory_kept P v path
  unfold createDirectories
  split
  · exact .refl P v
  split
  · rename_i w he
    have hw : Kept P v w := by simpa [he] using ensure v
    have hf := fill_kept P w (w.start path) (Path.names path).dropLast
    split
    · rename_i x hx
      rw [hx] at hf
      exact hw.trans (hf.trans (ensure x))
    · exact hw.trans hf
  · exact ensure v

theorem makeDirectory_of_find {location : Location} (hf : v.find path = .ok (location, .directory)) :
    ∃ e, v.makeDirectory path = (.error e, v) := by
  unfold find at hf
  unfold makeDirectory
  split at hf
  · cases hf
  · exact ⟨_, rfl⟩
  · split at hf
    · cases hf
    rename_i hs
    split at hf
    · cases hf
    · split at hf <;> simp at hf
    · rename_i hl
      simp only [if_neg hs, hl]
      exact ⟨_, rfl⟩

theorem ensureDirectory_of_isDirectory (h : v.isDirectory path = true) : v.ensureDirectory path = (.ok (), v) := by
  unfold isDirectory at h
  split at h
  · rename_i location hf
    obtain ⟨e, hm⟩ := makeDirectory_of_find hf
    unfold ensureDirectory
    rw [hm]
    simp [isDirectory, hf]
  · cases h

theorem createDirectories_of_isDirectory (h : v.isDirectory path = true) :
    v.createDirectories path = (.ok (), v) := by
  unfold createDirectories
  split
  · rfl
  · rw [ensureDirectory_of_isDirectory h]

theorem lookup_of_enter {name : String} {dir d : Location} (h : v.enter d name = .ok dir) (hdots : name ≠ "..") :
    name.utf8ByteSize ≤ maxName ∧ v.lookup (d ++ [name]) = some .directory := by
  unfold enter at h
  rw [if_neg hdots] at h
  split at h
  · cases h
  rename_i hs
  split at h
  · cases h
  · cases h
  · rename_i hl
    exact ⟨Nat.not_lt.mp hs, hl⟩

theorem walk_append (v : Volume) (dir : Location) (a b : List String) :
    v.walk dir (a ++ b) =
      match v.walk dir a with
      | .error e => .error e
      | .ok d => v.walk d b := by
  induction a generalizing dir with
  | nil => rfl
  | cons name a ih =>
    rw [List.cons_append, walk, walk]
    split
    · rfl
    · exact ih _

theorem badText?_mono {a b : String} (h : a.toList <+: b.toList) (ha : a ≠ "") (hb : badText? b = none) :
    badText? a = none := by
  have hsize := Path.utf8ByteSize_mono h
  unfold badText? at hb ⊢
  split at hb
  · cases hb
  rename_i hnul
  split at hb
  · cases hb
  split at hb
  · cases hb
  rename_i hlen
  rw [if_neg fun hm => hnul (h.subset hm), if_neg ha, if_neg (by omega)]

/-- A text whose names lead somewhere leads to a directory, or to the last of the names in the directory
    before it. -/
theorem locate_of_names {dir : Location} (hbad : badText? path = none)
    (hw : v.walk (v.start path) (Path.names path) = .ok dir) :
    v.locate path = .ok (.directory dir) ∨
      ∃ d name slash, v.locate path = .ok (.inside d name slash) ∧ v.enter d name = .ok dir ∧ name ≠ ".." := by
  unfold locate
  rw [hbad]
  dsimp only
  split
  · rename_i name hlast
    split
    · rw [hw]
      exact Or.inl rfl
    · rename_i hdots
      simp only [Bool.or_eq_true, decide_eq_true_eq, not_or] at hdots
      obtain ⟨front, hf⟩ := List.getLast?_eq_some_iff.mp hlast
      have hnames : Path.names path = (Path.names path).dropLast ++ [name] := by
        rw [Path.names_eq, hf]
        simp [List.filter_append, hdots.1]
      rw [hnames, walk_append] at hw
      split at hw
      · cases hw
      · rename_i d hd
        rw [hd]
        refine Or.inr ⟨d, name, _, rfl, ?_, hdots.2⟩
        unfold walk at hw
        split at hw
        · cases hw
        · rename_i he
          rw [he]
          exact hw
  · rw [hw]
    exact Or.inl rfl

theorem isDirectory_of_walk {dir : Location} (hbad : badText? path = none)
    (hw : v.walk (v.start path) (Path.names path) = .ok dir) : v.isDirectory path = true := by
  have hf : ∃ location, v.find path = .ok (location, .directory) := by
    unfold find
    rcases locate_of_names hbad hw with hl | ⟨d, name, slash, hl, he, hdots⟩
    · exact ⟨dir, by rw [hl]⟩
    · obtain ⟨hsize, hent⟩ := lookup_of_enter he hdots
      exact ⟨d ++ [name], by simp [hl, Nat.not_lt.mpr hsize, hent]⟩
  obtain ⟨location, hf⟩ := hf
  unfold isDirectory
  rw [hf]

/-- The directory of a text that leads somewhere is there. -/
theorem createDirectories_parent {dir : Location} {name : String} {slash : Bool}
    (hl : v.locate path = .ok (.inside dir name slash)) :
    v.createDirectories (Path.parent path) = (.ok (), v) := by
  obtain ⟨hbad, hn, hw⟩ := locate_inside hl
  by_cases hp : Path.parent path = ""
  · unfold createDirectories
    rw [if_pos hp]
  · have hwp : v.walk (v.start (Path.parent path)) (Path.names (Path.parent path)) = .ok dir := by
      unfold start at hw ⊢
      rw [Path.names_parent, Path.absolute_parent]
      exact hw
    have hbadp := badText?_mono (Path.prefix_parent path) hp hbad
    exact createDirectories_of_isDirectory (isDirectory_of_walk hbadp hwp)

end Directories

/-! ### Files -/

section Files
variable {v w : Volume} {path : String} {h : Handle}

theorem concat_ne_nil {dir : Location} {name : String} : dir ++ [name] ≠ [] := by simp

/-- An opened file stands where its text leads; it was there, or it is new and empty. -/
theorem openOrCreate_ok (ho : v.openOrCreate path = (.ok h, w)) :
    ∃ dir name, v.locate path = .ok (.inside dir name false) ∧ name.utf8ByteSize ≤ maxName ∧
      h.location = dir ++ [name] ∧
      ((∃ content, v.lookup h.location = some (.file h.id content) ∧ w = v) ∨
        (v.lookup h.location = none ∧ h.id = v.nextId ∧ w = (v.create h.location).2)) := by
  unfold openOrCreate at ho
  split at ho
  · simp at ho
  · simp at ho
  · rename_i dir name slash hl
    split at ho
    · simp at ho
    rename_i hslash
    split at ho
    · simp at ho
    rename_i hsize
    refine ⟨dir, name, by rw [hl, Bool.eq_false_iff.mpr hslash], Nat.not_lt.mp hsize, ?_⟩
    split at ho
    · simp at ho
    · rename_i id content hlook
      simp only [Prod.mk.injEq, Except.ok.injEq] at ho
      obtain ⟨rfl, rfl⟩ := ho
      exact ⟨rfl, Or.inl ⟨content, hlook, rfl⟩⟩
    · rename_i hlook
      simp only [Prod.mk.injEq, Except.ok.injEq] at ho
      obtain ⟨rfl, rfl⟩ := ho
      exact ⟨rfl, Or.inr ⟨hlook, rfl, rfl⟩⟩

theorem openOrCreate_error {e : IoCause} (ho : v.openOrCreate path = (.error e, w)) : w = v := by
  unfold openOrCreate at ho
  repeat' split at ho
  all_goals first
    | exact (Prod.mk.inj ho).2.symm
    | simp at ho

theorem openOrCreate_file {dir : Location} {name : String} {id : Nat} {content : Content}
    (hl : v.locate path = .ok (.inside dir name false)) (hs : name.utf8ByteSize ≤ maxName)
    (hf : v.lookup (dir ++ [name]) = some (.file id content)) :
    v.openOrCreate path = (.ok ⟨dir ++ [name], id⟩, v) := by
  unfold openOrCreate
  simp [hl, Nat.not_lt.mpr hs, hf]

theorem read?_eq_some {content : Content} :
    v.read? h = some content ↔ v.lookup h.location = some (.file h.id content) := by
  unfold read?
  constructor
  · intro hr
    split at hr
    · rename_i id c hl
      split at hr
      · rename_i hid
        cases hr
        rw [hl, hid]
      · cases hr
    · cases hr
  · intro hl
    simp [hl]

theorem location_ne_nil {content : Content} (hr : v.read? h = some content) : h.location ≠ [] := fun hn => by
  have := read?_eq_some.mp hr
  rw [hn] at this
  simp at this

theorem lookup_modify (f : Content → Content) (l : Location) :
    (v.modify h f).lookup l =
      match v.read? h with
      | some content => if h.location = l then some (.file h.id (f content)) else v.lookup l
      | none => v.lookup l := by
  unfold modify
  cases hr : v.read? h with
  | none => rfl
  | some content => rw [lookup_setEntry v (location_ne_nil hr)]

theorem modify_kept (f : Content → Content) : Kept (· = h.location) v (v.modify h f) := by
  unfold modify
  split
  · rename_i content hr
    refine .setEntry_file (location_ne_nil hr) (fun hd => ?_) _ _
    rw [read?_eq_some.mp hr] at hd
    cases hd
  · exact .refl _ v

theorem resize_cases (v : Volume) (h : Handle) (size : Nat) :
    (∃ e, v.resize h size = (.error e, v)) ∨ v.resize h size = (.ok (), v.modify h (·.resize size)) := by
  unfold resize
  split
  · exact Or.inl ⟨_, rfl⟩
  · exact Or.inr rfl

theorem discard_kept (v : Volume) (h : Handle) : Kept (· = h.location) v (v.discard h) := by
  unfold discard
  split
  · rename_i hl
    refine .removeEntry (fun hn => ?_) (fun hd => ?_)
    · rw [hn] at hl
      simp at hl
    · rw [hl] at hd
      cases hd
  · exact .refl _ v

/-- A file is moved to where a text leads, and takes the place of the file there. -/
theorem move_ok (hm : v.move h path = (.ok (), w)) :
    ∃ dir name content, v.locate path = .ok (.inside dir name false) ∧ name.utf8ByteSize ≤ maxName ∧
      v.lookup h.location = some (.file h.id content) ∧ v.lookup (dir ++ [name]) ≠ some .directory ∧
      w = (v.removeEntry h.location).setEntry (dir ++ [name]) (.file h.id content) := by
  unfold move at hm
  split at hm
  · simp at hm
  · simp at hm
  · rename_i dir name slash hl
    dsimp only at hm
    split at hm
    · simp at hm
    rename_i content hr
    split at hm
    · simp at hm
    rename_i hsize
    split at hm
    · simp at hm
    rename_i hslash
    split at hm
    · simp at hm
    · rename_i hd
      exact ⟨dir, name, content, by rw [hl, Bool.eq_false_iff.mpr hslash], Nat.not_lt.mp hsize,
        read?_eq_some.mp hr, fun he => hd he, (Prod.mk.inj hm).2.symm⟩

theorem move_error {e : IoCause} (hm : v.move h path = (.error e, w)) : w = v := by
  unfold move at hm
  dsimp only at hm
  repeat' split at hm
  all_goals first
    | exact (Prod.mk.inj hm).2.symm
    | simp at hm

theorem move_ok_kept {dir : Location} {name : String} {content : Content}
    (hf : v.lookup h.location = some (.file h.id content)) (hd : v.lookup (dir ++ [name]) ≠ some .directory) :
    Kept (fun l => l = h.location ∨ l = dir ++ [name]) v
      ((v.removeEntry h.location).setEntry (dir ++ [name]) (.file h.id content)) := by
  have hne : h.location ≠ [] := location_ne_nil (read?_eq_some.mpr hf)
  have h₁ : Kept (fun l => l = h.location ∨ l = dir ++ [name]) v (v.removeEntry h.location) := by
    refine (Kept.removeEntry hne fun he => ?_).mono fun l hl => Or.inl hl
    rw [hf] at he
    cases he
  refine h₁.trans ((Kept.setEntry_file concat_ne_nil (fun he => ?_) _ _).mono fun l hl => Or.inr hl)
  rw [lookup_removeEntry v hne] at he
  split at he
  · cases he
  · exact hd he

end Files

end Volume
end TreeReplica
