import TreeReplica.Path

/-! Texts of paths and the names in them. Joining appends names (`names_join`), the text of a directory
    drops the last one (`names_parent`), and the text of a record replaces it (`names_sidecar`), so the
    record of a path stands in the directory of its file whatever the path looks like. Names of records,
    of staging files and of tracked files are three different kinds of names. -/

namespace TreeReplica

/-! ### Pieces -/

section Pieces
variable {α : Type} [DecidableEq α] {mark : α}

theorem pieces_append (a b : List α) : pieces mark (a ++ mark :: b) = pieces mark a ++ pieces mark b := by
  induction a with
  | nil => simp [pieces]
  | cons c a ih =>
    by_cases hc : c = mark
    · simp [pieces, hc, ih]
    · obtain ⟨first, others, hp⟩ := List.exists_cons_of_ne_nil (pieces_ne_nil mark a)
      simp only [List.cons_append, pieces, hc, ite_false, ih, hp]

theorem pieces_of_not_mem {cs : List α} (h : mark ∉ cs) : pieces mark cs = [cs] := by
  induction cs with
  | nil => rfl
  | cons c cs ih =>
    simp only [List.mem_cons, not_or] at h
    simp only [pieces, Ne.symm h.1, ite_false, ih h.2]

theorem pieces_intercalate {ps : List (List α)} (hne : ps ≠ []) (h : ∀ p ∈ ps, mark ∉ p) :
    pieces mark ([mark].intercalate ps) = ps := by
  induction ps with
  | nil => exact absurd rfl hne
  | cons p ps ih =>
    have hp : pieces mark p = [p] := pieces_of_not_mem (h p (by simp))
    cases ps with
    | nil => simpa using hp
    | cons q qs =>
      rw [List.intercalate_cons_cons, List.append_assoc, List.singleton_append, pieces_append, hp,
        ih (by simp) fun x hx => h x (List.mem_cons_of_mem _ hx), List.singleton_append]

omit [DecidableEq α] in
theorem prefix_intercalate {sep : List α} {a b : List (List α)} (h : a <+: b) :
    sep.intercalate a <+: sep.intercalate b := by
  obtain ⟨r, rfl⟩ := h
  induction a with
  | nil => simp
  | cons x a ih =>
    cases a with
    | nil =>
      cases r with
      | nil => simp
      | cons y r =>
        rw [List.singleton_append, List.intercalate_cons_cons, List.intercalate_singleton, List.append_assoc]
        exact List.prefix_append _ _
    | cons y a =>
      rw [List.cons_append, List.cons_append, List.intercalate_cons_cons, List.intercalate_cons_cons]
      exact (List.prefix_append_right_inj _).mpr ih

end Pieces

namespace Path

/-! ### Joining -/

theorem toList_ofList_map (l : List (List Char)) : (l.map String.ofList).map String.toList = l := by
  simp [List.map_map, Function.comp_def]

theorem slash_not_mem_of_mem_pieces {path piece : String} (h : piece ∈ pieces path) : '/' ∉ piece.toList := by
  obtain ⟨cs, hcs, rfl⟩ := List.mem_map.mp h
  rw [String.toList_ofList]
  exact not_mem_of_mem_pieces hcs

theorem pieces_of_slash_not_mem {name : String} (h : '/' ∉ name.toList) : pieces name = [name] := by
  simp [pieces, pieces_of_not_mem h]

theorem pieces_slash (a b : String) : pieces (a ++ "/" ++ b) = pieces a ++ pieces b := by
  unfold pieces
  rw [String.toList_append, String.toList_append, List.append_assoc]
  show (TreeReplica.pieces '/' (a.toList ++ '/' :: b.toList)).map String.ofList = _
  rw [pieces_append, List.map_append]

theorem slash_not_mem_of_mem_names {path name : String} (h : name ∈ names path) : '/' ∉ name.toList :=
  slash_not_mem_of_mem_pieces (List.mem_filter.mp h).1

theorem names_eq (path : String) : names path = ((pieces path).filter (· ≠ "")).filter (· ≠ ".") := by
  unfold names
  rw [List.filter_filter]
  congr 1
  funext piece
  simp [blank, Bool.and_comm]

/-- The pieces of a text below another one are those of both, but for a blank one at the seam. -/
theorem pieces_join (base : String) {path : String} (h : absolute path = false) :
    (base = "" ∧ join base path = path) ∨
      (base ≠ "" ∧ ∃ front, pieces (join base path) = front ++ pieces path ∧
        (pieces base = front ∨ pieces base = front ++ [""])) := by
  unfold join
  by_cases hb : base = ""
  · exact Or.inl ⟨hb, by simp [hb]⟩
  refine Or.inr ⟨hb, ?_⟩
  simp only [hb, h, Bool.false_eq_true, ite_false, decide_false, Bool.or_self]
  split
  · rename_i hs
    obtain ⟨front, hf⟩ := List.getLast?_eq_some_iff.mp hs
    have hbase : base = String.ofList front ++ "/" ++ "" := by
      rw [← String.toList_inj, String.toList_append, String.toList_append, String.toList_ofList, hf]
      simp
    refine ⟨pieces (String.ofList front), ?_, Or.inr ?_⟩
    · rw [hbase, String.append_empty, pieces_slash]
    · rw [hbase, pieces_slash]
      rfl
  · exact ⟨pieces base, pieces_slash base path, Or.inl rfl⟩

theorem names_join {base path : String} (h : absolute path = false) :
    names (join base path) = names base ++ names path := by
  rcases pieces_join base h with ⟨rfl, hj⟩ | ⟨-, front, hj, hf⟩
  · rw [hj]
    rfl
  · unfold names
    rcases hf with hf | hf
    · rw [hj, hf, List.filter_append]
    · rw [hj, hf, List.filter_append]
      simp [blank]

theorem head?_toList_append {a b : String} (ha : a ≠ "") : (a ++ b).toList.head? = a.toList.head? := by
  obtain ⟨first, hf⟩ := Option.isSome_iff_exists.mp (List.isSome_head?.mpr (show a.toList ≠ [] by simpa using ha))
  rw [String.toList_append, List.head?_append, hf, Option.some_or]

theorem absolute_join {base path : String} (h : absolute path = false) :
    absolute (join base path) = absolute base := by
  unfold join
  by_cases hb : base = ""
  · subst hb
    simpa [show absolute "" = false by decide] using h
  · simp only [hb, h, Bool.false_eq_true, ite_false, decide_false, Bool.or_self]
    unfold absolute
    split
    · rw [head?_toList_append hb]
    · rw [String.append_assoc, head?_toList_append hb]

/-! ### Directories -/

theorem filter_dropWhile_blank (ps : List String) :
    (ps.dropWhile blank).filter (!blank ·) = ps.filter (!blank ·) := by
  induction ps with
  | nil => rfl
  | cons p ps ih => by_cases hp : blank p <;> simp [hp, ih]

theorem filter_trimEnd (ps : List String) : (trimEnd ps).filter (!blank ·) = ps.filter (!blank ·) := by
  unfold trimEnd
  rw [List.filter_reverse, filter_dropWhile_blank, ← List.filter_reverse, List.reverse_reverse]

theorem prefix_trimEnd (ps : List String) : trimEnd ps <+: ps := by
  unfold trimEnd
  rw [← List.reverse_suffix, List.reverse_reverse]
  exact List.dropWhile_suffix _

/-- What `trimEnd` leaves is nothing, or ends in a name. -/
theorem trimEnd_eq (ps : List String) :
    trimEnd ps = [] ∨ ∃ front name, trimEnd ps = front ++ [name] ∧ blank name = false := by
  unfold trimEnd
  cases hd : ps.reverse.dropWhile blank with
  | nil => exact Or.inl rfl
  | cons name front =>
    refine Or.inr ⟨front.reverse, name, by simp, ?_⟩
    have := List.head?_dropWhile_not blank ps.reverse
    rw [hd] at this
    simpa using this

theorem filter_dropName (ps : List String) :
    (dropName ps).filter (!blank ·) = (ps.filter (!blank ·)).dropLast := by
  unfold dropName
  rw [filter_trimEnd, ← filter_trimEnd ps]
  rcases trimEnd_eq ps with h | ⟨front, name, h, hb⟩
  · simp [h]
  · simp [h, hb]

theorem prefix_dropName (ps : List String) : dropName ps <+: ps :=
  (prefix_trimEnd _).trans ((List.dropLast_prefix _).trans (prefix_trimEnd ps))

theorem pieces_intercalate_slash {ps : List String} (hne : ps ≠ []) (h : ∀ p ∈ ps, '/' ∉ p.toList) :
    pieces ("/".intercalate ps) = ps := by
  unfold pieces
  rw [String.toList_intercalate]
  show (TreeReplica.pieces '/' (['/'].intercalate (ps.map String.toList))).map String.ofList = ps
  rw [pieces_intercalate (by simpa using hne) (by simpa using h), List.map_map]
  simp [Function.comp_def]

theorem names_intercalate {ps : List String} (h : ∀ p ∈ ps, '/' ∉ p.toList) :
    names ("/".intercalate ps) = ps.filter (!blank ·) := by
  by_cases hne : ps = []
  · subst hne
    decide
  · unfold names
    rw [pieces_intercalate_slash hne h]

theorem names_slash_append (path : String) : names ("/" ++ path) = names path := by
  have : "/" ++ path = "" ++ "/" ++ path := by rw [String.empty_append]
  unfold names
  rw [this, pieces_slash]
  rfl

theorem names_parent (path : String) : names (parent path) = (names path).dropLast := by
  have hs : ∀ piece ∈ pieces path, '/' ∉ piece.toList := fun _ => slash_not_mem_of_mem_pieces
  unfold parent names
  split <;> rename_i hp
  · rw [hp]
    decide
  · rename_i body _
    rw [hp] at hs ⊢
    have hd : ∀ p ∈ dropName body, '/' ∉ p.toList := fun p h =>
      hs p (List.mem_cons_of_mem _ ((prefix_dropName body).subset h))
    show names _ = _
    rw [names_slash_append, names_intercalate hd, filter_dropName]
    simp [blank]
  · rename_i body
    rw [hp] at hs ⊢
    split
    · rename_i he
      have hb : body.filter (!blank ·) = [] := by rw [← filter_trimEnd, he]; rfl
      rw [List.filter_cons_of_neg (by decide), hb]
      decide
    · have hd : ∀ p ∈ "." :: dropName body, '/' ∉ p.toList := fun p h => by
        rcases List.mem_cons.mp h with rfl | h
        · decide
        · exact hs p (List.mem_cons_of_mem _ ((prefix_dropName body).subset h))
      show names _ = _
      rw [names_intercalate hd, List.filter_cons_of_neg (by decide), List.filter_cons_of_neg (by decide),
        filter_dropName]
  · have hd : ∀ p ∈ dropName (pieces path), '/' ∉ p.toList := fun p h =>
      hs p ((prefix_dropName _).subset h)
    show names _ = _
    rw [names_intercalate hd, filter_dropName]

theorem toList_eq_intercalate (path : String) :
    path.toList = ['/'].intercalate ((pieces path).map String.toList) := by
  unfold pieces
  rw [toList_ofList_map, intercalate_pieces]

/-- The text of a directory is where the text of its file begins. -/
theorem prefix_parent (path : String) : (parent path).toList <+: path.toList := by
  have sub : ∀ {a b : List String}, a <+: b →
      ("/".intercalate a).toList <+: ['/'].intercalate (b.map String.toList) := fun h => by
    rw [String.toList_intercalate]
    exact prefix_intercalate (h.map _)
  rw [toList_eq_intercalate path]
  unfold parent
  split <;> rename_i hp
  · exact (List.prefix_iff_eq_append.mpr rfl)
  · rename_i body hne
    rw [hp]
    obtain ⟨first, others, rfl⟩ := List.exists_cons_of_ne_nil (l := body) (fun h => hne h)
    rw [List.map_cons, List.map_cons, List.intercalate_cons_cons, String.toList_append, ← List.map_cons]
    exact (List.prefix_append_right_inj _).mpr (sub (prefix_dropName _))
  · rename_i body
    rw [hp]
    split
    · exact (List.prefix_iff_eq_append.mpr rfl)
    · exact sub ((List.prefix_cons_inj _).mpr (prefix_dropName _))
  · exact sub (prefix_dropName _)

theorem absolute_parent (path : String) : absolute (parent path) = absolute path := by
  by_cases hp : parent path = ""
  · rw [hp]
    refine (Bool.eq_false_iff.mpr fun ha => ?_).symm
    -- A text that begins with a slash has a second piece, so its directory is not the empty text.
    obtain ⟨cs, hcs⟩ : ∃ cs, path.toList = '/' :: cs :=
      List.head?_eq_some_iff.mp (by simpa [absolute] using ha)
    have hps : pieces path = "" :: (TreeReplica.pieces '/' cs).map String.ofList := by
      simp [pieces, hcs, TreeReplica.pieces]
    have hne : (TreeReplica.pieces '/' cs).map String.ofList ≠ [] := by
      simp [TreeReplica.pieces_ne_nil]
    unfold parent at hp
    split at hp <;> rename_i h
    · rw [hps] at h
      exact hne (List.cons.inj h).2
    · have := congrArg String.toList hp
      simp at this
    · rw [hps] at h
      simp at h
    · rename_i hslash
      exact hslash _ hps
  · obtain ⟨rest, hr⟩ := prefix_parent path
    unfold absolute
    obtain ⟨first, others, hf⟩ := List.exists_cons_of_ne_nil (l := (parent path).toList) (by simpa using hp)
    rw [← hr, hf]
    rfl

/-- The text ends in a name, or in `..`, or names nothing: it does not end in `/.` behind a name. -/
def Plain (path : String) : Prop := ((pieces path).filter (· ≠ "")).getLast? = some "." → names path = []

theorem plain_of_pieces {path : String} (front : List String) {ps : List String}
    (hp : pieces path = front ++ dropName ps) (hf : ∀ p ∈ front, blank p = true) : Plain path := by
  intro hlast
  unfold names
  rw [hp] at hlast ⊢
  rw [List.filter_append, List.filter_eq_nil_iff.mpr fun p h => by simp [hf p h], List.nil_append]
  rcases trimEnd_eq (trimEnd ps).dropLast with h | ⟨rest, name, h, hb⟩
  · rw [dropName, h]
    rfl
  · rw [dropName, h, ← List.append_assoc, List.filter_append] at hlast
    have hne : name ≠ "" ∧ name ≠ "." := by simpa [blank] using hb
    simp [hne.1, hne.2] at hlast

theorem plain_parent (path : String) : Plain (parent path) := by
  have hs : ∀ piece ∈ pieces path, '/' ∉ piece.toList := fun _ => slash_not_mem_of_mem_pieces
  have hd : ∀ {ps : List String}, (∀ p ∈ ps, '/' ∉ p.toList) →
      ∀ p ∈ dropName ps, '/' ∉ p.toList := fun hps p hp =>
    hps p ((prefix_dropName _).subset hp)
  have joined : ∀ {ps : List String}, (∀ p ∈ ps, '/' ∉ p.toList) → dropName ps ≠ [] →
      pieces ("/".intercalate (dropName ps)) = dropName ps := fun hps hne => pieces_intercalate_slash hne (hd hps)
  have empty : Plain "" := fun _ => by decide
  have slash : Plain "/" := fun _ => by decide
  unfold parent
  split <;> rename_i hp
  · exact empty
  · rename_i body _
    rw [hp] at hs
    have hb : ∀ p ∈ body, '/' ∉ p.toList := fun p h => hs p (List.mem_cons_of_mem _ h)
    by_cases hne : dropName body = []
    · rw [hne]
      exact slash
    · refine plain_of_pieces [""] (?_ : _ = _ ++ dropName body) (by simp [blank])
      have htop : "/" ++ "/".intercalate (dropName body) = "" ++ "/" ++ "/".intercalate (dropName body) := by
        rw [String.empty_append]
      rw [htop, pieces_slash, joined hb hne]
      rfl
  · rename_i body
    rw [hp] at hs
    have hb : ∀ p ∈ body, '/' ∉ p.toList := fun p h => hs p (List.mem_cons_of_mem _ h)
    split
    · exact empty
    · refine plain_of_pieces ["."] (?_ : _ = _ ++ dropName body) (by simp [blank])
      refine pieces_intercalate_slash (by simp) fun p h => ?_
      rcases List.mem_cons.mp h with rfl | h
      · decide
      · exact hd hb p h
  · by_cases hne : dropName (pieces path) = []
    · rw [hne]
      exact empty
    · exact plain_of_pieces [] ((joined hs hne).trans (List.nil_append _).symm) (by simp)

theorem utf8ByteSize_mono {a b : String} (h : a.toList <+: b.toList) : a.utf8ByteSize ≤ b.utf8ByteSize := by
  obtain ⟨rest, hr⟩ := h
  have : b = a ++ String.ofList rest := by
    rw [← String.toList_inj, String.toList_append, String.toList_ofList, hr]
  rw [this, String.utf8ByteSize_append]
  omega

/-! ### Names of records -/

theorem toList_recordName (name : String) :
    (recordName name).toList = '.' :: name.toList ++ recordSuffix.toList := by
  show ("." ++ name ++ recordSuffix).toList = _
  rw [String.toList_append, String.toList_append]
  rfl

theorem recordName_injective {a b : String} (h : recordName a = recordName b) : a = b := by
  have := congrArg String.toList h
  rw [toList_recordName, toList_recordName, List.append_cancel_right_eq, List.cons_inj_right] at this
  exact String.toList_inj.mp this

theorem reserved_recordName (name : String) : reserved (recordName name) = true := by
  unfold reserved
  rw [toList_recordName, Bool.or_eq_true, List.isSuffixOf_iff_suffix]
  exact Or.inl (List.suffix_append _ _)

theorem absolute_recordName (name : String) : absolute (recordName name) = false := by
  unfold absolute
  rw [toList_recordName]
  rfl

theorem slash_not_mem_recordName {name : String} (h : '/' ∉ name.toList) : '/' ∉ (recordName name).toList := by
  rw [toList_recordName]
  simp [h, recordSuffix]

theorem length_recordName (name : String) : 8 ≤ (recordName name).toList.length := by
  rw [toList_recordName]
  simp [recordSuffix]

theorem recordName_ne (name : String) {short : String} (h : short.toList.length < 8) :
    recordName name ≠ short := fun he => by
  have := length_recordName name
  rw [he] at this
  omega

theorem blank_recordName (name : String) : blank (recordName name) = false := by
  simp [blank, recordName_ne name (show "".toList.length < 8 by decide),
    recordName_ne name (show ".".toList.length < 8 by decide)]

section
variable {path name : String}

theorem mem_names_of_fileName? (h : fileName? path = some name) : name ∈ names path :=
  List.mem_of_getLast? (Option.filter_eq_some_iff.mp h).1

theorem names_of_fileName? (h : fileName? path = some name) : names path = (names path).dropLast ++ [name] := by
  obtain ⟨front, hf⟩ := List.getLast?_eq_some_iff.mp (Option.filter_eq_some_iff.mp h).1
  rw [hf, List.dropLast_concat]

theorem sidecar_eq (h : fileName? path = some name) : sidecar path = join (parent path) (recordName name) := by
  rw [sidecar, h]

theorem pieces_recordName (h : '/' ∉ name.toList) : pieces (recordName name) = [recordName name] :=
  pieces_of_slash_not_mem (slash_not_mem_recordName h)

theorem names_sidecar (h : fileName? path = some name) :
    names (sidecar path) = (names path).dropLast ++ [recordName name] := by
  have hs := slash_not_mem_of_mem_names (mem_names_of_fileName? h)
  rw [sidecar_eq h, names_join (absolute_recordName name), names_parent]
  congr 1
  unfold names
  rw [pieces_recordName hs]
  simp [blank_recordName]

theorem absolute_sidecar (h : fileName? path = some name) : absolute (sidecar path) = absolute path := by
  rw [sidecar_eq h, absolute_join (absolute_recordName name), absolute_parent]

end

/-! ### Tracked paths -/

theorem fault?_eq_none {path : String} (h : fault? path = none) :
    absolute path = false ∧ ".." ∉ names path ∧ ∃ name, fileName? path = some name ∧ reserved name = false := by
  unfold fault? at h
  split at h
  · cases h
  split at h
  · cases h
  split at h
  · cases h
  rename_i ha
  split at h
  · cases h
  rename_i hdots
  split at h
  · cases h
  rename_i name hname
  split at h
  · cases h
  rename_i hres
  exact ⟨Bool.eq_false_iff.mpr ha, hdots, name, hname, Bool.eq_false_iff.mpr hres⟩

/-- The full text of a tracked path ends in a name that no record and no staging file has. -/
theorem fileName?_of_resolve {root path file : String} (h : resolve root path = .ok file) :
    ∃ name, fileName? file = some name ∧ reserved name = false := by
  unfold resolve at h
  split at h
  · cases h
  · rename_i hf
    obtain ⟨ha, -, name, hname, hres⟩ := fault?_eq_none hf
    cases h
    refine ⟨name, ?_, hres⟩
    have hlast := names_of_fileName? hname
    have hdots := (Option.filter_eq_some_iff.mp hname).2
    unfold fileName?
    rw [names_join ha, hlast, ← List.append_assoc, List.getLast?_concat, Option.filter_some, if_pos hdots]

theorem utf8ByteSize_le_of_resolve {root path file : String} (h : resolve root path = .ok file) :
    path.utf8ByteSize ≤ maxLength := by
  unfold resolve fault? at h
  split at h
  · cases h
  · rename_i hf
    split at hf
    · cases hf
    · split at hf
      · cases hf
      · rename_i hsize
        exact Nat.not_lt.mp hsize

end Path

end TreeReplica
