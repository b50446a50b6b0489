import TreeReplica.Proofs.Places

/-! Tracked paths stay below the root. Texts are compared by their components, which leave out what says
    nothing about where a text leads. An accepted text has the components of the root followed by its own
    (`Path.components_join`), the text of a record trades the last one (`Path.components_sidecar`), and that
    trade loses nothing. Main statement: `Path.resolve_contained`. -/

namespace TreeReplica
open Volume

namespace Path

/-! ### Components -/

/-- One step of a path: to the top of the tree, up, or to a name. -/
inductive Component where
  | top
  | up
  | name (text : String)
  deriving DecidableEq, Repr

/-- The step that a name in a text stands for. -/
def Component.of (name : String) : Component := if name = ".." then .up else .name name

/-- The steps that a text asks for. Repeated slashes, `.` and slashes at the end ask for none. -/
def components (path : String) : List Component := (if absolute path then [.top] else []) ++ (names path).map .of

theorem Component.of_injective : Function.Injective Component.of := fun a b h => by
  unfold Component.of at h
  split at h <;> split at h <;> simp_all

theorem Component.of_eq_name {name text : String} : Component.of name = .name text ↔ name = text ∧ name ≠ ".." := by
  unfold Component.of
  split <;> simp_all

variable {root path file name p q : String}

theorem components_of_relative (h : absolute path = false) : components path = (names path).map .of := by
  unfold components
  rw [h]
  rfl

theorem components_eq_iff (hp : absolute p = false) (hq : absolute q = false) :
    components p = components q ↔ names p = names q := by
  rw [components_of_relative hp, components_of_relative hq]
  exact ⟨fun h => List.map_inj_right Component.of_injective |>.mp h, congrArg _⟩

theorem up_mem_components : .up ∈ components path ↔ ".." ∈ names path := by
  unfold components
  rw [List.mem_append, List.mem_map]
  constructor
  · rintro (h | ⟨name, hm, ho⟩)
    · split at h <;> simp at h
    · unfold Component.of at ho
      split at ho
      · rename_i he
        exact he ▸ hm
      · cases ho
  · exact fun h => Or.inr ⟨"..", h, rfl⟩

theorem getLast?_components : (components path).getLast? = some (.name name) ↔ fileName? path = some name := by
  have hlast : (components path).getLast? = some (.name name) ↔
      ((names path).map Component.of).getLast? = some (.name name) := by
    unfold components
    rw [List.getLast?_append]
    cases ((names path).map Component.of).getLast? with
    | some last => rfl
    | none => split <;> simp
  rw [hlast, List.getLast?_map, Option.map_eq_some_iff, fileName?, Option.filter_eq_some_iff]
  simp only [Component.of_eq_name, decide_eq_true_eq]
  exact ⟨fun ⟨a, ha, he, hne⟩ => he ▸ ⟨ha, hne⟩, fun ⟨ha, hne⟩ => ⟨name, ha, rfl, hne⟩⟩

theorem components_join (h : absolute path = false) :
    components (join root path) = components root ++ components path := by
  rw [components_of_relative h]
  unfold components
  rw [absolute_join h, names_join h, List.map_append, List.append_assoc]

theorem components_sidecar (h : fileName? path = some name) :
    components (sidecar path) = (components path).dropLast ++ [.name (recordName name)] := by
  have hrecord : Component.of (recordName name) = .name (recordName name) :=
    Component.of_eq_name.mpr ⟨rfl, recordName_ne name (by decide)⟩
  unfold components
  rw [absolute_sidecar h, names_sidecar h, names_of_fileName? h, List.dropLast_concat,
    List.map_append, List.map_append, List.map_singleton, List.map_singleton, hrecord, ← List.append_assoc,
    ← List.append_assoc, List.dropLast_concat]

/-! ### Tracked paths -/

theorem reserved_eq_false : reserved name = false ↔
    ¬recordSuffix.toList <:+ name.toList ∧ ¬stagingSuffix.toList <:+ name.toList := by
  unfold reserved
  rw [Bool.or_eq_false_iff, ← Bool.not_eq_true, ← Bool.not_eq_true, List.isSuffixOf_iff_suffix,
    List.isSuffixOf_iff_suffix]

/-- What is accepted: a relative text that is short enough, never leads up, and ends in a name that is not kept. -/
theorem resolve_eq_ok : resolve root path = .ok file ↔
    file = join root path ∧ path ≠ "" ∧ path.utf8ByteSize ≤ maxLength ∧ absolute path = false ∧
      .up ∉ components path ∧
      ∃ name, (components path).getLast? = some (.name name) ∧ reserved name = false := by
  constructor
  · intro h
    have hsize := utf8ByteSize_le_of_resolve h
    unfold resolve at h
    split at h
    · cases h
    rename_i hf
    obtain ⟨ha, hdots, name, hname, hres⟩ := fault?_eq_none hf
    refine ⟨(Except.ok.inj h).symm, ?_, hsize, ha, mt up_mem_components.mp hdots, name,
      getLast?_components.mpr hname, hres⟩
    rintro rfl
    cases hname
  · rintro ⟨rfl, hne, hsize, ha, hup, name, hname, hres⟩
    have hf : fault? path = none := by
      unfold fault?
      rw [if_neg hne, if_neg (Nat.not_lt.mpr hsize), ha, if_neg Bool.false_ne_true,
        if_neg (mt up_mem_components.mpr hup), getLast?_components.mp hname]
      simp [hres]
    unfold resolve
    rw [hf]

theorem resolve_below (h : resolve root path = .ok file) :
    components file = components root ++ components path ∧ ∃ name, (components path).getLast? = some (.name name) ∧
      reserved name = false ∧
      components (sidecar file) = (components file).dropLast ++ [.name (recordName name)] := by
  obtain ⟨rfl, -, -, ha, -, name, hname, hres⟩ := resolve_eq_ok.mp h
  have hfile : components (join root path) = components root ++ components path := components_join ha
  have hlast : (components (join root path)).getLast? = some (.name name) := by
    rw [hfile, List.getLast?_append, hname]
    rfl
  exact ⟨hfile, name, hname, hres, components_sidecar (getLast?_components.mp hlast)⟩

/-- The record's name stands for the file's name, so the places of two records tell the paths apart. -/
theorem components_sidecar_inj {pfile qfile : String} (hp : resolve root p = .ok pfile)
    (hq : resolve root q = .ok qfile) :
    components (sidecar pfile) = components (sidecar qfile) ↔ components p = components q := by
  obtain ⟨hpfile, a, ha, -, hpside⟩ := resolve_below hp
  obtain ⟨hqfile, b, hb, -, hqside⟩ := resolve_below hq
  obtain ⟨front, hf⟩ := List.getLast?_eq_some_iff.mp ha
  obtain ⟨front', hf'⟩ := List.getLast?_eq_some_iff.mp hb
  rw [hpside, hqside, hpfile, hqfile, hf, hf', ← List.append_assoc, ← List.append_assoc, List.dropLast_concat,
    List.dropLast_concat]
  constructor
  · intro h
    obtain ⟨hfront, hlast⟩ := List.append_inj' h rfl
    rw [List.append_cancel_left hfront, recordName_injective (Component.name.inj (List.singleton_inj.mp hlast))]
  · intro h
    obtain ⟨rfl, hlast⟩ := List.append_inj' h rfl
    rw [Component.name.inj (List.singleton_inj.mp hlast)]

/-- Whatever the root is: an accepted text leads below it, by its own names, to a file with a name that is not
    kept, and the record stands in the directory of that file. Two accepted texts have one record exactly if
    they have the same components. Every text that could name a file below the root is accepted. -/
theorem resolve_contained (root : String) :
    (∀ path file, resolve root path = .ok file →
      components file = components root ++ components path ∧
      (∀ c ∈ components path, ∃ name, c = .name name) ∧
      ∃ name, (components path).getLast? = some (.name name) ∧
        ¬recordSuffix.toList <:+ name.toList ∧ ¬stagingSuffix.toList <:+ name.toList ∧
        components (sidecar file) = (components file).dropLast ++ [.name (recordName name)]) ∧
    (∀ p q pfile qfile, resolve root p = .ok pfile → resolve root q = .ok qfile →
      (components (sidecar pfile) = components (sidecar qfile) ↔ components p = components q) ∧
      ∀ (v : Volume) (σ τ : Site), Store.Leads ⟨root⟩ v p σ → Store.Leads ⟨root⟩ v q τ →
        (σ.record = τ.record ↔ components p = components q)) ∧
    ∀ path, path ≠ "" → absolute path = false → path.utf8ByteSize ≤ 4096 → .up ∉ components path →
      (∃ name, (components path).getLast? = some (.name name) ∧
        ¬recordSuffix.toList <:+ name.toList ∧ ¬stagingSuffix.toList <:+ name.toList) →
      resolve root path = .ok (join root path) := by
  refine ⟨fun path file h => ?_, fun p q pfile qfile hp hq => ⟨?_, fun v σ τ hσ hτ => ?_⟩,
    fun path hne ha hsize hup hlast => ?_⟩
  · obtain ⟨hfile, name, hname, hres, hside⟩ := resolve_below h
    obtain ⟨-, -, -, ha, hup, -⟩ := resolve_eq_ok.mp h
    refine ⟨hfile, fun c hc => ?_, name, hname, (reserved_eq_false.mp hres).1, (reserved_eq_false.mp hres).2, hside⟩
    rw [components_of_relative ha] at hc
    obtain ⟨text, ht, rfl⟩ := List.mem_map.mp hc
    exact ⟨text, Component.of_eq_name.mpr ⟨rfl, fun he => hup (up_mem_components.mpr (he ▸ ht))⟩⟩
  · exact components_sidecar_inj hp hq
  · obtain ⟨-, -, -, hap, -⟩ := resolve_eq_ok.mp hp
    obtain ⟨-, -, -, haq, -⟩ := resolve_eq_ok.mp hq
    obtain rfl := hσ.eq_site
    obtain rfl := hτ.eq_site
    rw [components_eq_iff hap haq]
    refine ⟨fun he => Decidable.by_contra fun hne => (Store.record_apart (s := ⟨root⟩) hp hq).2.2 hne he,
      fun he => ?_⟩
    unfold Store.site Store.way
    rw [he]
  · obtain ⟨name, hname, hres⟩ := hlast
    exact resolve_eq_ok.mpr ⟨rfl, hne, hsize, ha, hup, name, hname, reserved_eq_false.mpr hres⟩

theorem resolve_contained_spellings :
    resolve "/data" "./docs//a/." = .ok "/data/./docs//a/." ∧
      components "/data/./docs//a/." = [.top, .name "data", .name "docs", .name "a"] ∧
      components (sidecar "/data/./docs//a/.") = components (sidecar "/data/docs/a") := by
  obtain ⟨inside, same, accepted⟩ := resolve_contained "/data"
  have spelled : resolve "/data" "./docs//a/." = .ok "/data/./docs//a/." :=
    accepted "./docs//a/." (by decide) (by decide) (by decide) (by decide) ⟨"a", by decide, by decide, by decide⟩
  have short : resolve "/data" "docs/a" = .ok "/data/docs/a" :=
    accepted "docs/a" (by decide) (by decide) (by decide) (by decide) ⟨"a", by decide, by decide, by decide⟩
  refine ⟨spelled, ?_, ((same _ _ _ _ spelled short).1.mpr (by decide))⟩
  rw [(inside _ _ spelled).1]
  decide

end Path

end TreeReplica
