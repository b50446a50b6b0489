import TreeReplica.Proofs.Volume.StagingName

/-! The way that names take through a volume. Where it leads is a matter of the names alone
    (`walk_eq_follow`), so the directories that an operation makes are known beforehand: `Within` says that an
    operation has made no others and has touched certain places at most. -/

namespace TreeReplica
namespace Volume

/-! ### Names without a volume -/

/-- Where one name leads. -/
def toward (dir : Location) (name : String) : Location := if name = ".." then dir.dropLast else dir ++ [name]

/-- Where names lead, if all directories on the way are there. -/
def follow (dir : Location) (names : List String) : Location := names.foldl toward dir

/-- A directory that the names call for. -/
def OnWay (dir : Location) (names : List String) (l : Location) : Prop :=
  ∃ front name, front ++ [name] <+: names ∧ name ≠ ".." ∧ l = follow dir (front ++ [name])

section Follow
variable {dir l : Location} {name : String} {names more : List String}

@[simp]
theorem follow_cons : follow dir (name :: names) = follow (toward dir name) names := rfl

theorem follow_append : follow dir (names ++ more) = follow (follow dir names) more := List.foldl_append

theorem follow_concat : follow dir (names ++ [name]) = toward (follow dir names) name := by rw [follow_append]; rfl

theorem toward_of_ne (h : name ≠ "..") : toward dir name = dir ++ [name] := if_neg h

/-- Names that never lead up are the rest of the location. -/
theorem follow_of_not_mem (h : ".." ∉ names) : follow dir names = dir ++ names := by
  induction names generalizing dir with
  | nil => simp [follow]
  | cons name names ih =>
    simp only [List.mem_cons, not_or] at h
    rw [follow_cons, ih h.2, toward_of_ne (Ne.symm h.1), List.append_assoc, List.singleton_append]

theorem OnWay.cons (h : OnWay (toward dir name) names l) : OnWay dir (name :: names) l := by
  obtain ⟨front, last, hp, hne, rfl⟩ := h
  exact ⟨name :: front, last, (List.prefix_cons_inj name).mpr hp, hne, rfl⟩

theorem onWay_head (h : name ≠ "..") : OnWay dir (name :: names) (dir ++ [name]) :=
  ⟨[], name, (List.prefix_cons_inj name).mpr <| List.nil_prefix, h, (toward_of_ne h).symm⟩

theorem OnWay.longer (h : OnWay dir names l) (hp : names <+: more) : OnWay dir more l := by
  obtain ⟨front, name, hn, hne, hl⟩ := h
  exact ⟨front, name, hn.trans hp, hne, hl⟩

/-- Names that never lead up call for directories of the names before them, or for some below. -/
theorem onWay_append (hm : ".." ∉ more) (h : OnWay dir (names ++ more) l) :
    OnWay dir names l ∨ ∃ front, front ≠ [] ∧ front <+: more ∧ l = follow dir names ++ front := by
  obtain ⟨front, last, hp, hne, rfl⟩ := h
  rcases List.prefix_or_prefix_of_prefix hp (List.prefix_append names more) with hfront | ⟨rest, hrest⟩
  · exact Or.inl ⟨front, last, hfront, hne, rfl⟩
  rw [← hrest] at hp ⊢
  have hmore : rest <+: more := (List.prefix_append_right_inj names).mp hp
  by_cases hnone : rest = []
  · subst hnone
    rw [List.append_nil] at hrest ⊢
    exact Or.inl ⟨front, last, hrest ▸ List.prefix_rfl, hne, by rw [hrest]⟩
  · exact Or.inr ⟨rest, hnone, hmore, by rw [follow_append, follow_of_not_mem fun hd => hm (hmore.subset hd)]⟩

theorem onWay_below (hm : ".." ∉ more) (hne : more ≠ []) :
    OnWay dir (names ++ more) (follow dir names ++ more) := by
  have hall : names ++ more.dropLast ++ [more.getLast hne] = names ++ more := by
    rw [List.append_assoc, List.dropLast_concat_getLast hne]
  refine ⟨_, _, ⟨[], by rw [List.append_nil, hall]⟩, fun he => hm (he ▸ List.getLast_mem hne), ?_⟩
  rw [hall, follow_append, follow_of_not_mem hm]

end Follow

section Walk
variable {v : Volume} {dir e : Location} {name : String} {names : List String}

theorem enter_eq_toward (h : v.enter dir name = .ok e) : e = toward dir name := by
  unfold enter at h
  unfold toward
  split at h
  · rename_i hdots
    rw [if_pos hdots]
    exact (Except.ok.inj h).symm
  · rename_i hdots
    rw [if_neg hdots]
    split at h
    · cases h
    · split at h <;> cases h
      rfl

theorem walk_eq_follow (h : v.walk dir names = .ok e) : e = follow dir names := by
  induction names generalizing dir with
  | nil => exact (Except.ok.inj h).symm
  | cons name names ih =>
    unfold walk at h
    split at h
    · cases h
    · rename_i d hd
      rw [ih h, follow_cons, enter_eq_toward hd]

/-- All directories on a way that can be walked are there. -/
theorem lookup_of_walk (h : v.walk dir names = .ok e) {l : Location} (hl : OnWay dir names l) :
    v.lookup l = some .directory := by
  obtain ⟨front, name, ⟨rest, rfl⟩, hne, rfl⟩ := hl
  rw [walk_append] at h
  split at h
  · cases h
  rename_i d hd
  rw [walk_append] at hd
  split at hd
  · cases hd
  rename_i d' hd'
  unfold walk at hd
  split at hd
  · cases hd
  rename_i d₁ hd₁
  obtain rfl : d₁ = d' ++ [name] := (enter_eq_toward hd₁).trans (toward_of_ne hne)
  rw [follow_concat, ← walk_eq_follow hd', toward_of_ne hne]
  exact (lookup_of_enter hd₁ hne).2

/-- Directories that names call for are there, or lead to where the names lead, unless the names lead up out of
    missing ones. -/
theorem lookup_or_above (hup : ".." ∈ names → ∃ e, v.walk dir names = .ok e) {l : Location}
    (hl : OnWay dir names l) :
    v.lookup l = some .directory ∨ l <+: follow dir names := by
  by_cases hm : ".." ∈ names
  · obtain ⟨e, he⟩ := hup hm
    exact Or.inl (lookup_of_walk he hl)
  · obtain ⟨front, last, hp, -, rfl⟩ := hl
    refine Or.inr ?_
    rw [follow_of_not_mem hm, follow_of_not_mem fun hd => hm (hp.subset hd)]
    exact (List.prefix_append_right_inj dir).mpr hp

end Walk

/-! ### What an operation stays within -/

/-- The number of a file that stood in `P`, or of a new one. -/
def OwnNumber (P : Location → Prop) (v w : Volume) (id : Nat) : Prop :=
  (∃ l content, P l ∧ v.lookup l = some (.file id content)) ∨ (v.nextId ≤ id ∧ id < w.nextId)

/-- `w` is `v` but for the places in `P`, and for directories in `D` where nothing was. The files that stand in `P`
    were not taken from elsewhere, and no lock was taken on another file. -/
structure Within (P D : Location → Prop) (v w : Volume) : Prop where
  here : w.here = v.here
  next : v.nextId ≤ w.nextId
  directory : ∀ l, v.lookup l = some .directory → w.lookup l = some .directory
  same : ∀ l, ¬P l → w.lookup l = v.lookup l ∨ (D l ∧ v.lookup l = none ∧ w.lookup l = some .directory)
  files : ∀ {l id content}, P l → w.lookup l = some (.file id content) → OwnNumber P v w id
  locked : ∀ {id}, id ∈ w.locked → id ∈ v.locked ∨ OwnNumber P v w id

namespace Within
variable {P D Q E : Location → Prop} {u v w : Volume} {h : Handle} {l : Location}

theorem refl (P D : Location → Prop) (v : Volume) : Within P D v v :=
  ⟨rfl, Nat.le_refl _, fun _ h => h, fun _ _ => Or.inl rfl, fun hP hl => Or.inl ⟨_, _, hP, hl⟩, Or.inl⟩

theorem trans (h₁ : Within P D u v) (h₂ : Within P D v w) : Within P D u w := by
  have own : ∀ {id}, OwnNumber P v w id → OwnNumber P u w id := fun {id} ho => by
    rcases ho with ⟨l, content, hP, hl⟩ | ⟨hle, hlt⟩
    · exact (h₁.files hP hl).imp_right fun hn => ⟨hn.1, Nat.lt_of_lt_of_le hn.2 h₂.next⟩
    · exact Or.inr ⟨Nat.le_trans h₁.next hle, hlt⟩
  refine ⟨h₂.here.trans h₁.here, Nat.le_trans h₁.next h₂.next, fun l hl => h₂.directory l (h₁.directory l hl),
    fun l hl => ?_, fun hP hl => own (h₂.files hP hl), fun hid => ?_⟩
  · rcases h₁.same l hl with h | ⟨hd, hn, hv⟩
    · rw [← h]
      exact h₂.same l hl
    · exact Or.inr ⟨hd, hn, h₂.directory l hv⟩
  · rcases h₂.locked hid with hv | ho
    · exact (h₁.locked hv).imp id fun ho => ho.imp id fun hn => ⟨hn.1, Nat.lt_of_lt_of_le hn.2 h₂.next⟩
    · exact Or.inr (own ho)

theorem mono (h : Within P D v w) (hP : ∀ l, P l → Q l) (hD : ∀ l, D l → E l) : Within Q E v w := by
  have own : ∀ {id}, OwnNumber P v w id → OwnNumber Q v w id := fun ho =>
    ho.imp (fun ⟨l, content, hl, hv⟩ => ⟨l, content, hP l hl, hv⟩) id
  refine ⟨h.here, h.next, h.directory, fun l hl => ?_, fun {l id content} hQ hl => ?_,
    fun hid => (h.locked hid).imp id own⟩
  · exact (h.same l fun hp => hl (hP l hp)).imp id fun ⟨hd, hv⟩ => ⟨hD l hd, hv⟩
  · by_cases hp : P l
    · exact own (h.files hp hl)
    · rcases h.same l hp with hs | ⟨-, -, hd⟩
      · exact Or.inl ⟨l, content, hQ, hs ▸ hl⟩
      · rw [hl] at hd
        cases hd

/-- What keeps all but some places, makes no directories, and has its files from these places. -/
theorem of_kept (hk : Kept P v w) (hd : ∀ l, w.lookup l = some .directory → v.lookup l = some .directory)
    (hf : ∀ {l id content}, P l → w.lookup l = some (.file id content) → OwnNumber P v w id) : Within P D v w where
  here := hk.here
  next := hk.next
  directory := hk.directory
  same l hl := by
    rcases hk.same l hl with hs | ⟨hn, hw⟩
    · exact Or.inl hs
    · rw [hd l hw] at hn
      cases hn
  files := hf
  locked hid := Or.inl (hk.locked ▸ hid)

theorem lock (hP : P h.location) {content : Content} (hl : v.lookup h.location = some (.file h.id content)) :
    Within P D v (v.lock h) :=
  { refl P D v with
    locked := fun hid => by
      rcases List.mem_cons.mp hid with rfl | hid
      · exact Or.inr (Or.inl ⟨_, content, hP, hl⟩)
      · exact Or.inl hid }

theorem unlock (v : Volume) (h : Handle) : Within P D v (v.unlock h) :=
  { refl P D v with locked := fun hid => Or.inl (List.mem_filter.mp hid).1 }

theorem modify (hP : P h.location) (f : Content → Content) : Within P D v (v.modify h f) := by
  refine of_kept ((modify_kept f).mono fun l hl => hl ▸ hP) (fun l hl => ?_) fun {l id content} hl hf => ?_
  · rw [lookup_modify] at hl
    split at hl
    · split at hl
      · cases hl
      · exact hl
    · exact hl
  · rw [lookup_modify] at hf
    split at hf
    · rename_i old hread
      split at hf
      · cases hf
        exact Or.inl ⟨_, old, hP, read?_eq_some.mp hread⟩
      · exact Or.inl ⟨l, content, hl, hf⟩
    · exact Or.inl ⟨l, content, hl, hf⟩

theorem create (hP : P l) (hne : l ≠ []) (hv : v.lookup l ≠ some .directory) : Within P D v (v.create l).2 := by
  have hlook : ∀ m, (v.create l).2.lookup m = if l = m then some (.file v.nextId .empty) else v.lookup m :=
    lookup_setEntry v hne _
  refine of_kept ((Kept.create hne hv).mono fun m hm => hm ▸ hP) (fun m hm => ?_) fun {m id content} hm hf => ?_
  · rw [hlook] at hm
    split at hm
    · cases hm
    · exact hm
  · rw [hlook] at hf
    split at hf
    · cases hf
      exact Or.inr ⟨Nat.le_refl _, Nat.lt_succ_self _⟩
    · exact Or.inl ⟨m, content, hm, hf⟩

theorem discard (hP : P h.location) : Within P D v (v.discard h) := by
  have hlook : ∀ {l entry}, (v.discard h).lookup l = some entry → v.lookup l = some entry := fun {l entry} hl => by
    unfold Volume.discard at hl
    split at hl
    · rename_i hf
      have hne : h.location ≠ [] := fun hn => by
        rw [hn] at hf
        cases hf
      rw [lookup_removeEntry v hne] at hl
      split at hl
      · cases hl
      · exact hl
    · exact hl
  exact of_kept ((discard_kept v h).mono fun l hl => hl ▸ hP) (fun l hl => hlook hl) fun hl hf =>
    Or.inl ⟨_, _, hl, hlook hf⟩

theorem move {path : String} {answer : Except IoCause Unit} (hm : v.move h path = (answer, w)) (hP : P h.location)
    (hl : ∀ dir name, v.locate path = .ok (.inside dir name false) → P (dir ++ [name])) : Within P D v w := by
  cases answer with
  | error e =>
    rw [move_error hm]
    exact .refl P D v
  | ok _ =>
    obtain ⟨dir, name, content, hloc, -, hf, hd, rfl⟩ := move_ok hm
    have hne : h.location ≠ [] := location_ne_nil (read?_eq_some.mpr hf)
    have hlook : ∀ {l entry},
      ((v.removeEntry h.location).setEntry (dir ++ [name]) (.file h.id content)).lookup l = some entry →
        entry = .file h.id content ∨ v.lookup l = some entry := fun {l entry} hl' => by
      rw [lookup_setEntry _ concat_ne_nil, lookup_removeEntry v hne] at hl'
      split at hl'
      · exact Or.inl (Option.some.inj hl').symm
      · split at hl'
        · cases hl'
        · exact Or.inr hl'
    refine of_kept ((move_ok_kept hf hd).mono fun l hl' => hl'.elim (fun he => he ▸ hP) fun he =>
      he ▸ hl dir name hloc)
      (fun l hl' => (hlook hl').resolve_left Entry.noConfusion) fun hl' hfile => ?_
    rcases hlook hfile with he | hv
    · cases he
      exact Or.inl ⟨_, content, hP, hf⟩
    · exact Or.inl ⟨_, _, hl', hv⟩

theorem directoryMade (hD : D l) (hv : v.lookup l = none) : Within P D v (v.setEntry l .directory) := by
  have hne : l ≠ [] := by
    rintro rfl
    simp at hv
  have hlook := lookup_setEntry v hne .directory
  refine ⟨rfl, Nat.le_refl _, fun m hm => ?_, fun m _ => ?_, fun {m id content} hP hf => ?_, Or.inl⟩
  · rw [hlook]
    split
    · rfl
    · exact hm
  · rw [hlook]
    split
    · rename_i he
      exact Or.inr ⟨he ▸ hD, he ▸ hv, rfl⟩
    · exact Or.inl rfl
  · rw [hlook] at hf
    split at hf
    · cases hf
    · exact Or.inl ⟨m, content, hP, hf⟩

theorem start (hk : Within P D v w) (path : String) : w.start path = v.start path := by
  unfold Volume.start
  rw [hk.here]

end Within

section Directories
variable {v w : Volume} {path : String} {P : Location → Prop}

theorem makeDirectory_within (P : Location → Prop) (v : Volume) (path : String) :
    Within P (OnWay (v.start path) (Path.names path)) v (v.makeDirectory path).2 := by
  unfold makeDirectory
  split
  · exact .refl _ _ v
  · exact .refl _ _ v
  · rename_i dir name slash hl
    split
    · exact .refl _ _ v
    · split
      · exact .refl _ _ v
      · rename_i hlook
        obtain ⟨-, hn, hw⟩ := locate_inside hl
        have hdots : name ≠ ".." := by simpa using (Option.filter_eq_some_iff.mp hn).2
        refine .directoryMade ⟨(Path.names path).dropLast, name, ?_, hdots, ?_⟩ hlook
        · exact ⟨[], by rw [List.append_nil, ← Path.names_of_fileName? hn]⟩
        · rw [follow_concat, ← walk_eq_follow hw, toward_of_ne hdots]

theorem fill_within (P : Location → Prop) (v : Volume) (dir : Location) (names : List String) :
    Within P (OnWay dir names) v (v.fill dir names).2 := by
  induction names generalizing v dir with
  | nil => exact .refl _ _ v
  | cons name names ih =>
    unfold fill
    split
    · rename_i d he
      exact (ih v d).mono (fun _ => id) fun l hl => (enter_eq_toward he ▸ hl : OnWay (toward dir name) names l).cons
    · rename_i he
      unfold enter at he
      split at he
      · cases he
      rename_i hdots
      split at he
      · cases he
      split at he
      · rename_i hlook
        exact (Within.directoryMade (onWay_head hdots) hlook).trans
          ((ih _ _).mono (fun _ => id) fun l hl => (toward_of_ne hdots ▸ hl : OnWay (toward dir name) names l).cons)
      · cases he
      · cases he
    · exact .refl _ _ v
    · exact .refl _ _ v

/-- The directories that are made are those that the names call for. -/
theorem createDirectories_within (P : Location → Prop) (v : Volume) (path : String) :
    Within P (OnWay (v.start path) (Path.names path)) v (v.createDirectories path).2 := by
  have ensure : ∀ w : Volume, w.start path = v.start path →
      Within P (OnWay (v.start path) (Path.names path)) w (w.ensureDirectory path).2 := fun w hs => by
    rw [ensureDirectory_snd, ← hs]
    exact makeDirectory_within P w path
  unfold createDirectories
  split
  · exact .refl _ _ v
  split
  · rename_i w he
    have hw : Within P (OnWay (v.start path) (Path.names path)) v w := by simpa [he] using ensure v rfl
    have hf : Within P (OnWay (v.start path) (Path.names path)) w
      (w.fill (w.start path) (Path.names path).dropLast).2 :=
      (fill_within P w (w.start path) (Path.names path).dropLast).mono (fun _ => id) fun l hl =>
        (hw.start path ▸ hl : OnWay (v.start path) (Path.names path).dropLast l).longer (List.dropLast_prefix _)
    split
    · rename_i x hx
      rw [hx] at hf
      exact (hw.trans hf).trans (ensure x ((hf.start path).trans (hw.start path)))
    · exact hw.trans hf
  · exact ensure v rfl

end Directories

/-- Where a new staging file stands. -/
theorem createStaging_place {v w : Volume} {dir name : String} {h : Handle} (hs : '/' ∉ name.toList)
    (hc : v.createStaging dir name = (.ok h, w)) :
    ∃ n, h.location = follow (v.start dir) (Path.names dir) ++ [stagingName name n] := by
  have ha := absolute_stagingName name v.nextId
  unfold createStaging at hc
  dsimp only at hc
  split at hc
  · simp at hc
  · simp at hc
  · rename_i d staged _ hl
    obtain ⟨-, -, hw⟩ := locate_inside hl
    split at hc
    · simp at hc
    · simp only [Prod.mk.injEq, Except.ok.injEq] at hc
      obtain ⟨rfl, -⟩ := hc
      have hstart : v.start (Path.join dir (stagingName name v.nextId)) = v.start dir := by
        unfold Volume.start
        rw [Path.absolute_join ha]
      rw [hstart, Path.names_join ha, names_stagingName hs, List.dropLast_concat] at hw
      exact ⟨_, by rw [← walk_eq_follow hw]; rfl⟩

end Volume
end TreeReplica
