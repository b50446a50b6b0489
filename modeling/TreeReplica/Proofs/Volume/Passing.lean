import TreeReplica.Proofs.Volume.Way

/-! When the directories of a text can be made. Making them is possible exactly where the way is passable: at each
    place on it is a directory, or nothing (`createDirectories_of_passable`, `walk_of_createDirectories`). More
    directories on the way are never in the way. -/

namespace TreeReplica
namespace Volume

/-- Nothing is in the way of directories for these names. -/
structure Passable (v : Volume) (dir : Location) (names : List String) : Prop where
  fits : ∀ name ∈ names, name ≠ ".." → name.utf8ByteSize ≤ maxName
  free : ∀ l, OnWay dir names l → v.lookup l = none ∨ v.lookup l = some .directory

namespace Passable
variable {v w : Volume} {dir e : Location} {name : String} {names front : List String}

theorem tail (h : v.Passable dir (name :: names)) : v.Passable (toward dir name) names :=
  ⟨fun n hn => h.fits n (List.mem_cons_of_mem _ hn), fun l hl => h.free l hl.cons⟩

theorem shorter (h : v.Passable dir names) (hf : front <+: names) : v.Passable dir front :=
  ⟨fun n hn => h.fits n (hf.subset hn), fun l hl => h.free l (hl.longer hf)⟩

/-- Directories where nothing was leave a way passable. -/
theorem filled (h : v.Passable dir names)
    (hw : ∀ l, OnWay dir names l → w.lookup l = v.lookup l ∨ w.lookup l = some .directory) : w.Passable dir names :=
  ⟨h.fits, fun l hl => (hw l hl).elim (fun he => he ▸ h.free l hl) Or.inr⟩

theorem enter (h : v.Passable dir (name :: names)) :
    v.enter dir name = .ok (toward dir name) ∨
      (name ≠ ".." ∧ v.enter dir name = .error .notFound ∧ v.lookup (dir ++ [name]) = none) := by
  unfold Volume.enter toward
  by_cases hdots : name = ".."
  · simp [hdots]
  · rcases h.free _ (onWay_head hdots) with hn | hd
    · simp [hdots, Nat.not_lt.mpr (h.fits name List.mem_cons_self hdots), hn]
    · simp [hdots, Nat.not_lt.mpr (h.fits name List.mem_cons_self hdots), hd]

theorem walk (h : v.Passable dir names) :
    (∃ e, v.walk dir names = .ok e) ∨ v.walk dir names = .error .notFound := by
  induction names generalizing dir with
  | nil => exact Or.inl ⟨dir, rfl⟩
  | cons name names ih =>
    unfold Volume.walk
    rcases h.enter with he | ⟨-, he, -⟩ <;> rw [he]
    · exact ih h.tail
    · exact Or.inr rfl

theorem fill (h : v.Passable dir names) : ∃ w e, v.fill dir names = (.ok (), w) ∧ w.walk dir names = .ok e := by
  induction names generalizing v dir with
  | nil => exact ⟨v, dir, rfl, rfl⟩
  | cons name names ih =>
    unfold Volume.fill Volume.walk
    rcases h.enter with he | ⟨hdots, he, hn⟩
    · obtain ⟨w, e, hf, hw⟩ := ih h.tail
      have hk := fill_kept (fun _ => False) v (toward dir name) names
      rw [hf] at hk
      rw [he]
      exact ⟨w, e, hf, by rw [enter_mono hk.directory he]; exact hw⟩
    · have hk := Kept.setEntry_directory (fun _ => False) hn
      have hlook : (v.setEntry (dir ++ [name]) .directory).lookup (dir ++ [name]) = some .directory := by
        rw [lookup_setEntry v concat_ne_nil, if_pos rfl]
      have hp : (v.setEntry (dir ++ [name]) .directory).Passable (dir ++ [name]) names :=
        (toward_of_ne hdots ▸ h.tail).filled fun l _ => (hk.same l id).imp id And.right
      obtain ⟨w, e, hf, hw⟩ := ih hp
      have hk' := fill_kept (fun _ => False) (v.setEntry (dir ++ [name]) .directory) (dir ++ [name]) names
      rw [hf] at hk'
      have henter : w.enter dir name = .ok (dir ++ [name]) := by
        unfold Volume.enter
        simp [hdots, Nat.not_lt.mpr (h.fits name List.mem_cons_self hdots), hk'.directory _ hlook]
      rw [he]
      exact ⟨w, e, hf, by rw [henter]; exact hw⟩

end Passable

section Making
variable {v w : Volume} {path : String} {dir : Location} {names : List String}

theorem size_of_walk {e : Location} (h : v.walk dir names = .ok e) :
    ∀ name ∈ names, name ≠ ".." → name.utf8ByteSize ≤ maxName := by
  induction names generalizing dir with
  | nil => exact List.forall_mem_nil _
  | cons name names ih =>
    unfold walk at h
    split at h
    · cases h
    rename_i d hd
    intro n hn hdots
    rcases List.mem_cons.mp hn with rfl | hn
    · obtain rfl := (enter_eq_toward hd).trans (toward_of_ne hdots)
      exact (lookup_of_enter hd hdots).1
    · exact ih h n hn hdots

/-- A way that can be walked later, with no more than directories made on it, is passable. -/
theorem passable_of_walk {e : Location} (hk : Kept (fun _ => False) v w) (h : w.walk dir names = .ok e) :
    v.Passable dir names := by
  refine ⟨size_of_walk h, fun l hl => ?_⟩
  rcases hk.same l id with hs | ⟨hn, -⟩
  · exact Or.inr (hs ▸ lookup_of_walk h hl)
  · exact Or.inl hn

theorem locate_of_plain (hp : Path.Plain path) (hbad : badText? path = none) :
    (Path.names path = [] ∧ v.locate path = .ok (.directory (v.start path))) ∨
      (∃ front, Path.names path = front ++ [".."] ∧
        v.locate path = (v.walk (v.start path) (front ++ [".."])).map .directory) ∨
      ∃ front name slash, Path.names path = front ++ [name] ∧ name ≠ ".." ∧
        v.locate path = (v.walk (v.start path) front).map (.inside · name slash) := by
  unfold locate
  rw [hbad]
  dsimp only
  cases hlast : ((Path.pieces path).filter (· ≠ "")).getLast? with
  | none =>
    have hn : Path.names path = [] := by
      rw [Path.names_eq, List.getLast?_eq_none_iff.mp hlast]
      rfl
    exact Or.inl ⟨hn, by rw [hn]; rfl⟩
  | some name =>
    dsimp only
    by_cases hdot : name = "."
    · subst hdot
      have hn := hp hlast
      exact Or.inl ⟨hn, by rw [hn]; rfl⟩
    · obtain ⟨front, hf⟩ := List.getLast?_eq_some_iff.mp hlast
      have hn : Path.names path = front.filter (· ≠ ".") ++ [name] := by
        rw [Path.names_eq, hf]
        simp [List.filter_append, hdot]
      by_cases hdots : name = ".."
      · subst hdots
        exact Or.inr (Or.inl ⟨_, hn, by rw [hn]; rfl⟩)
      · refine Or.inr (Or.inr ⟨_, name, (Path.pieces path).getLast? = some "", hn, hdots, ?_⟩)
        rw [hn, List.dropLast_concat, if_neg (by simp [hdot, hdots])]

/-- The directory of a passable text can be made where the one above it is there. -/
theorem ensureDirectory_of_passable (hp : Path.Plain path) (hbad : badText? path = none)
    (h : v.Passable (v.start path) (Path.names path))
    (hw : v.walk (v.start path) (Path.names path).dropLast = .ok dir) :
    ∃ w, v.ensureDirectory path = (.ok (), w) := by
  rcases h.walk with ⟨e, he⟩ | he
  · exact ⟨v, ensureDirectory_of_isDirectory (isDirectory_of_walk hbad he)⟩
  rcases locate_of_plain (v := v) hp hbad with ⟨hn, -⟩ | ⟨front, hn, -⟩ | ⟨front, name, slash, hn, hdots, hl⟩
  · rw [hn] at he
    cases he
  · rw [hn, List.dropLast_concat] at hw
    rw [hn, walk_append, hw] at he
    cases he
  · rw [hn, List.dropLast_concat] at hw
    rw [hn, walk_append, hw] at he
    have hsize := h.fits name (by simp [hn]) hdots
    have hlook : v.lookup (dir ++ [name]) = none := by
      refine (h.free _ ⟨front, name, hn ▸ List.prefix_rfl, hdots, ?_⟩).resolve_right fun hd => ?_
      · rw [follow_concat, ← walk_eq_follow hw, toward_of_ne hdots]
      · simp [walk, Volume.enter, hdots, Nat.not_lt.mpr hsize, hd] at he
    refine ⟨v.setEntry (dir ++ [name]) .directory, ?_⟩
    unfold ensureDirectory makeDirectory
    simp [hl, hw, Except.map, Nat.not_lt.mpr hsize, hlook]

/-- The directories of a passable text can be made. -/
theorem createDirectories_of_passable (hp : Path.Plain path) (hbad : badText? path = none)
    (h : v.Passable (v.start path) (Path.names path)) : ∃ w, v.createDirectories path = (.ok (), w) := by
  unfold createDirectories
  split
  · exact ⟨v, rfl⟩
  have hfront := h.shorter (List.dropLast_prefix (Path.names path))
  rcases hfront.walk with ⟨dir, hw⟩ | hw
  · obtain ⟨w, he⟩ := ensureDirectory_of_passable hp hbad h hw
    exact ⟨w, by rw [he]⟩
  · -- Something on the way is missing, and nothing else is the matter.
    have hl : v.locate path = .error .notFound := by
      rcases locate_of_plain (v := v) hp hbad with ⟨hn, -⟩ | ⟨front, hn, hl⟩ |
        ⟨front, name, slash, hn, hdots, hl⟩
      · rw [hn] at hw
        cases hw
      · rw [hn, List.dropLast_concat] at hw
        rw [hl, walk_append, hw]
        rfl
      · rw [hn, List.dropLast_concat] at hw
        rw [hl, hw]
        rfl
    have he : v.ensureDirectory path = (.error .notFound, v) := by
      unfold ensureDirectory makeDirectory isDirectory find
      simp [hl]
    obtain ⟨x, e, hf, hx⟩ := hfront.fill
    have hk := fill_kept (fun _ => False) v (v.start path) (Path.names path).dropLast
    rw [hf] at hk
    have hpx : x.Passable (x.start path) (Path.names path) := by
      rw [hk.start]
      exact h.filled fun l _ => (hk.same l id).imp id And.right
    obtain ⟨w, hw'⟩ := ensureDirectory_of_passable hp hbad hpx (hk.start path ▸ hx)
    rw [he]
    dsimp only
    rw [hf]
    exact ⟨w, hw'⟩

theorem walk_concat {front : List String} {name : String} (hw : v.walk dir front = .ok e)
    (hs : name.utf8ByteSize ≤ maxName) (hdots : name ≠ "..") (hl : v.lookup (e ++ [name]) = some .directory) :
    v.walk dir (front ++ [name]) = .ok (e ++ [name]) := by
  rw [walk_append, hw]
  simp [walk, enter, hdots, Nat.not_lt.mpr hs, hl]

theorem locate_directory {l : Location} (h : v.locate path = .ok (.directory l)) :
    badText? path = none ∧ v.walk (v.start path) (Path.names path) = .ok l := by
  unfold locate at h
  split at h
  · cases h
  rename_i hbad
  refine ⟨hbad, ?_⟩
  dsimp only at h
  split at h
  · split at h
    · cases hw : v.walk (v.start path) (Path.names path) <;> simp [hw, Except.map] at h
      rw [h]
    · cases hw : v.walk (v.start path) (Path.names path).dropLast <;> simp [hw, Except.map] at h
  · cases hw : v.walk (v.start path) (Path.names path) <;> simp [hw, Except.map] at h
    rw [h]

theorem walk_of_isDirectory (h : v.isDirectory path = true) :
    badText? path = none ∧ ∃ dir, v.walk (v.start path) (Path.names path) = .ok dir := by
  unfold isDirectory find at h
  cases hl : v.locate path with
  | error e => simp [hl] at h
  | ok spot =>
    cases spot with
    | directory l =>
      obtain ⟨hbad, hw⟩ := locate_directory hl
      exact ⟨hbad, l, hw⟩
    | inside dir name slash =>
      obtain ⟨hbad, hn, hw⟩ := locate_inside hl
      have hdots : name ≠ ".." := by simpa using (Option.filter_eq_some_iff.mp hn).2
      by_cases hs : name.utf8ByteSize > maxName
      · simp [hl, hs] at h
      cases hlook : v.lookup (dir ++ [name]) with
      | none => simp [hl, hs, hlook] at h
      | some entry =>
        cases entry with
        | file id content =>
          simp only [hl, hs, hlook, if_false] at h
          cases slash <;> simp at h
        | directory =>
          rw [Path.names_of_fileName? hn]
          exact ⟨hbad, _, walk_concat hw (Nat.not_lt.mp hs) hdots hlook⟩

theorem walk_of_ensureDirectory (h : v.ensureDirectory path = (.ok (), w)) :
    badText? path = none ∧ ∃ dir, w.walk (w.start path) (Path.names path) = .ok dir := by
  unfold ensureDirectory at h
  split at h
  · split at h
    · rename_i e v' hm hd
      cases h
      exact walk_of_isDirectory hd
    · cases h
  · unfold makeDirectory at h
    split at h
    · cases h
    · cases h
    · rename_i dir name slash hl
      split at h
      · cases h
      rename_i hs
      split at h
      · cases h
      rename_i hlook
      cases h
      obtain ⟨hbad, hn, hw⟩ := locate_inside hl
      have hdots : name ≠ ".." := by simpa using (Option.filter_eq_some_iff.mp hn).2
      have hk := Kept.setEntry_directory (fun _ => False) hlook
      rw [Path.names_of_fileName? hn, hk.start]
      refine ⟨hbad, _, walk_concat (hk.walk hw) (Nat.not_lt.mp hs) hdots ?_⟩
      rw [lookup_setEntry v concat_ne_nil, if_pos rfl]

/-- Directories that were made can be walked. -/
theorem walk_of_createDirectories (h : v.createDirectories path = (.ok (), w)) (hne : path ≠ "") :
    badText? path = none ∧ ∃ dir, w.walk (w.start path) (Path.names path) = .ok dir := by
  unfold createDirectories at h
  rw [if_neg hne] at h
  split at h
  · split at h
    · exact walk_of_ensureDirectory h
    · rename_i hno
      exact absurd h (by intro he; exact hno _ he)
  · exact walk_of_ensureDirectory h

/-- Directories of a passable text can be made, and walked then. -/
theorem createDirectories_walk (hp : Path.Plain path) (hbad : path ≠ "" → badText? path = none)
    (h : v.Passable (v.start path) (Path.names path)) :
    ∃ w dir, v.createDirectories path = (.ok (), w) ∧ w.walk (v.start path) (Path.names path) = .ok dir := by
  by_cases hne : path = ""
  · subst hne
    exact ⟨v, v.start "", by unfold createDirectories; rw [if_pos rfl],
      by rw [show Path.names "" = [] by decide]; rfl⟩
  · obtain ⟨w, hw⟩ := createDirectories_of_passable hp (hbad hne) h
    obtain ⟨-, dir, hdir⟩ := walk_of_createDirectories hw hne
    have hk : Kept (fun _ => False) v w := by simpa [hw] using createDirectories_kept (fun _ => False) v path
    exact ⟨w, dir, hw, hk.start path ▸ hdir⟩

end Making

end Volume
end TreeReplica
