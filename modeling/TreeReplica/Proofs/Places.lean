import TreeReplica.Proofs.Holders
import TreeReplica.Proofs.Replication
import TreeReplica.Proofs.Volume.Passing

/-! The places of a tracked path: its file, its record, and the directories that lead there. They are known from the
    text alone (`Store.site`). All that is done for a path stays within them and within staging files
    (`Works`), one lemma for each operation. -/

namespace TreeReplica
open Volume

/-! ### Places from texts -/

namespace Path

/-- What is known of the text of a tracked path. -/
theorem names_of_resolve {root path file : String} (h : resolve root path = .ok file) :
    names file = names root ++ names path ∧ absolute file = absolute root ∧ ".." ∉ names path ∧
      ∃ name, fileName? path = some name ∧ fileName? file = some name ∧ reserved name = false := by
  obtain ⟨name, hname, hres⟩ := fileName?_of_resolve h
  unfold resolve at h
  split at h
  · cases h
  rename_i hf
  obtain ⟨ha, hdots, last, hlast, -⟩ := fault?_eq_none hf
  cases h
  have hnames : names (join root path) = names root ++ names path := names_join ha
  have hsame : last = name := by
    have h₁ := names_of_fileName? hlast
    have h₂ := (Option.filter_eq_some_iff.mp hname).1
    rw [hnames, h₁, ← List.append_assoc, List.getLast?_concat] at h₂
    exact Option.some.inj h₂
  exact ⟨hnames, absolute_join ha, hdots, name, hsame ▸ hlast, hname, hres⟩

end Path

/-- A place for staging files of the file at a site. -/
def Site.staging (σ : Site) (n : Nat) : Location := σ.dir ++ [stagingName σ.name n]

namespace Store
variable {s : Store} {v w : Volume} {p q path file : String} {σ : Site}

/-- The names of the directories that lead to a path. -/
def way (s : Store) (path : String) : List String := Path.names s.root ++ (Path.names path).dropLast

/-- Where a path has its file and its record once the directories that lead there are made. -/
def site (s : Store) (v : Volume) (path : String) : Site :=
  ⟨follow (v.start s.root) (s.way path), (Path.names path).getLast?.getD ""⟩

theorem site_congr (h : w.here = v.here) : s.site w path = s.site v path := by
  unfold site Volume.start
  rw [h]

theorem names_of_resolve (h : s.resolve path = .ok file) : (Path.names file).dropLast = s.way path ∧
    v.start file = v.start s.root := by
  obtain ⟨hn, ha, -, name, hname, -⟩ := Path.names_of_resolve h
  refine ⟨?_, by unfold Volume.start; rw [ha]⟩
  rw [hn, Path.names_of_fileName? hname, ← List.append_assoc, List.dropLast_concat]
  rfl

/-- Wherever a path leads, it leads to its site. -/
theorem Leads.eq_site (h : s.Leads v path σ) : σ = s.site v path := by
  obtain ⟨file, hr, hn, hw⟩ := h
  obtain ⟨hway, hstart⟩ := names_of_resolve (v := v) hr
  obtain ⟨-, -, -, name, hname, hfile, -⟩ := Path.names_of_resolve hr
  rw [hway, hstart] at hw
  have hlast : (Path.names path).getLast?.getD "" = σ.name := by
    rw [(Option.filter_eq_some_iff.mp hname).1, Option.getD_some]
    exact Option.some.inj (hfile.symm.trans hn)
  unfold site
  rw [hlast, ← walk_eq_follow hw]

/-- Below the root, names are the rest of the location. -/
theorem site_places (h : s.resolve path = .ok file) :
    (s.site v path).file = follow (v.start s.root) (Path.names s.root) ++ Path.names path ∧
      (s.site v path).record = follow (v.start s.root) (Path.names s.root) ++ Path.names (Path.sidecar path) := by
  obtain ⟨-, -, hdots, name, hname, -⟩ := Path.names_of_resolve h
  have hd : ".." ∉ (Path.names path).dropLast := fun hm => hdots ((List.dropLast_prefix _).subset hm)
  have hlast : (Path.names path).getLast?.getD "" = name := by
    rw [(Option.filter_eq_some_iff.mp hname).1, Option.getD_some]
  unfold site way Site.file Site.record
  rw [follow_append, follow_of_not_mem hd, hlast, Path.names_sidecar hname]
  exact ⟨by rw [List.append_assoc, ← Path.names_of_fileName? hname], by rw [List.append_assoc]⟩

theorem staging_places (h : s.resolve path = .ok file) (n : Nat) : (s.site v path).staging n =
    follow (v.start s.root) (Path.names s.root) ++
      ((Path.names path).dropLast ++ [stagingName (s.site v path).name n]) := by
  obtain ⟨-, -, hdots, -⟩ := Path.names_of_resolve h
  show follow (v.start s.root) (s.way path) ++ [_] = _
  unfold way
  rw [follow_append, follow_of_not_mem fun hm => hdots ((List.dropLast_prefix _).subset hm), List.append_assoc]

/-- The record of a path is no file of another one, no staging file of it, and not its record unless the names
    are the same. -/
theorem record_apart (hp : s.resolve p = .ok file) {file' : String} (hq : s.resolve q = .ok file') :
    (s.site v p).record ≠ (s.site v q).file ∧ (∀ n, (s.site v p).record ≠ (s.site v q).staging n) ∧
      (Path.names p ≠ Path.names q → (s.site v p).record ≠ (s.site v q).record) := by
  refine ⟨fun he => ?_, fun n he => Site.record_not_staging (s.site v p) ⟨_, _, n, he⟩, fun hne he => hne ?_⟩
  · obtain ⟨-, -, -, name, hname, -, hres⟩ := Path.names_of_resolve hq
    have hlast : (s.site v q).name = name := by
      unfold site
      rw [(Option.filter_eq_some_iff.mp hname).1, Option.getD_some]
    have hfree : ¬RecordPlace (s.site v q).file := by
      unfold Site.file
      rw [hlast]
      exact not_recordPlace hres
    exact hfree (he ▸ Site.recordPlace_record _)
  · have hsame : (s.site v p).file = (s.site v q).file := by rw [Site.record_injective he]
    rw [(site_places hp).1, (site_places hq).1] at hsame
    exact List.append_cancel_left hsame

/-- The way to the root does not lead up out of directories that are yet to be made. -/
def Rooted (s : Store) (v : Volume) : Prop :=
  ".." ∈ Path.names s.root → ∃ dir, v.walk (v.start s.root) (Path.names s.root) = .ok dir

/-- The directories that are made for a path have its names, or are above the root. -/
theorem prefix_of_onWay (hp : s.resolve p = .ok file) (hroot : s.Rooted v) {names : List String} (hne : names ≠ [])
    (h : OnWay (v.start s.root) (s.way p) (follow (v.start s.root) (Path.names s.root) ++ names)) :
    v.lookup (follow (v.start s.root) (Path.names s.root) ++ names) = some .directory ∨
    names <+: (Path.names p).dropLast := by
  obtain ⟨-, -, hdots, -⟩ := Path.names_of_resolve hp
  rcases onWay_append (fun hm => hdots ((List.dropLast_prefix _).subset hm)) h with hl | ⟨front, -, hf, he⟩
  · refine (lookup_or_above hroot hl).imp id fun hl => absurd hl.length_le ?_
    have := List.length_pos_iff.mpr hne
    rw [List.length_append]
    omega
  · rw [List.append_cancel_left he]
    exact Or.inr hf

/-- Asking for a lease makes directories on the way to the path, and no others. -/
theorem entered_within (s : Store) (path : String) (v : Volume) (P : Location → Prop) :
    Within P (OnWay (v.start s.root) (s.way path)) v (s.entered path v) := by
  unfold entered
  split
  · exact .refl P _ v
  rename_i file hr
  obtain ⟨hway, hstart⟩ := names_of_resolve (v := v) hr
  obtain ⟨-, -, -, name, -, hname, -⟩ := Path.names_of_resolve hr
  have h := createDirectories_within P v (Path.parent (Path.sidecar file))
  have hs : v.start (Path.parent (Path.sidecar file)) = v.start s.root := by
    rw [← hstart]
    unfold Volume.start
    rw [Path.absolute_parent, Path.absolute_sidecar hname]
  rwa [hs, Path.names_parent, Path.names_sidecar hname, List.dropLast_concat, hway] at h

end Store

/-! ### What is done for a path -/

/-- The places that are a path's own: its staging files, its record and its file. -/
def Owns (s : Store) (v : Volume) (q : String) (l : Location) : Prop :=
  (∃ n, l = (s.site v q).staging n) ∨ l = (s.site v q).record ∨ l = (s.site v q).file

/-- What was done stays within the places of a path and the directories that lead there. -/
def Works (s : Store) (q : String) (v w : Volume) : Prop :=
  Within (Owns s v q) (OnWay (v.start s.root) (s.way q)) v w

/-- A transfer that stages content for the file at a site. -/
def Transfer.Of (q : String) (σ : Site) (t : Transfer) : Prop := t.path = q ∧ ∃ n, t.staging.location = σ.staging n

/-- All transfers are of one path. -/
def Transfers.AllOf (q : String) (σ : Site) (ts : Transfers) : Prop := ∀ t ∈ ts.values, t.Of q σ

/-- The record of another path is none of a path's own places. -/
theorem not_owns_record {s : Store} {v : Volume} {p q pfile qfile : String} (hp : s.resolve p = .ok pfile)
    (hq : s.resolve q = .ok qfile) (hne : Path.names p ≠ Path.names q) : ¬Owns s v q (s.site v p).record := by
  obtain ⟨hfile, hstaging, hrecord⟩ := Store.record_apart (v := v) hp hq
  rintro (⟨n, he⟩ | he | he)
  · exact hstaging n he
  · exact hrecord hne he
  · exact hfile he

namespace Works
open Transfers
variable {s : Store} {u v w : Volume} {q file : String} {lease : Lease} {σ : Site} {t : Transfer}
  {ts : Transfers} {chunkSize : UInt32}

theorem refl (s : Store) (q : String) (v : Volume) : Works s q v v := Within.refl _ _ v

theorem trans (h₁ : Works s q u v) (h₂ : Works s q v w) : Works s q u w := by
  refine Within.trans h₁ (Within.mono h₂ (fun l hl => ?_) fun l hl => ?_)
  · unfold Owns at hl ⊢
    rwa [Store.site_congr h₁.here] at hl
  · rwa [Within.start h₁] at hl

theorem site (h : Works s q v w) : s.site w q = s.site v q := Store.site_congr h.here

theorem modify {h : Handle} (hP : Owns s v q h.location) (f : Content → Content) : Works s q v (v.modify h f) :=
  Within.modify hP f

theorem discard {h : Handle} (hP : Owns s v q h.location) : Works s q v (v.discard h) := Within.discard hP

theorem createDirectories {path : String} (hstart : v.start path = v.start s.root)
    (hn : Path.names path = s.way q) :
    Works s q v (v.createDirectories path).2 := by
  have h := createDirectories_within (Owns s v q) v path
  rwa [hstart, hn] at h

/-! #### Leases -/

theorem acquire {answer : Except Fault Lease} (ha : s.acquire q v = (answer, w)) : Works s q v w := by
  have h₁ : Works s q v (s.entered q v) := s.entered_within q v _
  have hk := s.entered_kept q v
  rcases s.acquire_entered q v with ⟨e, he⟩ | ⟨file, h, v₂, hr, ho, hgrant⟩
  · obtain rfl := (Prod.mk.inj (he.symm.trans ha)).2
    exact h₁
  obtain ⟨σ, content, o⟩ := Store.opened_of_ok hk hr ho
  have hP : h.location = (s.site v q).record := by
    rw [o.location, o.leads.eq_site, Store.site_congr o.kept.here]
  have h₂ : Works s q v v₂ := by
    obtain ⟨dir, last, -, -, hloc, ⟨_, -, rfl⟩ | ⟨hn, -, rfl⟩⟩ := openOrCreate_ok ho
    · exact h₁
    · refine h₁.trans (Within.create (Or.inr (Or.inl ?_)) (hloc ▸ concat_ne_nil) (by rw [hn]; simp))
      rw [hP, Store.site_congr h₁.here]
  have hP₂ : Owns s v₂ q h.location := Or.inr (Or.inl (by rw [hP, Store.site_congr h₂.here]))
  have hlock : Works s q v (v₂.lock h) := h₂.trans (Within.lock hP₂ (o.location ▸ o.file))
  have hmodify : ∀ f, Works s q (v₂.lock h) ((v₂.lock h).modify h f) :=
    fun f => modify (show Owns s (v₂.lock h) q _ from hP₂) f
  rcases hgrant with ⟨-, he⟩ | ⟨-, hg⟩
  · obtain rfl := (Prod.mk.inj (he.symm.trans ha)).2
    exact h₂
  · rw [ha] at hg
    cases answer with
    | error e =>
      obtain ⟨_, -, -, -, rfl⟩ := Store.grant_error hg.symm
      exact (hlock.trans (hmodify _)).trans (Within.unlock _ h)
    | ok lease =>
      obtain ⟨-, -, -, ⟨-, rfl, -⟩ | ⟨-, -, -, rfl⟩⟩ := Store.grant_ok hg.symm
      · exact hlock
      · exact hlock.trans (hmodify _)

theorem persist (l : Lease) (hl : l.handle.location = (s.site v q).record) : Works s q v (l.persist v).2 := by
  unfold Lease.persist
  split
  · exact .refl s q v
  · exact modify (Or.inr (Or.inl hl)) _

theorem release (l : Lease) (hl : l.handle.location = (s.site v q).record) : Works s q v (l.release v) :=
  (persist l hl).trans (Within.unlock _ _)

theorem granted (g : Granted s q v lease w σ) (h : Works s q w u) (r : Record) :
    Works s q w (Lease.release { lease with record := r } u) := by
  refine h.trans (release _ ?_)
  rw [Store.site_congr h.here, ← g.leads.eq_site]
  exact g.location

theorem withLease {α : Type} {body : Store.Body α}
    (hbody : ∀ {lease w σ}, Granted s q v lease w σ → Works s q w (body lease w).2.2) :
    Works s q v (s.withLease q body v).2 := by
  rcases s.withLease_cases q body v with ⟨e, w, ha, hw⟩ | ⟨lease, w, σ, answer, r, w₂, ha, g, hb, hw⟩ <;> rw [hw]
  · exact acquire ha
  · have h := hbody g
    rw [hb] at h
    exact (acquire ha).trans (granted g h r)

theorem withTracked {α : Type} {body : Store.Body α}
    (hbody : ∀ {lease w σ}, Granted s q v lease w σ → Works s q w (body lease w).2.2) :
    Works s q v (s.withTracked q body v).2 := by
  rcases s.withTracked_cases q body v with ⟨e, -, hw⟩ | hw | ⟨e, w, ha, hw⟩ |
    ⟨lease, w, σ, answer, r, w₂, ha, g, hb, hw⟩ <;>
    rw [hw]
  · exact .refl s q v
  · exact .refl s q v
  · exact acquire ha
  · have h := hbody g
    rw [hb] at h
    exact (acquire ha).trans (granted g h r)

/-! #### Transfers -/

theorem begin {notice : NewVersion} {p : Pull} (hq : notice.path = q) :
    Works s q v (Transfer.begin s notice p v).2 ∧
    ∀ t, (Transfer.begin s notice p v).1 = .ok t → t.Of q (s.site v q) := by
  subst hq
  unfold Transfer.begin
  split
  · exact ⟨.refl _ _ v, fun _ h => by cases h⟩
  rename_i file hr
  obtain ⟨hway, hstart⟩ := Store.names_of_resolve (v := v) hr
  have hdir : v.start (Path.parent file) = v.start s.root := by
    rw [← hstart]
    unfold Volume.start
    rw [Path.absolute_parent]
  have h₁ : Works s notice.path v (v.createDirectories (Path.parent file)).2 :=
    createDirectories hdir (by rw [Path.names_parent, hway])
  split
  · rename_i e v₁ hc
    rw [hc] at h₁
    exact ⟨h₁, fun _ h => by cases h⟩
  rename_i v₁ hc
  rw [hc] at h₁
  split
  · rename_i e v₂ hs
    rw [createStaging_error hs]
    exact ⟨h₁, fun _ h => by cases h⟩
  rename_i h v₂ hs
  obtain ⟨-, hfree, -, rfl⟩ := createStaging_ok hs
  obtain ⟨-, -, -, name, hname, hfile, -⟩ := Path.names_of_resolve hr
  have hplace : ∃ n, h.location = (s.site v notice.path).staging n := by
    rw [hfile] at hs
    obtain ⟨n, hn⟩ := createStaging_place (Path.slash_not_mem_of_mem_names (Path.mem_names_of_fileName? hfile)) hs
    refine ⟨n, ?_⟩
    rw [hn, Within.start h₁, hdir, Path.names_parent, hway]
    unfold Site.staging Store.site
    rw [(Option.filter_eq_some_iff.mp hname).1]
    rfl
  have hne : h.location ≠ [] := fun he => by simp [he] at hfree
  have hP : ∀ {w}, Works s notice.path v w → Owns s w notice.path h.location := fun hw => Or.inl (hw.site ▸ hplace)
  have h₂ : Works s notice.path v (v₁.create h.location).2 :=
    h₁.trans (Within.create (hP h₁) hne (by rw [hfree]; simp))
  rcases (v₁.create h.location).2.resize_cases h notice.size.toNat with ⟨e, hz⟩ | hz <;> rw [hz]
  · exact ⟨h₂.trans (discard (hP h₂)), fun _ h => by cases h⟩
  · exact ⟨h₂.trans (modify (hP h₂) _), fun t h => by cases h; exact ⟨rfl, hplace⟩⟩

theorem abandon (ht : t.Of q (s.site v q)) : Works s q v (t.abandon v) := discard (Or.inl ht.2)

theorem finish (ht : t.Of q (s.site v q)) (hr : s.resolve q = .ok file) (r : Record) :
    Works s q v (t.finish file r v).2.2 := by
  rcases t.finish_cases file r v with ⟨e, hf, -⟩ | ⟨r', replies, w, -, hm, hf⟩ <;> rw [hf]
  · exact abandon ht
  · refine Within.move hm (Or.inl ht.2) fun dir name hl => Or.inr (Or.inr ?_)
    rw [← (Store.leads_of_locate hr hl).eq_site]
    rfl

theorem pull (chunkSize : UInt32) {notice : NewVersion} (g : Granted s q v lease w σ) (hq : notice.path = q)
    (p : Pull) (r : Record) :
    Works s q w (s.pull chunkSize notice p lease.file r w).2.2 ∧
      ∀ replies t, (s.pull chunkSize notice p lease.file r w).1 = .ok (replies, some t) → t.Of q (s.site w q) := by
  obtain ⟨hbegin, hof⟩ := begin (s := s) (v := w) (p := p) hq
  unfold Store.pull
  rcases hb : Transfer.begin s notice p w with ⟨e | t, w₁⟩ <;> rw [hb] at hbegin hof
  · exact ⟨hbegin, fun _ _ h => by cases h⟩
  have ht := hof t rfl
  dsimp only
  split
  · have hf : Works s q w₁ (t.finish lease.file r w₁).2.2 := finish (hbegin.site ▸ ht) g.resolves r
    rcases hfin : t.finish lease.file r w₁ with ⟨e | replies, r', w₂⟩ <;> rw [hfin] at hf
    · exact ⟨hbegin.trans hf, fun _ _ h => by cases h⟩
    · exact ⟨hbegin.trans hf, fun _ _ h => by cases h⟩
  · refine ⟨hbegin, fun replies t' h => ?_⟩
    cases h
    obtain ⟨outstanding, ho⟩ := t.requests_snd chunkSize
    rw [ho]
    exact ht

theorem drop (hts : AllOf q (s.site v q) ts) (path : String) :
    Works s q v (ts.drop path v).2 ∧ AllOf q (s.site v q) (ts.drop path v).1 := by
  unfold Transfers.drop
  split
  · rename_i t ht
    exact ⟨abandon (hts t (Table.mem_values_of_get? ht)), fun t' h => hts t' (Table.mem_values_erase h)⟩
  · exact ⟨.refl s q v, hts⟩

theorem insert (hts : AllOf q σ ts) (ht : t.Of q σ) (path : String) :
    AllOf q σ (Table.insert ts path t) := fun t' h => by
  rcases Table.mem_values_insert h with rfl | h
  · exact ht
  · exact hts t' h

theorem abandonAll (hts : AllOf q (s.site v q) ts) : Works s q v (ts.abandonAll v) := by
  unfold AllOf at hts
  unfold Transfers.abandonAll
  generalize ts.values = all at hts
  induction all generalizing v with
  | nil => exact .refl s q v
  | cons t rest ih =>
    have h := abandon (hts t List.mem_cons_self)
    exact h.trans (ih fun t' h' => h.site ▸ hts t' (List.mem_cons_of_mem _ h'))

/-! #### Messages -/

theorem announced {notice : NewVersion} (hts : AllOf q (s.site v q) ts) (hq : notice.path = q) :
    Works s q v (s.announced chunkSize notice ts v).2.2 ∧
    AllOf q (s.site v q) (s.announced chunkSize notice ts v).2.1 := by
  subst hq
  unfold Store.announced
  dsimp only
  rcases s.withLease_cases notice.path _ v with ⟨e, w, ha, hw⟩ |
    ⟨lease, w, σ, answer, r, w₂, ha, g, hb, hw⟩ <;> rw [hw]
  · exact ⟨acquire ha, hts⟩
  have hbody : Works s notice.path w w₂ ∧ ∀ replies t, answer = .ok (replies, some t) →
      t.Of notice.path (s.site w notice.path) := by
    split at hb
    · cases hb
      exact ⟨.refl _ _ w, fun _ _ h => by cases h⟩
    · cases hb
      exact ⟨.refl _ _ w, fun _ _ h => by cases h⟩
    · cases hb
      exact ⟨.refl _ _ w, fun _ _ h => by cases h⟩
    · have hp := pull chunkSize g rfl (by assumption) (lease.record.announced notice)
      rw [hb] at hp
      exact hp
  have hw₂ := (acquire ha).trans (granted g hbody.1 r)
  rcases answer with e | ⟨replies, none | t⟩
  · exact ⟨hw₂, hts⟩
  · exact ⟨hw₂, hts⟩
  · obtain ⟨hd, hdrop⟩ := drop (s := s) (hw₂.site ▸ hts) t.path
    rw [hw₂.site] at hdrop
    exact ⟨hw₂.trans hd, insert hdrop ((acquire ha).site ▸ hbody.2 replies t rfl) t.path⟩

theorem serveChunk {request : ChunkRequest} (hq : request.path = q) :
    Works s q v (s.serveChunk chunkSize request v).2 := by
  subst hq
  unfold Store.serveChunk
  dsimp only
  split
  all_goals
    rename_i h
    have hw : Works s request.path v (s.withTracked request.path (fun lease v =>
        (Except.map (fun bytes => Message.fileChunk ⟨request.path, lease.record.client, request.offset, bytes⟩)
          (if request.client = lease.record.client then
            Store.readBytes v lease.file request.offset (min request.size chunkSize) else .ok []),
          lease.record, v)) v).2 := withTracked fun _ => .refl _ _ _
    rw [h] at hw
    exact hw

theorem install (ht : t.Of q (s.site v q)) : Works s q v (s.install t v).2 := by
  obtain ⟨rfl, hp⟩ := ht
  unfold Store.install
  split
  · rename_i e w ha
    have h := acquire ha
    exact h.trans (abandon ⟨rfl, h.site ▸ hp⟩)
  · rename_i lease w ha
    obtain ⟨σ, g⟩ := Store.acquire_ok ha
    obtain ⟨answer, r, w₂, hb, hd⟩ := Store.during_cases lease (fun lease v => t.finish lease.file lease.record v) w
    have h := acquire ha
    have hf : Works s t.path w (t.finish lease.file lease.record w).2.2 :=
      finish ⟨rfl, h.site ▸ hp⟩ g.resolves lease.record
    rw [show t.finish lease.file lease.record w = _ from hb] at hf
    rw [hd]
    exact h.trans (granted g hf r)

theorem receiveChunk {chunk : FileChunk} (hts : AllOf q (s.site v q) ts) :
    Works s q v (s.receiveChunk chunk ts v).2.2 ∧ AllOf q (s.site v q) (s.receiveChunk chunk ts v).2.1 := by
  rcases s.receiveChunk_cases chunk ts v with ⟨-, hw⟩ | ⟨t, ht, ⟨-, answer, hw, -⟩ |
    ⟨hf, hd, ⟨-, hw⟩ | ⟨-, answer, w, hi, hw⟩⟩⟩ <;> rw [hw]
  · exact ⟨.refl s q v, hts⟩
  · exact drop hts chunk.path
  all_goals
    have hof := hts t (Table.mem_values_of_get? ht)
    have hnote : (t.note chunk).2.Of q (s.site v q) :=
      ⟨(t.path_note chunk).trans hof.1, t.staging_note chunk ▸ hof.2⟩
    have hwrite : Works s q v (v.modify t.staging (·.write chunk.offset.toNat chunk.data)) :=
      modify (Or.inl hof.2) _
  · exact ⟨hwrite, insert hts hnote chunk.path⟩
  · have hinstall := install (hwrite.site.symm ▸ hnote)
    rw [hi] at hinstall
    exact ⟨hwrite.trans hinstall, fun t' h => hts t' (Table.mem_values_erase h)⟩

theorem committed {path : String} (hq : path = q) (c : Commit) : Works s q v (s.committed path c v).2 := by
  subst hq
  refine withLease fun {lease w σ} g => ?_
  split <;> exact .refl _ _ _

theorem report {path : String} (hq : path = q) (e : LocalEdit) : Works s q v (e.report s path v).2 := by
  subst hq
  exact withLease fun _ => .refl _ _ _

/-- A message about the path, or about none. -/
theorem handle {u : Setup} {session : Session} {m : Message} (hts : AllOf q (u.store.site v q) session.transfers)
    (hm : ∀ path, m.path? = some path → path = q) : Works u.store q v (session.handle u m v).2.2 ∧
      AllOf q (u.store.site v q) (session.handle u m v).2.1.transfers := by
  cases m with
  | newVersion notice => exact announced hts (hm _ rfl)
  | requestChunk request => exact ⟨serveChunk (hm _ rfl), hts⟩
  | fileChunk chunk => exact receiveChunk hts
  | commit path c => exact ⟨committed (hm _ rfl) c, hts⟩
  | nack nack => exact drop hts nack.path
  | subscribe path => exact ⟨.refl _ q v, session.transfers_subscribe u path ▸ hts⟩
  | _ => exact ⟨.refl _ q v, hts⟩

end Works

end TreeReplica
