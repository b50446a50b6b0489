import TreeReplica.Proofs.History.Seen

/-! A run of one node with its history (`Passes`). What each event preserves of a record, with all that is
    seen of it, holds of the whole run (`Passes.invariant`), and what an event leaves for good ties it to all
    later ones (`Passes.pairwise`). -/

namespace TreeReplica
open Volume

/-! ### What lasts -/

section Lasts
variable {s : Store} {u v w : Volume} {ts : Transfers} {P : Location → Prop} {path : String} {τ : Site}
  {fresh : Bool} {r r' : Record}

/-- Whatever changes, directories stay, so paths lead where they led. -/
abbrev Volume.Grows (v w : Volume) : Prop := Kept (fun _ => True) v w

/-- Paths lead where they led, and what was recorded is recorded. -/
structure Volume.Lasts (v w : Volume) : Prop where
  grows : v.Grows w
  recorded : ∀ σ : Site, (v.record? σ).isSome → (w.record? σ).isSome

theorem Volume.Kept.grows (h : Kept P v w) : v.Grows w := h.mono fun _ _ => trivial

theorem Volume.Lasts.refl (v : Volume) : v.Lasts v := ⟨.refl _ v, fun _ => id⟩

theorem Volume.Lasts.trans (h₁ : u.Lasts v) (h₂ : v.Lasts w) : u.Lasts w :=
  ⟨h₁.grows.trans h₂.grows, fun σ h => h₂.recorded σ (h₁.recorded σ h)⟩

theorem Volume.Kept.lasts (h : Kept P v w) (hP : ∀ σ : Site, P σ.record → v.record? σ = none) : v.Lasts w := by
  refine ⟨h.grows, fun σ hσ => ?_⟩
  rwa [h.record? fun hp => by rw [hP σ hp] at hσ; cases hσ]

theorem Volume.Kept.lasts_staging (h : Kept StagingPlace v w) : v.Lasts w :=
  h.lasts fun σ hp => absurd hp σ.record_not_staging

theorem Leased.lasts (h : Leased s path P v w τ fresh r r')
    (hP : ∀ l, P l → StagingPlace l ∨ l = τ.file) : v.Lasts w := by
  refine ⟨h.kept.grows, fun σ hσ => ?_⟩
  by_cases he : σ = τ
  · rw [he, h.after]
    rfl
  rwa [h.kept.record? fun hl => ?_]
  rcases hl with hp | hl
  · rcases hP _ hp with hp | hl
    · exact σ.record_not_staging hp
    · exact h.leads.file_not_record (hl ▸ σ.recordPlace_record)
  · exact he (Site.record_injective hl)

theorem acquire_error_lasts {e : Fault} (ha : s.acquire path v = (.error e, w)) : v.Lasts w :=
  (Store.acquire_error_kept ha).lasts fun _ ⟨_, hl, hnone⟩ => Site.record_injective hl ▸ hnone

theorem report_lasts (e : LocalEdit) (s : Store) (path : String) (v : Volume) : v.Lasts (e.report s path v).2 := by
  rcases e.report_cases s path v with ⟨err, w, ha, hw⟩ | ⟨σ, fresh, r, w, file, -, hl, hw⟩ <;> rw [hw]
  · exact acquire_error_lasts ha
  · exact hl.lasts fun _ => False.elim

theorem announced_lasts (s : Store) (chunkSize : UInt32) (notice : NewVersion) (hts : ts.Staged) (v : Volume) :
    v.Lasts (s.announced chunkSize notice ts v).2.2 := by
  rcases s.announced_cases chunkSize notice ts v with ⟨e, w, ha, hw⟩ | ⟨σ, fresh, r, w, ⟨answer, hw, -, hl⟩ |
    ⟨p, t, -, -, hw, hl, began, -⟩ | ⟨p, t, r', replies, file, content, -, -, hw, -, -, -, -, hl, -⟩⟩ <;> rw [hw]
  · exact acquire_error_lasts ha
  · exact hl.lasts fun _ hu => Or.inl hu.1
  · exact (hl.lasts fun _ hu => Or.inl hu.1).trans (hts.add (began.requests chunkSize).unused.1 w).2.lasts_staging
  · exact hl.lasts fun _ hu => hu.imp (·.1) id

theorem receiveChunk_lasts (s : Store) (chunk : FileChunk) (hts : ts.Staged) (v : Volume) :
    v.Lasts (s.receiveChunk chunk ts v).2.2 := by
  rcases s.receiveChunk_cases chunk ts v with ⟨-, hw⟩ |
    ⟨t, ht, ⟨-, answer, hw, -⟩ | ⟨-, -, ⟨-, hw⟩ | ⟨-, answer, w, hi, hw⟩⟩⟩ <;>
    rw [hw]
  · exact .refl v
  · exact (hts.drop chunk.path v).2.lasts_staging
  · exact (modify_staging v (hts.of_get? ht) _).lasts_staging
  · have hplace : StagingPlace (t.note chunk).2.staging.location := t.staging_note chunk ▸ hts.of_get? ht
    refine (modify_staging v (hts.of_get? ht) (·.write chunk.offset.toNat chunk.data)).lasts_staging.trans ?_
    rcases s.install_cases (t.note chunk).2 _ hplace with ⟨e, w', ha, hw'⟩ | ⟨σ, fresh, r, w', ⟨e, hw', hl, -⟩ |
      ⟨r', replies, file, content, hw', -, hl, -⟩⟩ <;> rw [hi] at hw' <;> cases hw'
    · exact (acquire_error_lasts ha).trans (discard_staging w' hplace).lasts_staging
    · exact hl.lasts fun _ he => Or.inl (he ▸ hplace)
    · exact hl.lasts fun l hu => hu.imp (fun (he : l = (t.note chunk).2.staging.location) => he ▸ hplace) id

theorem handle_lasts {session : Session} (hts : session.transfers.Staged) (u : Setup) (m : Message) (v : Volume) :
    v.Lasts (session.handle u m v).2.2 := by
  cases m with
  | newVersion notice => exact announced_lasts u.store u.config.chunkSize notice hts v
  | fileChunk chunk => exact receiveChunk_lasts u.store chunk hts v
  | nack nack => exact (hts.drop nack.path v).2.lasts_staging
  | requestChunk request =>
    show v.Lasts (u.store.serveChunk u.config.chunkSize request v).2
    rcases u.store.serveChunk_cases u.config.chunkSize request v with ⟨e, hw⟩ | ⟨e, w, ha, hw⟩ |
      ⟨σ, fresh, r, w, answer, hw, hl, -⟩ <;> rw [hw]
    · exact .refl v
    · exact acquire_error_lasts ha
    · exact hl.lasts fun _ => False.elim
  | commit path c =>
    show v.Lasts (u.store.committed path c v).2
    rcases u.store.committed_cases path c v with ⟨e, w, ha, hw⟩ |
      ⟨σ, fresh, r, w, ⟨why, -, hl, hw⟩ | ⟨r', -, hl, hw⟩⟩ <;> rw [hw]
    · exact acquire_error_lasts ha
    · exact hl.lasts fun _ => False.elim
    · exact hl.lasts fun _ => False.elim
  | _ => exact .refl v

theorem Moment.lasts {x : Moment} (ho : x.node.Orderly x.volume) : x.volume.Lasts x.after := by
  unfold Moment.after
  cases x.event with
  | edit e path => exact report_lasts e x.store path x.volume
  | message name m =>
    rcases x.node.step_message name m x.volume with h | h <;> rw [h]
    · exact .refl _
    · exact handle_lasts ((ho.held name).staged (ho.distinct name)) x.node.setup m x.volume
  | close name => exact (((ho.held name).staged (ho.distinct name)).abandonAll x.volume).lasts_staging

theorem Moment.grows {x : Moment} (ho : x.node.Orderly x.volume) : x.volume.Grows x.after := (lasts ho).grows

end Lasts

/-! ### Runs -/

/-- What a node and its volume come to, with all events on the way. Between them the files below the root
    change as their users please, but for records and staging files. -/
inductive Passes (n : Node) (v : Volume) : List Moment → Node → Volume → Prop
  | rest : Passes n v [] n v
  | event {h : List Moment} {m : Node} {w : Volume} (e : Node.Event) (run : Passes n v h m w) :
    Passes n v (h ++ [⟨m, e, w⟩]) (m.step e w).1 (m.step e w).2
  | use {h : List Moment} {m : Node} {w w' : Volume} (run : Passes n v h m w)
    (kept : Kept (fun l => ¬RecordPlace l ∧ ¬StagingPlace l) w w') : Passes n v h m w'

namespace Passes
variable {u : Setup} {n m o : Node} {v w z : Volume} {h h' : List Moment} {e : Node.Event} {σ : Site}

theorem trans (run : Passes n v h m w) (later : Passes m w h' o z) : Passes n v (h ++ h') o z := by
  induction later with
  | rest => rwa [List.append_nil]
  | event e _ ih =>
    rw [← List.append_assoc]
    exact ih.event e
  | use _ kept ih => exact ih.use kept

theorem orderly (run : Passes n v h m w) (start : n.Orderly v) :
    m.Orderly w ∧ ∀ x ∈ h, x.node.Orderly x.volume := by
  induction run with
  | rest => exact ⟨start, fun _ hx => by cases hx⟩
  | event e _ ih =>
    refine ⟨ih.1.event e, fun x hx => ?_⟩
    rcases List.mem_append.mp hx with hx | hx
    · exact ih.2 x hx
    · rw [List.mem_singleton.mp hx]
      exact ih.1
  | use _ kept ih => exact ⟨ih.1.use kept, ih.2⟩

theorem use_recordAt (kept : Kept (fun l => ¬RecordPlace l ∧ ¬StagingPlace l) v w) (σ : Site) :
    w.recordAt σ = v.recordAt σ :=
  kept.recordAt fun hl => hl.1 σ.recordPlace_record

theorem setup (run : Passes n v h m w) : m.setup = n.setup ∧ ∀ x ∈ h, x.store = n.setup.store := by
  induction run with
  | rest => exact ⟨rfl, fun _ hx => by cases hx⟩
  | @event h m w e _ ih =>
    refine ⟨?_, fun x hx => ?_⟩
    · cases e <;> exact ih.1
    · rcases List.mem_append.mp hx with hx | hx
      · exact ih.2 x hx
      · rw [List.mem_singleton.mp hx]
        exact congrArg Setup.store ih.1
  | use _ _ ih => exact ih

/-- What every event preserves of the record at a site, and all that is seen of it, holds of the whole run. -/
theorem invariant {I : List Moment → Record → Prop} (run : Passes n v h m w) (start : n.Orderly v)
    (first : I [] (v.recordAt σ)) (step : ∀ h x r r',
      I h r → x.volume.recordAt σ = r → x.after.recordAt σ = r' → x.Does σ r r' → I (h ++ [x]) r') :
    I h (w.recordAt σ) := by
  induction run with
  | rest => exact first
  | event e run ih => exact step _ ⟨_, e, _⟩ _ _ ih rfl rfl (Moment.does (run.orderly start).1 σ)
  | use run kept ih => rwa [use_recordAt kept]

/-- What holds after an event, and is kept by all that follows, ties every event to the later ones. -/
theorem pairwise {B : Moment → Volume → Prop} (run : Passes n v h m w) (after : ∀ x ∈ h, B x x.after)
    (event : ∀ x, ∀ y ∈ h, B x y.volume → B x y.after)
    (use : ∀ x w w', Kept (fun l => ¬RecordPlace l ∧ ¬StagingPlace l) w w' → B x w → B x w') :
    (∀ x ∈ h, B x w) ∧ h.Pairwise fun x y => B x y.volume := by
  induction run with
  | rest => exact ⟨fun _ hx => (by cases hx), .nil⟩
  | @event h m w e _ ih =>
    have hlast : (⟨m, e, w⟩ : Moment) ∈ h ++ [⟨m, e, w⟩] := List.mem_append_right _ List.mem_cons_self
    obtain ⟨hall, hpairs⟩ :=
      ih (fun x hx => after x (List.mem_append_left _ hx)) fun x y hy => event x y (List.mem_append_left _ hy)
    refine ⟨fun x hx => ?_, List.pairwise_append.mpr ⟨hpairs, List.pairwise_singleton _ _, fun x hx y hy => ?_⟩⟩
    · rcases List.mem_append.mp hx with hx | hx
      · exact event x _ hlast (hall x hx)
      · rw [List.mem_singleton.mp hx]
        exact after _ hlast
    · rw [List.mem_singleton.mp hy]
      exact hall x hx
  | use _ kept ih =>
    obtain ⟨hall, hpairs⟩ := ih after event
    exact ⟨fun x hx => use x _ _ kept (hall x hx), hpairs⟩

end Passes

/-! ### Runs of events alone -/

namespace Node

def moments : List Event → Node → Volume → List Moment
  | [], _, _ => []
  | e :: es, n, v =>
    let (m, w) := n.step e v
    ⟨n, e, v⟩ :: moments es m w

theorem passes_run (es : List Event) (n : Node) (v : Volume) :
    Passes n v (moments es n v) (n.run es v).1 (n.run es v).2 := by
  induction es generalizing n v with
  | nil => exact .rest
  | cons e es ih => exact (Passes.rest.event e).trans (ih _ _)

end Node
end TreeReplica
