import TreeReplica.Node
import TreeReplica.Proofs.Lease

/-! What a node comes to. Between the events of a node the users of its tree change their files, so a node and
    its volume go on in two ways (`Evolves`); a run is the case in which only events happen (`evolves_run`). -/

namespace TreeReplica
namespace Node
open Volume

/-- What a node and its volume come to: events of the allowed kind happen one after the other, and between them
    the files below the root change as their users please, but for records and staging files. -/
inductive Evolves (allowed : Event → Prop) (n : Node) (v : Volume) : Node → Volume → Prop
  | rest : Evolves allowed n v n v
  | event (e : Event) {m : Node} {w : Volume} (ha : allowed e) (h : Evolves allowed n v m w) :
    Evolves allowed n v (m.step e w).1 (m.step e w).2
  | use {m : Node} {w w' : Volume} (h : Evolves allowed n v m w)
    (kept : Kept (fun l => ¬RecordPlace l ∧ ¬StagingPlace l) w w') : Evolves allowed n v m w'

theorem evolves_run {allowed : Event → Prop} (es : List Event) (ha : ∀ e ∈ es, allowed e) (n : Node) (v : Volume) :
    Evolves allowed n v (n.run es v).1 (n.run es v).2 := by
  suffices h : ∀ m w, Evolves allowed n v m w → Evolves allowed n v (m.run es w).1 (m.run es w).2 from h n v .rest
  induction es with
  | nil => exact fun _ _ h => h
  | cons e es ih =>
    exact fun m w h => ih (fun e' he => ha e' (List.mem_cons_of_mem _ he)) _ _ (h.event e (ha e List.mem_cons_self))

/-! ### Files that are replaced -/

/-- The event puts a file with this content, and not the one that stood there, where the text of a path leads. -/
def Replaces (n : Node) (e : Event) (v : Volume) (path : String) (content : Content) : Prop :=
  ∃ file l id, n.setup.store.resolve path = .ok file ∧ (n.step e v).2.find file = .ok (l, .file id content) ∧
    v.lookup l ≠ some (.file id content)

/-- No file is replaced where only records and staging files are touched. -/
theorem not_replaces_of_kept {P : Location → Prop} {n : Node} {e : Event} {v : Volume}
    {path : String} {content : Content} (hk : Kept P v (n.step e v).2)
    (hP : ∀ l, P l → StagingPlace l ∨ RecordPlace l) : ¬n.Replaces e v path content := by
  rintro ⟨file, l, id, hr, hf, hne⟩
  obtain ⟨dir, name, hloc, rfl, hlook⟩ := find_file hf
  have hlead : n.setup.store.Leads (n.step e v).2 path ⟨dir, name⟩ := Store.leads_of_locate hr hloc
  refine hne (hk.file_back (fun hl => ?_) hlook)
  rcases hP _ hl with hp | hp
  · exact hlead.file_not_staging hp
  · exact hlead.file_not_record hp

theorem Replaces.content_eq {n : Node} {e : Event} {v : Volume} {path file : String} {l : Location} {id : Nat}
    {content content' : Content} (h : n.Replaces e v path content) (hr : n.setup.store.resolve path = .ok file)
    (hf : (n.step e v).2.find file = .ok (l, .file id content')) : content = content' := by
  obtain ⟨file', l', id', hr', hf', -⟩ := h
  cases hr.symm.trans hr'
  rw [hf] at hf'
  cases hf'
  rfl

end Node

/-- A message is refused where the peer has to authenticate first, or it is handled; then a failure that does
    not end the connection is told to the peer. -/
theorem Session.answer_cases (u : Setup) (m : Message) (s : Session) (v : Volume) :
    (gated u m s = true ∧ ∃ nack : Nack,
      nack.code ≠ .stale ∧ s.answer u m v = (.ok (.reply (.nack nack)), s, v)) ∨
      (gated u m s = false ∧ ∃ a s' w, s.handle u m v = (a, s', w) ∧
        ((∃ answer, a = .ok answer ∧ s.answer u m v = (.ok answer, s', w)) ∨
          ∃ e answer, a = .error e ∧ s.answer u m v = (answer, s', w) ∧
            (e.fatal = true ∧ answer = .error e ∨ e.fatal = false ∧ ∃ nack : Nack,
              (nack.code = .stale → ∃ why, e = .stale why) ∧ answer = .ok (.reply (.nack nack))))) := by
  unfold Session.answer
  dsimp only
  cases gated u m s with
  | true => exact Or.inl ⟨rfl, _, by simp [Nack.fitted], rfl⟩
  | false =>
    refine Or.inr ⟨rfl, ?_⟩
    rcases hh : s.handle u m v with ⟨a, s', w⟩
    refine ⟨a, s', w, rfl, ?_⟩
    cases a with
    | ok answer => exact Or.inl ⟨answer, rfl, rfl⟩
    | error e =>
      refine Or.inr ⟨e, _, rfl, rfl, ?_⟩
      split
      · rename_i hfatal
        exact Or.inl ⟨hfatal, rfl⟩
      · rename_i hfatal
        refine Or.inr ⟨by simpa using hfatal, _, fun hc => ?_, rfl⟩
        unfold Fault.nack Nack.fitted at hc
        dsimp only at hc
        split at hc
        · exact ⟨_, rfl⟩
        · cases hc
        · cases hc

theorem Session.replies_forward (u : Setup) (notice : NewVersion) (s : Session) :
    (s.forward u notice).replies = [] ∨ (s.forward u notice).replies = [.newVersion notice] := by
  unfold Session.forward
  split
  · exact Or.inl rfl
  · split
    · exact Or.inr rfl
    · exact Or.inl rfl

/-- What a message does to the volume, it does when it is handled. -/
theorem Node.step_message (n : Node) (name : String) (m : Message) (v : Volume) :
    (n.step (.message name m) v).2 = v ∨
      (n.step (.message name m) v).2 = ((n.session name).handle n.setup m v).2.2 := by
  show ((n.session name).answer n.setup m v).2.2 = v ∨ ((n.session name).answer n.setup m v).2.2 = _
  rcases Session.answer_cases n.setup m (n.session name) v with ⟨-, nack, -, h⟩ |
    ⟨-, a, s', w, hh, ⟨answer, -, h⟩ | ⟨e, answer, -, h, -⟩⟩ <;> rw [h]
  · exact Or.inl rfl
  · exact Or.inr (by rw [hh])
  · exact Or.inr (by rw [hh])

end TreeReplica
