import TreeReplica.Proofs.Volume.Numbered

/-! Holders of leases on one volume. They take leases, change the records under them, write them back and let
    them go, in any order (`Holders.run`). What happened to a record is one lease after the other if each
    begins with the record that the one before it ended with (`Serial`); then no change of it is lost
    (`Serial.composes`). -/

namespace TreeReplica
open Volume

/-! ### Holders -/

/-- Work on other files than records, as a body does that puts content in place. -/
structure Work where
  run : Volume → Volume
  kept : ∀ v, Kept (fun l => ¬RecordPlace l) v (run v)
  numbered : ∀ v, v.Numbered → (run v).Numbered

/-- What happens to one record. -/
inductive Happening
  /-- A lease began, with this record. -/
  | began (holder : String) (r : Record)
  | changed (holder : String) (f : Record → Record)
  /-- A lease ended, with this record. -/
  | ended (holder : String) (r : Record)

/-- A volume with the leases that are held on it. -/
structure Holders where
  volume : Volume
  /-- The leases by their holders. -/
  leases : Table String Lease
  /-- What happened to records so far, with the places of their files. -/
  log : List (Location × Happening)

namespace Holders

inductive Step
  | acquire (holder path : String)
  | acquireTracked (holder path : String)
  | change (holder : String) (f : Record → Record)
  | persist (holder : String)
  /-- A lease ends, by itself or because its holder goes. -/
  | release (holder : String)
  | work (work : Work)

/-- Whose step it is. -/
def Step.holder? : Step → Option String
  | .acquire n _ | .acquireTracked n _ | .change n _ | .persist n | .release n => some n
  | .work _ => none

/-- The outcome of asking for a lease. -/
def take (h : Holders) (n : String) : Except Fault (Option Lease) × Volume → Holders
  | (.ok (some lease), v) => ⟨v, h.leases.insert n lease, h.log ++ [(lease.handle.location, .began n lease.record)]⟩
  | (_, v) => { h with volume := v }

/-- One step. Who holds a lease asks for no other one, and who holds none has nothing to change or to end. -/
def step (s : Store) (h : Holders) (st : Step) : Holders :=
  match st with
  | .acquire n path =>
    match h.leases.get? n with
    | some _ => h
    | none =>
      let (answer, v) := s.acquire path h.volume
      h.take n (answer.map some, v)
  | .acquireTracked n path =>
    match h.leases.get? n with
    | some _ => h
    | none => h.take n (s.acquireTracked path h.volume)
  | .change n f =>
    match h.leases.get? n with
    | none => h
    | some l =>
      { h with
        leases := h.leases.insert n { l with record := f l.record }
        log := h.log ++ [(l.handle.location, .changed n f)] }
  | .persist n =>
    match h.leases.get? n with
    | none => h
    | some l =>
      let (l, v) := l.persist h.volume
      { h with volume := v, leases := h.leases.insert n l }
  | .release n =>
    match h.leases.get? n with
    | none => h
    | some l => ⟨l.release h.volume, h.leases.erase n, h.log ++ [(l.handle.location, .ended n l.record)]⟩
  | .work work => { h with volume := work.run h.volume }

def run (s : Store) (steps : List Step) (h : Holders) : Holders := steps.foldl (step s) h

/-- Nobody holds a lease. -/
def start (v : Volume) : Holders := ⟨v, .empty, []⟩

/-- What happened to the record at a place. -/
def logAt (h : Holders) (l : Location) : List Happening := (h.log.filter (·.1 = l)).map (·.2)

end Holders

/-! ### One lease after the other -/

/-- The leases on one record that was `first`: what happened to it, who holds it, and what it is by now. -/
inductive Serial (first : Record) : List Happening → Option String → Record → Prop
  | start : Serial first [] none first
  | began {log : List Happening} {r : Record} (n : String) (before : Serial first log none r) :
      Serial first (log ++ [.began n r]) (some n) r
  | changed {log : List Happening} {n : String} {r : Record} (f : Record → Record)
    (before : Serial first log (some n) r) :
      Serial first (log ++ [.changed n f]) (some n) (f r)
  | ended {log : List Happening} {n : String} {r : Record} (before : Serial first log (some n) r) :
      Serial first (log ++ [.ended n r]) none r

namespace Serial
variable {first r r' : Record} {log front back : List Happening} {who : Option String} {m n : String} {r₁ : Record}

/-- The changes of a record, in the order in which they were made. -/
def changes (log : List Happening) : List (Record → Record) :=
  log.filterMap fun
    | .changed _ f => some f
    | _ => none

/-- No change is lost: the record is what all of them make of the first one. -/
theorem composes (h : Serial first log who r) : r = (changes log).foldl (fun r f => f r) first := by
  induction h with
  | start => rfl
  | began n _ ih => simpa [changes] using ih
  | changed f _ ih => simpa [changes] using congrArg f ih
  | ended _ ih => simpa [changes] using ih

theorem before_last {α : Type} {log front back : List α} {last a : α} (h : log ++ [last] = front ++ a :: back) :
    (log = front ∧ last = a) ∨ ∃ back', log = front ++ a :: back' := by
  rcases List.eq_nil_or_concat back with rfl | ⟨back', b, rfl⟩
  · obtain ⟨rfl, hl⟩ := List.append_inj' h rfl
    exact Or.inl ⟨rfl, (List.cons.inj hl).1⟩
  · rw [List.concat_eq_append, ← List.cons_append, ← List.append_assoc] at h
    exact Or.inr ⟨back', (List.append_inj' h rfl).1⟩

/-- A lease begins where nobody holds the record, with the record as it is then. -/
theorem before_began (h : Serial first log who r) (hlog : log = front ++ .began n r' :: back) :
    Serial first front none r' := by
  induction h generalizing back with
  | start => simp at hlog
  | began n before ih =>
    rcases before_last hlog with ⟨rfl, he⟩ | ⟨back', he⟩
    · cases he
      exact before
    · exact ih he
  | changed f before ih =>
    rcases before_last hlog with ⟨-, he⟩ | ⟨back', he⟩
    · cases he
    · exact ih he
  | ended before ih =>
    rcases before_last hlog with ⟨-, he⟩ | ⟨back', he⟩
    · cases he
    · exact ih he

theorem of_ended (h : Serial first log who r) (hlog : log = front ++ [.ended m r']) : r = r' := by
  cases h with
  | start => simp at hlog
  | began _ _ => cases (List.append_inj' hlog rfl).2
  | changed _ _ => cases (List.append_inj' hlog rfl).2
  | ended _ =>
    cases (List.append_inj' hlog rfl).2
    rfl

/-- The record is handed on as it is. -/
theorem handed_on (h : Serial first (front ++ .ended m r :: .began n r' :: back) who r₁) : r' = r := by
  have hlog : front ++ .ended m r :: .began n r' :: back = (front ++ [.ended m r]) ++ .began n r' :: back := by simp
  exact (h.before_began hlog).of_ended rfl

end Serial

end TreeReplica
