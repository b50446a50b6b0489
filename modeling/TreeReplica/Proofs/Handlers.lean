import Mathlib.Data.List.Perm.Basic
import Mathlib.Data.List.Range
import TreeReplica.Server.Handlers
import TreeReplica.Proofs.Table

/-! The handlers of a server over all that borrowers do with them. Every handler is free or out, never both
    and never twice, and its flag says which (`Handlers.Accounted`); each way in which a handler changes hands
    keeps that. -/

namespace TreeReplica
namespace Handlers

/-- Where the handlers are: `out` are those that are not free, and `taken` are the numbers of those that were
    taken so far, in order. -/
structure Accounted (taken : List Nat) (out : List Handler) (hs : Handlers) : Prop where
  ids : (hs.free.map (·.id) ++ out.map (·.id)).Perm (List.range hs.capacity)
  flags : hs.inUse.length = hs.capacity
  isFree : ∀ h ∈ hs.free, hs.inUse[h.id]? = some false
  isOut : ∀ h ∈ out, hs.inUse[h.id]? = some true
  clean : ∀ h ∈ hs.free, h.buffer = []
  served : ∀ h ∈ hs.free ++ out, h.served = .ofNat (taken.count h.id)
  rightly : hs.misuse = none

variable {taken : List Nat} {out rest : List Handler} {hs : Handlers} {h : Handler} {name : String}

theorem accounted_new (capacity : Nat) : Accounted [] [] (new capacity) where
  ids := by simp [new, Function.comp_def]
  flags := List.length_replicate
  isFree h hm := by
    obtain ⟨id, hid, rfl⟩ := List.mem_map.mp hm
    exact List.getElem?_replicate.trans (if_pos (List.mem_range.mp hid))
  isOut h hm := by cases hm
  clean h hm := by
    obtain ⟨id, -, rfl⟩ := List.mem_map.mp hm
    rfl
  served h hm := by
    rw [List.append_nil] at hm
    obtain ⟨id, -, rfl⟩ := List.mem_map.mp hm
    rfl
  rightly := rfl

section Accounts
variable (A : Accounted taken out hs)
include A

theorem Accounted.nodup : (hs.free.map (·.id) ++ out.map (·.id)).Nodup := A.ids.nodup_iff.mpr List.nodup_range

theorem Accounted.length_add : hs.free.length + out.length = hs.capacity := by
  have := A.ids.length_eq
  rwa [List.length_append, List.length_map, List.length_map, List.length_range] at this

/-- Only which handlers are out counts, and their numbers. -/
theorem Accounted.congr (hp : (rest.map fun h => (h.id, h.served)).Perm (out.map fun h => (h.id, h.served)))
    {hs' : Handlers} (capacity : hs'.capacity = hs.capacity) (free : hs'.free = hs.free)
    (inUse : hs'.inUse = hs.inUse) (misuse : hs'.misuse = hs.misuse) : Accounted taken rest hs' := by
  have same : ∀ h ∈ rest, ∃ h' ∈ out, h'.id = h.id ∧ h'.served = h.served := by
    intro h hm
    obtain ⟨h', hm', he⟩ :=
      List.mem_map.mp (hp.mem_iff.mp (List.mem_map_of_mem (f := fun h => (h.id, h.served)) hm))
    exact ⟨h', hm', (Prod.mk.inj he).1, (Prod.mk.inj he).2⟩
  have ids : (rest.map (·.id)).Perm (out.map (·.id)) := by simpa [Function.comp_def] using hp.map Prod.fst
  constructor
  · rw [free, capacity]
    exact (ids.append_left _).trans A.ids
  · rw [inUse, capacity]
    exact A.flags
  · rw [free, inUse]
    exact A.isFree
  · intro h hm
    obtain ⟨h', hm', hid, -⟩ := same h hm
    rw [inUse, ← hid]
    exact A.isOut h' hm'
  · rw [free]
    exact A.clean
  · intro h hm
    rw [free] at hm
    rcases List.mem_append.mp hm with hm | hm
    · exact A.served h (List.mem_append_left _ hm)
    · obtain ⟨h', hm', hid, hserved⟩ := same h hm
      rw [← hid, ← hserved]
      exact A.served h' (List.mem_append_right _ hm')
  · exact misuse.trans A.rightly

/-- The flags as a whole: set for the handlers that are out, and for no others. -/
theorem Accounted.inUse_eq : hs.inUse = (List.range hs.capacity).map fun id => decide (id ∈ out.map (·.id)) := by
  refine List.ext_getElem (by rw [List.length_map, List.length_range, A.flags]) fun id hid hid' => ?_
  rw [List.getElem_map, List.getElem_range]
  have hmem : id ∈ hs.free.map (·.id) ++ out.map (·.id) := A.ids.mem_iff.mpr (List.mem_range.mpr (A.flags ▸ hid))
  rcases List.mem_append.mp hmem with hm | hm
  · have notOut : id ∉ out.map (·.id) := fun hout => (List.nodup_append.mp A.nodup).2.2 id hm id hout rfl
    obtain ⟨h, hfree, rfl⟩ := List.mem_map.mp hm
    rw [decide_eq_false notOut]
    exact (List.getElem?_eq_some_iff.mp (A.isFree h hfree)).2
  · rw [decide_eq_true hm]
    obtain ⟨h, hout, rfl⟩ := List.mem_map.mp hm
    exact (List.getElem?_eq_some_iff.mp (A.isOut h hout)).2

/-! ### Changing hands -/

/-- No handler is free, or one is taken whose flag was not set. -/
theorem Accounted.checkOut : (hs.free = [] ∧ hs.checkOut = (none, hs)) ∨
    ∃ h hs', hs.checkOut = (some h, hs') ∧ h.buffer = [] ∧ hs'.lent = hs.lent ∧ hs'.capacity = hs.capacity ∧
      Accounted (taken ++ [h.id]) (h :: out) hs' := by
  unfold Handlers.checkOut
  cases hf : hs.free with
  | nil => exact Or.inl ⟨rfl, rfl⟩
  | cons h free =>
    have hflag : hs.inUse[h.id]? = some false := A.isFree h (by rw [hf]; exact List.mem_cons_self)
    have hlt : h.id < hs.inUse.length := (List.getElem?_eq_some_iff.mp hflag).1
    have hnodup : (h.id :: (free.map (·.id) ++ out.map (·.id))).Nodup := by
      have := A.nodup
      rwa [hf, List.map_cons, List.cons_append] at this
    have others : ∀ h' ∈ free ++ out, h'.id ≠ h.id := fun h' hm he =>
      (List.nodup_cons.mp hnodup).1 (by rw [← List.map_append, ← he]; exact List.mem_map_of_mem hm)
    refine Or.inr ⟨{ h with served := h.served + 1 }, _, if_pos hflag, ?_, rfl, rfl, ?_, ?_, ?_,
      ?_, ?_, ?_, A.rightly⟩
    · exact A.clean h (by rw [hf]; exact List.mem_cons_self)
    · have := A.ids
      rw [hf] at this
      exact List.perm_middle.trans this
    · rw [List.length_set]
      exact A.flags
    · intro h' hm
      rw [List.getElem?_set_ne (others h' (List.mem_append_left _ hm)).symm]
      exact A.isFree h' (by rw [hf]; exact List.mem_cons_of_mem _ hm)
    · intro h' hm
      rcases List.mem_cons.mp hm with rfl | hm
      · exact List.getElem?_set_self hlt
      · rw [List.getElem?_set_ne (others h' (List.mem_append_right _ hm)).symm]
        exact A.isOut h' hm
    · exact fun h' hm => A.clean h' (by rw [hf]; exact List.mem_cons_of_mem _ hm)
    · intro h' hm
      have old : ∀ h' ∈ h :: free ++ out, h'.served = .ofNat (taken.count h'.id) := fun h' hm =>
        A.served h' (by rwa [hf])
      rcases List.mem_cons.mp (List.perm_middle.mem_iff.mp hm) with rfl | hm
      · show h.served + 1 = .ofNat ((taken ++ [h.id]).count h.id)
        rw [List.count_append, List.count_singleton_self, UInt64.ofNat_add, old h List.mem_cons_self]
        rfl
      · have notTaken : [h.id].count h'.id = 0 := List.count_eq_zero.mpr (by simpa using others h' hm)
        rw [List.count_append, notTaken, Nat.add_zero]
        exact old h' (List.mem_cons_of_mem _ hm)

/-- A handler that is out comes back: its flag was set. -/
theorem Accounted.giveBack (hp : out.Perm (h :: rest)) : Accounted taken rest (hs.giveBack h) := by
  have hflag : hs.inUse[h.id]? = some true := A.isOut h (hp.mem_iff.mpr List.mem_cons_self)
  have hlt : h.id < hs.inUse.length := (List.getElem?_eq_some_iff.mp hflag).1
  have ids : (h.id :: (hs.free.map (·.id) ++ rest.map (·.id))).Perm (hs.free.map (·.id) ++ out.map (·.id)) :=
    List.perm_middle.symm.trans ((hp.map (·.id)).symm.append_left _)
  have others : ∀ h' ∈ hs.free ++ rest, h'.id ≠ h.id := fun h' hm he =>
    (List.nodup_cons.mp (ids.nodup_iff.mpr A.nodup)).1
      (by rw [← List.map_append, ← he]; exact List.mem_map_of_mem hm)
  have old : ∀ h' ∈ h :: (hs.free ++ rest), h'.served = .ofNat (taken.count h'.id) := fun h' hm =>
    A.served h' ((List.perm_middle.symm.trans (hp.symm.append_left _)).mem_iff.mp hm)
  unfold Handlers.giveBack
  rw [if_pos hflag]
  refine ⟨ids.trans A.ids, (List.length_set).trans A.flags, ?_, ?_, ?_, ?_, A.rightly⟩
  · intro h' hm
    rcases List.mem_cons.mp hm with rfl | hm
    · exact List.getElem?_set_self hlt
    · rw [List.getElem?_set_ne (others h' (List.mem_append_left _ hm)).symm]
      exact A.isFree h' hm
  · intro h' hm
    rw [List.getElem?_set_ne (others h' (List.mem_append_right _ hm)).symm]
    exact A.isOut h' (hp.mem_iff.mpr (List.mem_cons_of_mem _ hm))
  · intro h' hm
    rcases List.mem_cons.mp hm with rfl | hm
    · rfl
    · exact A.clean h' hm
  · intro h' hm
    rcases List.mem_cons.mp hm with rfl | hm
    · exact old h List.mem_cons_self
    · exact old h' (List.mem_cons_of_mem _ hm)

end Accounts

theorem giveBack_lent (hs : Handlers) (h : Handler) : (hs.giveBack h).lent = hs.lent := by
  unfold giveBack
  split <;> rfl

theorem giveBack_capacity (hs : Handlers) (h : Handler) : (hs.giveBack h).capacity = hs.capacity := by
  unfold giveBack
  split <;> rfl

/-! ### Borrowers -/

/-- The handlers that are out are those that a borrower has, one each. -/
structure Kept (taken : List Nat) (hs : Handlers) : Prop where
  accounted : Accounted taken hs.lent.values hs
  borrowers : hs.lent.Distinct

theorem kept_new (capacity : Nat) : Kept [] (new capacity) := ⟨accounted_new capacity, Table.distinct_empty⟩

theorem takeBack_lent (hs : Handlers) (name borrower : String) :
    (hs.takeBack name).lent.get? borrower = if name = borrower then none else hs.lent.get? borrower := by
  unfold takeBack
  split
  · rename_i hn
    split
    · rename_i he
      exact he ▸ hn
    · rfl
  · rw [giveBack_lent, Table.get?_erase]

theorem takeBack_capacity (hs : Handlers) (name : String) : (hs.takeBack name).capacity = hs.capacity := by
  unfold takeBack
  split
  · rfl
  · rw [giveBack_capacity]

/-- A borrower's handler comes back; the others stay out, whatever else is out. -/
theorem Accounted.takeBack (rest : List Handler) (A : Accounted taken (rest ++ hs.lent.values) hs)
    (D : hs.lent.Distinct) (name : String) :
    Accounted taken (rest ++ (hs.takeBack name).lent.values) (hs.takeBack name) ∧
    (hs.takeBack name).lent.Distinct := by
  unfold Handlers.takeBack
  split
  · exact ⟨A, D⟩
  · rename_i h hh
    have hp : (rest ++ hs.lent.values).Perm (h :: (rest ++ (hs.lent.erase name).values)) :=
      ((D.values_perm hh).append_left _).trans List.perm_middle
    have A' : Accounted taken (rest ++ hs.lent.values) { hs with lent := hs.lent.erase name } :=
      A.congr (.refl _) rfl rfl rfl rfl
    rw [giveBack_lent]
    exact ⟨A'.giveBack hp, D.erase name⟩

theorem Kept.takeBack (K : Kept taken hs) (name : String) : Kept taken (hs.takeBack name) :=
  have ⟨A, D⟩ := Accounted.takeBack [] K.accounted K.borrowers name
  ⟨A, D⟩

/-- Nothing is lent as all handlers are out, or a clean handler is. -/
theorem Kept.lend (K : Kept taken hs) (name : String) :
    (hs.lent.size = hs.capacity ∧ hs.lend name = (none, hs)) ∨
    ∃ h, hs.lent.size < hs.capacity ∧ (hs.lend name).1 = some h ∧ h.buffer = [] ∧
    (hs.lend name).2.capacity = hs.capacity ∧
      (∀ borrower, (hs.lend name).2.lent.get? borrower =
        if name = borrower then some h else hs.lent.get? borrower) ∧
      Kept (taken ++ [h.id]) (hs.lend name).2 := by
  have total := K.accounted.length_add
  have size : hs.lent.values.length = hs.lent.size := List.length_map _
  unfold Handlers.lend
  rcases K.accounted.checkOut with ⟨free, hout⟩ | ⟨h, hs', hout, clean, lent, capacity, A⟩
  · rw [free, List.length_nil] at total
    exact Or.inl ⟨by omega, by rw [hout]⟩
  · have room : hs.lent.size < hs.capacity := by
      have := A.length_add
      rw [List.length_cons, capacity] at this
      omega
    have ⟨A', D'⟩ := Accounted.takeBack [h] (lent ▸ A) (lent ▸ K.borrowers) name
    have gone : (hs'.takeBack name).lent.get? name = none := by rw [takeBack_lent, if_pos rfl]
    rw [hout]
    refine Or.inr ⟨h, room, rfl, clean, (takeBack_capacity hs' name).trans capacity,
      fun borrower => ?_, ?_, D'.insert _ _⟩
    · show ((hs'.takeBack name).lent.insert name h).get? borrower = _
      rw [Table.get?_insert, takeBack_lent, lent]
      split <;> rfl
    · refine A'.congr ?_ rfl rfl rfl rfl
      rw [Table.values_insert_of_none gone]
      exact (List.perm_append_comm).map _

/-- What the buffers of the borrowed handlers hold is the borrowers' own affair. -/
theorem Kept.update (K : Kept taken hs) (name : String) {f : Handler → Handler} (id : ∀ h, (f h).id = h.id)
    (served : ∀ h, (f h).served = h.served) : Kept taken { hs with lent := hs.lent.update name f } where
  accounted := K.accounted.congr
    (.of_eq (Table.map_values_update (fun h => by rw [id, served]) name)) rfl rfl rfl rfl
  borrowers := K.borrowers.update name f

/-! ### What borrowers do -/

inductive Move
  | lend (name : String)
  /-- A borrower gives its handler back. -/
  | reassign (name : String)
  /-- A borrower goes without having given its handler back. -/
  | drop (name : String)
  | fill (name : String) (bytes : Bytes)
  deriving DecidableEq, Repr

def step (hs : Handlers) : Move → Handlers
  | .lend name => (hs.lend name).2
  | .reassign name => hs.takeBack name
  | .drop name => hs.takeBack name
  | .fill name bytes => hs.fill name bytes

def run (ms : List Move) (hs : Handlers) : Handlers := ms.foldl step hs

/-- The handlers that are handed out on the way, in order. -/
def handedOut : List Move → Handlers → List Handler
  | [], _ => []
  | .lend name :: ms, hs => (hs.lend name).1.toList ++ handedOut ms (hs.lend name).2
  | m :: ms, hs => handedOut ms (hs.step m)

/-- One move keeps every handler accounted for, and hands out clean handlers only. -/
theorem Kept.step (K : Kept taken hs) (m : Move) :
    ∃ given : List Handler, (∀ ms, handedOut (m :: ms) hs = given ++ handedOut ms (hs.step m)) ∧
      (∀ h ∈ given, h.buffer = []) ∧ (hs.step m).capacity = hs.capacity ∧
      Kept (taken ++ given.map (·.id)) (hs.step m) := by
  have nothing : ∀ {hs' : Handlers}, Kept taken hs' →
      Kept (taken ++ ([] : List Handler).map (·.id)) hs' := fun K => by
    rwa [List.map_nil, List.append_nil]
  cases m with
  | lend name =>
    rcases K.lend name with ⟨-, hlend⟩ | ⟨h, -, hlend, clean, capacity, -, K'⟩
    · refine ⟨[], fun ms => ?_, List.forall_mem_nil _, ?_, nothing ?_⟩
      · simp only [handedOut, Handlers.step, hlend, Option.toList_none]
      · simp only [Handlers.step, hlend]
      · simpa only [Handlers.step, hlend] using K
    · refine ⟨[h], fun ms => ?_, fun h' hm => ?_, capacity, K'⟩
      · simp only [handedOut, Handlers.step, hlend, Option.toList_some]
      · rw [List.mem_singleton.mp hm]
        exact clean
  | reassign name =>
    exact ⟨[], fun ms => rfl, List.forall_mem_nil _, takeBack_capacity hs name, nothing (K.takeBack name)⟩
  | drop name =>
    exact ⟨[], fun ms => rfl, List.forall_mem_nil _, takeBack_capacity hs name, nothing (K.takeBack name)⟩
  | fill name bytes =>
    exact ⟨[], fun ms => rfl, List.forall_mem_nil _, rfl, nothing (K.update name (fun _ => rfl) fun _ => rfl)⟩

theorem Kept.run (K : Kept taken hs) (ms : List Move) :
    Kept (taken ++ (handedOut ms hs).map (·.id)) (run ms hs) ∧ (run ms hs).capacity = hs.capacity ∧
      ∀ h ∈ handedOut ms hs, h.buffer = [] := by
  induction ms generalizing taken hs with
  | nil => exact ⟨by simpa [handedOut, Handlers.run] using K, rfl, List.forall_mem_nil _⟩
  | cons m ms ih =>
    obtain ⟨given, hgiven, clean, capacity, K'⟩ := K.step m
    obtain ⟨K'', capacity', clean'⟩ := ih K'
    refine ⟨?_, capacity'.trans capacity, fun h hm => ?_⟩
    · rw [hgiven, List.map_append, ← List.append_assoc]
      exact K''
    · rw [hgiven] at hm
      exact (List.mem_append.mp hm).elim (clean h) (clean' h)

end Handlers
end TreeReplica
