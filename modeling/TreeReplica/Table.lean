/-!
Finite maps as association lists. Main statements: `get?_insert`, `get?_erase` and `get?_update` give
the value at every key after each operation, so that a map is known by its `get?` alone. -/

namespace TreeReplica

/-- A finite map: the first entry of a key counts. -/
structure Table (κ α : Type) where
  entries : List (κ × α)
  deriving Repr, DecidableEq

namespace Table

variable {κ α : Type} [DecidableEq κ]

def empty : Table κ α := ⟨[]⟩

instance : Inhabited (Table κ α) := ⟨empty⟩

/-- The value of the first entry with this key. -/
def find (k : κ) : List (κ × α) → Option α
  | [] => none
  | (j, a) :: rest => if j = k then some a else find k rest

/-- Sets the first entry with this key, or adds one at the end. -/
def put (k : κ) (a : α) : List (κ × α) → List (κ × α)
  | [] => [(k, a)]
  | (j, b) :: rest => if j = k then (k, a) :: rest else (j, b) :: put k a rest

def get? (t : Table κ α) (k : κ) : Option α := find k t.entries

def insert (t : Table κ α) (k : κ) (a : α) : Table κ α := ⟨put k a t.entries⟩

/-- Removes every entry with this key. -/
def erase (t : Table κ α) (k : κ) : Table κ α := ⟨t.entries.filter (·.1 ≠ k)⟩

def size (t : Table κ α) : Nat := t.entries.length

def isEmpty (t : Table κ α) : Bool := t.entries.isEmpty

def keys (t : Table κ α) : List κ := t.entries.map (·.1)

def values (t : Table κ α) : List α := t.entries.map (·.2)

/-! ### What each operation does to the values -/

@[simp]
theorem get?_empty (k : κ) : (empty : Table κ α).get? k = none := rfl

theorem find_put (k j : κ) (a : α) (l : List (κ × α)) :
    find j (put k a l) = if k = j then some a else find j l := by
  induction l with
  | nil => simp [put, find]
  | cons e rest ih =>
    obtain ⟨i, b⟩ := e
    by_cases hik : i = k
    · subst hik
      by_cases hij : i = j <;> simp [put, find, hij]
    · by_cases hij : i = j
      · subst hij
        simp [put, find, hik, Ne.symm hik]
      · simp [put, find, hik, hij, ih]

@[simp]
theorem get?_insert (t : Table κ α) (k j : κ) (a : α) :
    (t.insert k a).get? j = if k = j then some a else t.get? j :=
  find_put k j a t.entries

@[simp]
theorem get?_erase (t : Table κ α) (k j : κ) :
    (t.erase k).get? j = if k = j then none else t.get? j := by
  unfold get? erase
  induction t.entries with
  | nil => simp [find]
  | cons e rest ih =>
    obtain ⟨i, b⟩ := e
    by_cases hik : i = k
    · subst hik
      by_cases hij : i = j
      · subst hij
        simpa [find] using ih
      · simpa [find, hij] using ih
    · by_cases hij : i = j
      · subst hij
        simp [find, hik, Ne.symm hik]
      · simpa [find, hik, hij] using ih

/-- Replaces the value of a key that is present, and changes nothing else. -/
def update (t : Table κ α) (k : κ) (f : α → α) : Table κ α :=
  match t.get? k with
  | some a => t.insert k (f a)
  | none => t

theorem get?_update (t : Table κ α) (k j : κ) (f : α → α) :
    (t.update k f).get? j = if k = j then (t.get? j).map f else t.get? j := by
  unfold update
  by_cases h : k = j
  · subst h
    cases hk : t.get? k <;> simp [hk]
  · cases hk : t.get? k <;> simp [h]

end Table

end TreeReplica
