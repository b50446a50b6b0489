import TreeReplica.Bytes

/-!
Contents of files, with holes: a file may be made long before its bytes arrive, and a hole reads as
zeros without taking room. Main statements: `toList_take`, `toList_drop`, `toList_resize` and
`toList_write` say what each operation does to the bytes, and `size_eq` that the size counts them. -/

namespace TreeReplica

/-- A run of bytes, or of zeros that were never written. -/
inductive Segment
  | data (bytes : Bytes)
  | hole (length : Nat)
  deriving DecidableEq, Repr

namespace Segment

def size : Segment → Nat
  | data bytes => bytes.length
  | hole length => length

def toList : Segment → Bytes
  | data bytes => bytes
  | hole length => List.replicate length 0

def take (n : Nat) : Segment → Segment
  | data bytes => data (bytes.take n)
  | hole length => hole (min n length)

def drop (n : Nat) : Segment → Segment
  | data bytes => data (bytes.drop n)
  | hole length => hole (length - n)

@[simp]
theorem length_toList (s : Segment) : s.toList.length = s.size := by cases s <;> simp [toList, size]

@[simp]
theorem toList_take (n : Nat) (s : Segment) : (s.take n).toList = s.toList.take n := by
  cases s <;> simp [take, toList, List.take_replicate]

@[simp]
theorem toList_drop (n : Nat) (s : Segment) : (s.drop n).toList = s.toList.drop n := by
  cases s <;> simp [drop, toList]

end Segment

/-- The bytes of a file, as segments one behind the other. -/
structure Content where
  segments : List Segment
  deriving DecidableEq, Repr

namespace Content

def empty : Content := ⟨[]⟩

instance : Inhabited Content := ⟨empty⟩

def ofBytes (bytes : Bytes) : Content := ⟨[.data bytes]⟩

def size (c : Content) : Nat := c.segments.foldr (·.size + ·) 0

def toList (c : Content) : Bytes := (c.segments.map Segment.toList).flatten

def takeSegments : Nat → List Segment → List Segment
  | _, [] => []
  | n, s :: rest => if s.size ≤ n then s :: takeSegments (n - s.size) rest else [s.take n]

def dropSegments : Nat → List Segment → List Segment
  | _, [] => []
  | n, s :: rest => if s.size ≤ n then dropSegments (n - s.size) rest else s.drop n :: rest

def take (c : Content) (n : Nat) : Content := ⟨takeSegments n c.segments⟩

def drop (c : Content) (n : Nat) : Content := ⟨dropSegments n c.segments⟩

/-- Cuts a file at `n` bytes, or makes it that long with a hole at its end. -/
def resize (c : Content) (n : Nat) : Content :=
  if n ≤ c.size then c.take n else ⟨c.segments ++ [.hole (n - c.size)]⟩

/-- Writes bytes at an offset. A gap up to the offset becomes a hole. -/
def write (c : Content) (offset : Nat) (bytes : Bytes) : Content :=
  let front := if offset ≤ c.size then c.take offset else c.resize offset
  ⟨front.segments ++ .data bytes :: (c.drop (offset + bytes.length)).segments⟩

/-- The bytes from `start` up to `stop`, as far as there are any. -/
def slice (c : Content) (start stop : Nat) : Bytes := ((c.take stop).drop start).toList

/-! ### What each operation does to the bytes -/

@[simp]
theorem toList_ofBytes (bytes : Bytes) : (ofBytes bytes).toList = bytes := by
  simp [ofBytes, toList, Segment.toList]

theorem size_eq (c : Content) : c.size = c.toList.length := by
  obtain ⟨segments⟩ := c
  induction segments with
  | nil => rfl
  | cons s rest ih =>
    simp only [size, toList] at ih
    simp [size, toList, ih]

private theorem flatten_takeSegments (n : Nat) (l : List Segment) :
    ((takeSegments n l).map Segment.toList).flatten = ((l.map Segment.toList).flatten).take n := by
  induction l generalizing n with
  | nil => simp [takeSegments]
  | cons s rest ih =>
    unfold takeSegments
    split
    · rename_i h
      have hs : s.toList.take n = s.toList := List.take_of_length_le (by simpa using h)
      simp only [List.map_cons, List.flatten_cons, ih, List.take_append, Segment.length_toList, hs]
    · rename_i h
      simp only [List.map_cons, List.map_nil, List.flatten_cons, List.flatten_nil, List.append_nil,
        Segment.toList_take]
      rw [List.take_append_of_le_length (by simp; omega)]

private theorem flatten_dropSegments (n : Nat) (l : List Segment) :
    ((dropSegments n l).map Segment.toList).flatten = ((l.map Segment.toList).flatten).drop n := by
  induction l generalizing n with
  | nil => simp [dropSegments]
  | cons s rest ih =>
    unfold dropSegments
    split
    · rename_i h
      have hs : s.toList.drop n = [] := List.drop_of_length_le (by simpa using h)
      simp only [List.map_cons, List.flatten_cons, ih, List.drop_append, Segment.length_toList, hs,
        List.nil_append]
    · rename_i h
      simp only [List.map_cons, List.flatten_cons, Segment.toList_drop]
      rw [List.drop_append_of_le_length (by simp; omega)]

@[simp]
theorem toList_take (c : Content) (n : Nat) : (c.take n).toList = c.toList.take n :=
  flatten_takeSegments n c.segments

@[simp]
theorem toList_drop (c : Content) (n : Nat) : (c.drop n).toList = c.toList.drop n :=
  flatten_dropSegments n c.segments

theorem toList_resize (c : Content) (n : Nat) :
    (c.resize n).toList = c.toList.take n ++ List.replicate (n - c.toList.length) 0 := by
  unfold resize
  rw [size_eq]
  split
  · rename_i h
    simp [Nat.sub_eq_zero_of_le h]
  · rename_i h
    rw [List.take_of_length_le (by omega)]
    simp [toList, Segment.toList]

theorem toList_write (c : Content) (offset : Nat) (bytes : Bytes) :
    (c.write offset bytes).toList =
      (c.toList.take offset ++ List.replicate (offset - c.toList.length) 0) ++
        (bytes ++ c.toList.drop (offset + bytes.length)) := by
  have h : ∀ (a : Content) (s : List Segment), (⟨a.segments ++ s⟩ : Content).toList =
      a.toList ++ (⟨s⟩ : Content).toList := fun a s => by simp [toList]
  have hd : ∀ b : Content, (⟨.data bytes :: b.segments⟩ : Content).toList = bytes ++ b.toList :=
    fun b => by simp [toList, Segment.toList]
  unfold write
  simp only [h, hd, toList_drop]
  congr 1
  split
  · rename_i hle
    rw [size_eq] at hle
    simp [Nat.sub_eq_zero_of_le hle]
  · exact toList_resize c offset

theorem slice_eq (c : Content) (start stop : Nat) :
    c.slice start stop = (c.toList.take stop).drop start := by simp [slice]

end Content

end TreeReplica
