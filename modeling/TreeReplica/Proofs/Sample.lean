import TreeReplica.Proofs.Lease
import TreeReplica.Session

/-! A small tree to try statements on: one directory that is served, and one file in it without a record. -/

namespace TreeReplica
open Volume

/-- Results are compared as options where a sample is evaluated. -/
theorem ok_of_toOption {ε α : Type} {x : Except ε α} {a : α} (h : x.toOption = some a) : x = .ok a := by
  cases x with
  | error e => cases h
  | ok b => exact congrArg Except.ok (Option.some.inj h)

/-- A node that serves `r`, asks for two bytes at a time and lets every peer in. -/
def sampleSetup : Setup := ⟨{ Config.default with dataDir := "r", chunkSize := 2 }, .plaintext []⟩

/-- The volume with the file `r/a` of these bytes. -/
def sampleVolume (bytes : Bytes) : Volume where
  levels := ⟨[(1, ⟨[(["r"], .directory)]⟩), (2, ⟨[(["r", "a"], .file 0 (.ofBytes bytes))]⟩)]⟩
  nextId := 1
  locked := []
  here := []

/-- Where the file and its record stand. -/
def sampleSite : Site := ⟨["r"], "a"⟩

theorem sampleVolume_unrecorded (bytes : Bytes) {l : Location} (hl : RecordPlace l) :
    (sampleVolume bytes).content? l = none := by
  obtain ⟨dir, name, rfl⟩ := hl
  have absent : ∀ (front : Location) (last : String), last.toList.length < 8 →
      dir ++ [Path.recordName name] ≠ front ++ [last] := fun _ _ hlast he =>
    Path.recordName_ne name hlast (List.cons.inj (List.append_inj' he rfl).2).1
  unfold content?
  cases hlook : (sampleVolume bytes).lookup (dir ++ [Path.recordName name]) with
  | none => rfl
  | some entry =>
    have hmem := mem_entries_of_lookup concat_ne_nil hlook
    rcases List.mem_cons.mp hmem with h | h
    · exact absurd (congrArg Prod.fst h) (absent [] "r" (by decide))
    · rcases List.mem_cons.mp h with h | h
      · exact absurd (congrArg Prod.fst h) (absent ["r"] "a" (by decide))
      · cases h

end TreeReplica
