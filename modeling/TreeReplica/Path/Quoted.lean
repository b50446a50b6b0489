import TreeReplica.Path.Quoted.Joining
import TreeReplica.Path.Quoted.Unassigned

/-!
Quoted text for reports: a text between double quotes, in which double quotes, backslashes and
characters that would not show on their own are written as escapes. A single quote needs none. Main
statement: `hidden_eq_false_of_mem_quoted`, every character of a quoted text shows on its own. -/

namespace TreeReplica

namespace Quoted

/-- The lowercase hexadecimal digits of a number. -/
def hex (n : Nat) : List Char := Nat.toDigits 16 n

/-- The ranges of control characters. -/
def controls : List (Nat × Nat) := [(0x0, 0x1f), (0x7f, 0x9f)]

/-- The ranges of characters that only say how others are to be shown. -/
def formats : List (Nat × Nat) :=
  [(0xad, 0xad), (0x600, 0x605), (0x61c, 0x61c), (0x6dd, 0x6dd), (0x70f, 0x70f), (0x890, 0x891),
   (0x8e2, 0x8e2), (0x180e, 0x180e), (0x200b, 0x200f), (0x202a, 0x202e), (0x2060, 0x2064),
   (0x2066, 0x206f), (0xfeff, 0xfeff), (0xfff9, 0xfffb), (0x110bd, 0x110bd), (0x110cd, 0x110cd),
   (0x13430, 0x1343f), (0x1bca0, 0x1bca3), (0x1d173, 0x1d17a), (0xe0001, 0xe0001),
   (0xe0020, 0xe007f)]

/-- The ranges of spaces and of separators of lines and paragraphs, the plain space apart. -/
def separators : List (Nat × Nat) :=
  [(0xa0, 0xa0), (0x1680, 0x1680), (0x2000, 0x200a), (0x2028, 0x2029), (0x202f, 0x202f),
   (0x205f, 0x205f), (0x3000, 0x3000)]

/-- The ranges of characters whose meaning is a private agreement. -/
def privateUse : List (Nat × Nat) := [(0xe000, 0xf8ff), (0xf0000, 0xffffd), (0x100000, 0x10fffd)]

/-- The ranges of letters that stand for a missing one. -/
def fillers : List (Nat × Nat) := [(0x115f, 0x1160), (0x3164, 0x3164), (0xffa0, 0xffa0)]

def within (ranges : List (Nat × Nat)) (c : Char) : Bool :=
  ranges.any fun (lo, hi) => lo ≤ c.toNat && c.toNat ≤ hi

/-- Whether a character would not show on its own. Below 0xa0 these are the controls. -/
def hidden (c : Char) : Bool :=
  within controls c ||
    (0xa0 ≤ c.toNat &&
      [formats, separators, privateUse, fillers, joining, unassigned].any (within · c))

def escape (c : Char) : List Char :=
  if c = '\x00' then ['\\', '0']
  else if c = '\t' then ['\\', 't']
  else if c = '\n' then ['\\', 'n']
  else if c = '\r' then ['\\', 'r']
  else if c = '"' || c = '\\' then ['\\', c]
  else if hidden c then ['\\', 'u', '\x7b'] ++ hex c.toNat ++ ['\x7d']
  else [c]

/-! ### What shows -/

theorem mem_toDigitsCore {c : Char} {fuel n : Nat} {done : List Char}
    (h : c ∈ Nat.toDigitsCore 16 fuel n done) : c ∈ done ∨ ∃ d : Fin 16, c = Nat.digitChar d := by
  induction fuel generalizing n done with
  | zero => exact .inl (by simpa [Nat.toDigitsCore] using h)
  | succ fuel ih =>
    have hd : n % 16 < 16 := Nat.mod_lt _ (by decide)
    have first (h : c ∈ Nat.digitChar (n % 16) :: done) :
        c ∈ done ∨ ∃ d : Fin 16, c = Nat.digitChar d :=
      (List.mem_cons.1 h).elim (fun h => .inr ⟨⟨n % 16, hd⟩, h⟩) .inl
    rw [Nat.toDigitsCore] at h
    split at h
    · exact first h
    · exact (ih h).elim first .inr

theorem hidden_digitChar_eq_false : ∀ d : Fin 16, hidden (Nat.digitChar d) = false := by decide +kernel

/-- The characters that escapes are made of, apart from digits. -/
def signs : List Char := ['\\', '"', '0', 't', 'n', 'r', 'u', '\x7b', '\x7d']

theorem hidden_eq_false_of_mem_signs {c : Char} (h : c ∈ signs) : hidden c = false := by
  have hs : (signs.all fun c => !hidden c) = true := by decide +kernel
  simpa using List.all_eq_true.1 hs c h

theorem hidden_eq_false_of_mem_hex {c : Char} {n : Nat} (h : c ∈ hex n) : hidden c = false := by
  rcases mem_toDigitsCore h with h | ⟨d, rfl⟩
  · simp at h
  · exact hidden_digitChar_eq_false d

theorem hidden_eq_false_of_mem_escape {c d : Char} (h : d ∈ escape c) : hidden d = false := by
  have sign : ∀ {cs : List Char}, cs ⊆ signs → d ∈ cs → hidden d = false :=
    fun hs hd => hidden_eq_false_of_mem_signs (hs hd)
  unfold escape at h
  repeat' split at h
  · exact sign (by decide) h
  · exact sign (by decide) h
  · exact sign (by decide) h
  · exact sign (by decide) h
  · rename_i hc
    rcases (by simpa using hc : c = '"' ∨ c = '\\') with rfl | rfl <;> exact sign (by decide) h
  · rcases List.mem_append.1 h with h | h
    · rcases List.mem_append.1 h with h | h
      · exact sign (by decide) h
      · exact hidden_eq_false_of_mem_hex h
    · exact sign (by decide) h
  · rename_i hc
    rw [List.mem_singleton.1 h]
    simpa using hc

end Quoted

def quoted (text : String) : String :=
  .ofList ('"' :: text.toList.flatMap Quoted.escape ++ ['"'])

/-- Every character of a quoted text shows on its own. -/
theorem Quoted.hidden_eq_false_of_mem_quoted {text : String} {c : Char} (h : c ∈ (quoted text).toList) :
    hidden c = false := by
  have mark : hidden '"' = false := hidden_eq_false_of_mem_signs (by decide)
  simp only [quoted, String.toList_ofList, List.cons_append, List.mem_cons, List.mem_append,
    List.mem_flatMap, List.not_mem_nil, or_false] at h
  rcases h with rfl | ⟨_, _, h⟩ | rfl
  · exact mark
  · exact hidden_eq_false_of_mem_escape h
  · exact mark

end TreeReplica
