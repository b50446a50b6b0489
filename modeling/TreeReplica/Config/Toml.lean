import TreeReplica.Numeral

/-!
The part of TOML that settings need: documents of `key = value` lines without tables, whose values are
texts, whole numbers, flags, and lists of texts. `Toml.parse` gives the settings in order. A document
with anything else in it, such as a table header, a fraction, a date or a list of numbers, is refused
like one with broken syntax. The readers of texts end because each character that they take leaves less. -/

namespace TreeReplica

namespace Toml

inductive Value
  | text (s : String)
  | number (n : Int)
  | flag (b : Bool)
  | list (items : List String)
  deriving DecidableEq, Repr

/-- Takes a value from the front of a document and leaves the rest. -/
abbrev Scan (α : Type) := List Char → Option (α × List Char)

/-! ### Characters -/

def isBlank (c : Char) : Bool := c = ' ' || c = '\t'

/-- Characters that may stand in comments: no controls but the tab. -/
def isShown (c : Char) : Bool := c = '\t' || (' ' ≤ c && c ≠ '\x7f')

/-- Characters that stand for themselves between double quotes. -/
def isPlain (c : Char) : Bool := isShown c && c ≠ '"' && c ≠ '\\'

/-- Characters that may stand between single quotes. -/
def isLiteral (c : Char) : Bool := isShown c && c ≠ '\''

def isBareKey (c : Char) : Bool := c.isAlphanum || c = '_' || c = '-'

/-! ### Blanks, comments and line ends -/

def skipBlanks (cs : List Char) : List Char := cs.dropWhile isBlank

/-- Behind one line end. -/
def lineEnd? : List Char → Option (List Char)
  | '\n' :: rest => some rest
  | '\r' :: '\n' :: rest => some rest
  | _ => none

theorem length_lt_of_lineEnd? {cs rest : List Char} (h : lineEnd? cs = some rest) :
    rest.length < cs.length := by
  unfold lineEnd? at h
  split at h
  · cases h
    simp
  · cases h
    exact Nat.lt_succ_of_lt (Nat.lt_succ_self _)
  · cases h

/-- Behind a comment, if there is one. -/
def skipComment : List Char → List Char
  | '#' :: rest => rest.dropWhile isShown
  | cs => cs

theorem length_skipBlanks_le (cs : List Char) : (skipBlanks cs).length ≤ cs.length :=
  (List.dropWhile_sublist _).length_le

theorem length_skipComment_le (cs : List Char) : (skipComment cs).length ≤ cs.length := by
  unfold skipComment
  split
  · exact Nat.le_succ_of_le (List.dropWhile_sublist _).length_le
  · exact Nat.le_refl _

/-- Behind the end of a line, or at the end of the document; blanks and a comment may come first. -/
def endOfLine? (cs : List Char) : Option (List Char) :=
  match skipComment (skipBlanks cs) with
  | [] => some []
  | rest => lineEnd? rest

/-- Behind blanks, comments and line ends. -/
def skipVoid (cs : List Char) : List Char :=
  match _h : lineEnd? (skipComment (skipBlanks cs)) with
  | some rest => skipVoid rest
  | none => skipComment (skipBlanks cs)
termination_by cs.length
decreasing_by
  have := length_lt_of_lineEnd? _h
  have := length_skipComment_le (skipBlanks cs)
  have := length_skipBlanks_le cs
  omega

/-! ### Texts -/

/-- The character of an escape, read from behind the backslash. -/
def escape : Scan Char
  | 'b' :: rest => some ('\x08', rest)
  | 't' :: rest => some ('\t', rest)
  | 'n' :: rest => some ('\n', rest)
  | 'f' :: rest => some ('\x0c', rest)
  | 'r' :: rest => some ('\r', rest)
  | '"' :: rest => some ('"', rest)
  | '\\' :: rest => some ('\\', rest)
  | 'u' :: rest => numbered 4 rest
  | 'U' :: rest => numbered 8 rest
  | _ => none
where
  numbered (width : Nat) (cs : List Char) : Option (Char × List Char) :=
    let digits := cs.take width
    match Numeral.digits? 16 digits with
    | some n => if digits.length = width ∧ n.isValidChar then some (.ofNat n, cs.drop width) else none
    | none => none

theorem length_le_of_escape {cs rest : List Char} {c : Char} (h : escape cs = some (c, rest)) :
    rest.length ≤ cs.length := by
  have numbered {width : Nat} {cs : List Char} (h : escape.numbered width cs = some (c, rest)) :
      rest.length ≤ cs.length := by
    unfold escape.numbered at h
    simp only at h
    split at h
    · split at h
      · cases h
        simp
      · cases h
    · cases h
  unfold escape at h
  split at h
  case h_8 | h_9 => exact Nat.le_succ_of_le (numbered h)
  all_goals
    cases h
    try simp

/-- A text between double quotes, read from behind the opening one, with its beginning backwards. -/
def basicFrom (done cs : List Char) : Option (String × List Char) :=
  match cs with
  | '"' :: rest => some (.ofList done.reverse, rest)
  | '\\' :: rest =>
    match _h : escape rest with
    | some (c, rest) => basicFrom (c :: done) rest
    | none => none
  | c :: rest => if isPlain c then basicFrom (c :: done) rest else none
  | [] => none
termination_by cs.length
decreasing_by
  · exact Nat.lt_succ_of_le (length_le_of_escape _h)
  · simp

/-- A text between double quotes, read from behind the opening one. -/
def basic : Scan String := basicFrom []

/-- A text between single quotes, read from behind the opening one. -/
def literal (cs : List Char) : Option (String × List Char) :=
  match cs.dropWhile isLiteral with
  | '\'' :: rest => some (.ofList (cs.takeWhile isLiteral), rest)
  | _ => none

/-- Behind a line end that directly follows an opening delimiter. -/
def skipFirstLineEnd (cs : List Char) : List Char := (lineEnd? cs).getD cs

/-- How many quotes of a run, which ends a text of several lines, belong to the text: up to two. Fewer
    than three quotes end nothing. -/
def closing? (quote : Char) (cs : List Char) : Option Nat :=
  let run := (cs.takeWhile (· = quote)).length
  if run < 3 then none else some (min run 5 - 3)

/-- Behind blanks and line ends. -/
def skipBreaks : List Char → List Char
  | [] => []
  | '\r' :: '\n' :: rest => skipBreaks rest
  | c :: rest => if isBlank c || c = '\n' then skipBreaks rest else c :: rest

theorem length_skipBreaks_le (cs : List Char) : (skipBreaks cs).length ≤ cs.length := by
  fun_induction skipBreaks cs <;> simp_all <;> omega

/-- A text between three double quotes, read from behind the opening ones, with its beginning backwards.
    A backslash at the end of a line joins it with what follows. -/
def basicLinesFrom (done cs : List Char) : Option (String × List Char) :=
  match cs with
  | [] => none
  | '"' :: rest =>
    match closing? '"' cs with
    | none => basicLinesFrom ('"' :: done) rest
    | some n => some (.ofList (List.replicate n '"' ++ done).reverse, cs.drop (n + 3))
  | '\\' :: rest =>
    match _h : lineEnd? (skipBlanks rest) with
    | some rest => basicLinesFrom done (skipBreaks rest)
    | none =>
      match _h : escape rest with
      | some (c, rest) => basicLinesFrom (c :: done) rest
      | none => none
  | c :: rest =>
    match _h : lineEnd? (c :: rest) with
    | some rest => basicLinesFrom ('\n' :: done) rest
    | none => if isPlain c then basicLinesFrom (c :: done) rest else none
termination_by cs.length
decreasing_by
  · simp
  · exact Nat.lt_succ_of_le <| Nat.le_trans (length_skipBreaks_le _) <|
      Nat.le_trans (Nat.le_of_lt (length_lt_of_lineEnd? _h)) (length_skipBlanks_le _)
  · exact Nat.lt_succ_of_le (length_le_of_escape _h)
  · exact length_lt_of_lineEnd? _h
  · simp

/-- A text between three double quotes, read from behind the opening ones. -/
def basicLines (cs : List Char) : Option (String × List Char) := basicLinesFrom [] (skipFirstLineEnd cs)

/-- A text between three single quotes, read from behind the opening ones, with its beginning backwards. -/
def literalLinesFrom (done cs : List Char) : Option (String × List Char) :=
  match cs with
  | [] => none
  | '\'' :: rest =>
    match closing? '\'' cs with
    | none => literalLinesFrom ('\'' :: done) rest
    | some n => some (.ofList (List.replicate n '\'' ++ done).reverse, cs.drop (n + 3))
  | c :: rest =>
    match _h : lineEnd? (c :: rest) with
    | some rest => literalLinesFrom ('\n' :: done) rest
    | none => if isLiteral c then literalLinesFrom (c :: done) rest else none
termination_by cs.length
decreasing_by
  · simp
  · exact length_lt_of_lineEnd? _h
  · simp

/-- A text between three single quotes, read from behind the opening ones. -/
def literalLines (cs : List Char) : Option (String × List Char) := literalLinesFrom [] (skipFirstLineEnd cs)

def text : Scan String
  | '"' :: '"' :: '"' :: rest => basicLines rest
  | '\'' :: '\'' :: '\'' :: rest => literalLines rest
  | '"' :: rest => basic rest
  | '\'' :: rest => literal rest
  | _ => none

/-! ### Numbers -/

/-- Digits, where single underscores may stand between two of them. -/
def grouped? (cs : List Char) : Option (List Char) :=
  match cs with
  | [] => none
  | [c] => if c = '_' then none else some [c]
  | c :: '_' :: rest => if c = '_' then none else (grouped? rest).map (c :: ·)
  | c :: rest => if c = '_' then none else (grouped? rest).map (c :: ·)

/-- A whole number in this base; in base ten it does not start with a needless zero. -/
def whole (base : Nat) (cs : List Char) : Option (Nat × List Char) :=
  let isWord := fun c : Char => c.isAlphanum || c = '_'
  match grouped? (cs.takeWhile isWord) with
  | none => none
  | some ds =>
    if base = 10 ∧ ds.head? = some '0' ∧ ds.length > 1 then none
    else (Numeral.digits? base ds).map (·, cs.dropWhile isWord)

/-- A number that fits into 64 bits with a sign. -/
def number (cs : List Char) : Option (Int × List Char) :=
  let found : Option (Int × List Char) :=
    match cs with
    | '0' :: 'x' :: rest => (whole 16 rest).map fun (n, rest) => (n, rest)
    | '0' :: 'o' :: rest => (whole 8 rest).map fun (n, rest) => (n, rest)
    | '0' :: 'b' :: rest => (whole 2 rest).map fun (n, rest) => (n, rest)
    | '+' :: rest => (whole 10 rest).map fun (n, rest) => (n, rest)
    | '-' :: rest => (whole 10 rest).map fun (n, rest) => (-n, rest)
    | cs => (whole 10 cs).map fun (n, rest) => (n, rest)
  found.filter fun (n, _) => Int64.minValue.toInt ≤ n ∧ n ≤ Int64.maxValue.toInt

/-! ### Values and lines -/

/-- A list of texts, read from behind the opening bracket. -/
def list (cs : List Char) : Option (List String × List Char) := go cs.length [] (skipVoid cs)
where
  go : Nat → List String → List Char → Option (List String × List Char)
    | 0, _, _ => none
    | fuel + 1, done, cs =>
      match cs with
      | ']' :: rest => some (done.reverse, rest)
      | cs =>
        match text cs with
        | none => none
        | some (s, rest) =>
          match skipVoid rest with
          | ',' :: rest => go fuel (s :: done) (skipVoid rest)
          | ']' :: rest => some ((s :: done).reverse, rest)
          | _ => none

def value (cs : List Char) : Option (Value × List Char) :=
  match cs with
  | 't' :: 'r' :: 'u' :: 'e' :: rest => some (.flag true, rest)
  | 'f' :: 'a' :: 'l' :: 's' :: 'e' :: rest => some (.flag false, rest)
  | '[' :: rest => (list rest).map fun (items, rest) => (.list items, rest)
  | '"' :: _ | '\'' :: _ => (text cs).map fun (s, rest) => (.text s, rest)
  | cs => (number cs).map fun (n, rest) => (.number n, rest)

/-- A key: bare, or a text on one line. -/
def key (cs : List Char) : Option (String × List Char) :=
  match cs with
  | '"' :: rest => basic rest
  | '\'' :: rest => literal rest
  | cs =>
    match cs.takeWhile isBareKey with
    | [] => none
    | name => some (.ofList name, cs.dropWhile isBareKey)

def setting (cs : List Char) : Option ((String × Value) × List Char) :=
  match key cs with
  | none => none
  | some (name, rest) =>
    match skipBlanks rest with
    | '=' :: rest => (value (skipBlanks rest)).map fun (v, rest) => ((name, v), rest)
    | _ => none

/-- The settings of a document, in order. No key may come twice. -/
def parse (document : String) : Option (List (String × Value)) :=
  let cs := match document.toList with
    | '\ufeff' :: rest => rest
    | cs => cs
  go (cs.length + 1) [] cs
where
  go : Nat → List (String × Value) → List Char → Option (List (String × Value))
    | 0, _, _ => none
    | fuel + 1, done, cs =>
      match skipVoid cs with
      | [] => some done.reverse
      | cs =>
        match setting cs with
        | none => none
        | some (entry, rest) =>
          if done.any (·.1 = entry.1) then none
          else
            match endOfLine? rest with
            | none => none
            | some rest => go fuel (entry :: done) rest

end Toml

end TreeReplica
