import TreeReplica.Numeral
import TreeReplica.Pieces

/-!
Names of hosts: labels with dots between them. A backslash makes a part of a label of what follows it:
of a sign, or of the character that three digits number. -/

namespace TreeReplica

namespace HostName

/-- The characters of the labels, with `none` for a dot between two of them. -/
def signs? : List Char → Option (List (Option Char))
  | [] => some []
  | '\\' :: [] => none
  | '\\' :: a :: rest =>
    if a.isDigit then
      match rest with
      | b :: c :: rest => do
        let number ← (Numeral.digits? 10 [a, b, c]).filter (· < 256)
        return some (.ofNat number) :: (← signs? rest)
      | _ => none
    else (signs? rest).map (some a :: ·)
  | '.' :: rest => (signs? rest).map (none :: ·)
  | c :: rest => (signs? rest).map (some c :: ·)

/-- The labels of a name. A dot at its end opens no other label. -/
def labels? (name : String) : Option (List (List Char)) :=
  (signs? name.toList).map fun signs =>
    let labels := (pieces none signs).map (·.filterMap id)
    if labels.getLast? = some [] then labels.dropLast else labels

def allowed (c : Char) : Bool := c.isAlphanum || c = '-' || c = '_'

/-- Whether labels have 1 to 63 characters each, and at most 254 together with the length of each. -/
def fit (labels : List (List Char)) : Bool :=
  (labels.all fun label => 1 ≤ label.length && label.length ≤ 63) &&
    labels.foldr (·.length + 1 + ·) 0 < 255

/-- Whether others can be asked for a name: it has labels that fit, of allowed characters, and no hyphen
    in front. The dot alone is the name of the root. -/
def askable (name : String) : Bool :=
  (labels? name).any fun labels =>
    labels = [[]] || (labels ≠ [] && fit labels && (labels.all (·.all allowed)) &&
      labels.head?.bind (·.head?) ≠ some '-')

/-- The name that a machine has for itself, whatever its case. -/
def own : String := "localhost"

end HostName

end TreeReplica
