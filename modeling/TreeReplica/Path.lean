import TreeReplica.Fault
import TreeReplica.Pieces

/-!
Path texts: components between slashes, joining, the file a text names, and which texts name a
tracked path. Repeated slashes, `.` components and trailing slashes are part of a text but say nothing
about where it leads; `names` leaves them out. -/

namespace TreeReplica

namespace Path

/-! ### Text and components -/

/-- The pieces of a text between its slashes; there is always at least one. -/
def pieces (path : String) : List String := (TreeReplica.pieces '/' path.toList).map .ofList

/-- A piece that leads nowhere. -/
def blank (piece : String) : Bool := piece = "" || piece = "."

/-- The components that lead somewhere, in order; `..` leads up. -/
def names (path : String) : List String := (pieces path).filter (!blank ·)

def absolute (path : String) : Bool := path.toList.head? = some '/'

/-- Puts a text below another one. An absolute text stays where it is. -/
def join (base path : String) : String :=
  if base = "" || absolute path then path
  else if base.toList.getLast? = some '/' then base ++ path
  else base ++ "/" ++ path

/-- The last component, unless it leads up or there is none. -/
def fileName? (path : String) : Option String :=
  (names path).getLast?.filter (· ≠ "..")

/-- Pieces without the blank ones at their end. -/
def trimEnd (ps : List String) : List String := (ps.reverse.dropWhile blank).reverse

/-- Pieces without the last component, and without the blank ones around it. -/
def dropName (ps : List String) : List String := trimEnd (trimEnd ps).dropLast

/-- The text of the directory that holds the last component. What stands before that component stays
    as it is written. -/
def parent (path : String) : String :=
  match pieces path with
  | [""] => ""
  | "" :: body => "/" ++ "/".intercalate (dropName body)
  | "." :: body => if trimEnd body = [] then "" else "/".intercalate ("." :: dropName body)
  | body => "/".intercalate (dropName body)

/-! ### Tracked paths -/

/-- What the names of version records and of staging files end in. -/
def recordSuffix : String := ".tsmeta"
def stagingSuffix : String := ".tsstage"

/-- Names that are kept for version records and staging files. -/
def reserved (name : String) : Bool :=
  recordSuffix.toList.isSuffixOf name.toList || stagingSuffix.toList.isSuffixOf name.toList

/-- The longest relative path, in bytes. -/
def maxLength : Nat := 4096

/-- Why a relative text names no tracked path, if it does not. The first fault in this order counts. -/
def fault? (path : String) : Option PathFault :=
  if path = "" then some .empty
  else if path.utf8ByteSize > maxLength then some (.tooLong path.utf8ByteSize maxLength)
  else if absolute path then some (.absolute path)
  else if ".." ∈ names path then some (.traversal path)
  else
    match fileName? path with
    | none => some (.noFileName path)
    | some name => if reserved name then some (.reserved path) else none

/-- The full text of a tracked path below `root`. -/
def resolve (root path : String) : Except Fault String :=
  match fault? path with
  | some fault => .error (.invalidPath fault)
  | none => .ok (join root path)

/-- The name of the version record of a file called `name`. -/
def recordName (name : String) : String := s!".{name}{recordSuffix}"

/-- The text of the version record that stands beside a file. -/
def sidecar (file : String) : String :=
  match fileName? file with
  | some name => join (parent file) (recordName name)
  | none => join file (recordName "")

end Path

end TreeReplica
