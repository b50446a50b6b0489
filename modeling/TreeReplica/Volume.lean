import TreeReplica.Path
import TreeReplica.Path.Quoted
import TreeReplica.Table
import TreeReplica.Volume.Content

/-!
A volume: directories and files by location, with exclusive locks on files. Texts lead to locations
the usual way: components one after the other, each of them a directory but the last. Operations that
can fail say why; an operation that fails may have changed something before it did. Main statements:
`lookup_setEntry` and `lookup_removeEntry` give the entry at every location after a change at one. -/

namespace TreeReplica

/-- The names that lead from the top directory to an entry. -/
abbrev Location := List String

inductive Entry
  | directory
  /-- The number tells a file from every other one that is or was at the same location. -/
  | file (id : Nat) (content : Content)
  deriving DecidableEq, Repr

/-- An open file: later operations reach it only as long as it stands where it was opened. -/
structure Handle where
  location : Location
  id : Nat
  deriving DecidableEq, Repr

structure Volume where
  /-- All entries below the top directory, apart by how deep they lie: a deep tree is searched one level
      at a time. -/
  levels : Table Nat (Table Location Entry)
  /-- The number of the next new file. -/
  nextId : Nat
  /-- The files that are locked. -/
  locked : List Nat
  /-- Where relative texts start. -/
  here : Location
  deriving Repr

namespace Volume

def empty : Volume := ⟨.empty, 0, [], []⟩

instance : Inhabited Volume := ⟨empty⟩

/-- The longest name and the longest text of a path, in bytes. -/
def maxName : Nat := 255
def maxText : Nat := 4095

/-- The longest file. -/
def maxSize : Nat := 0x7fffffffffffffff

def pageSize : Nat := 4096

/-- Where the page starts that the longest file cannot fill. -/
def lastPage : Nat := maxSize / pageSize * pageSize

/-- The size that a directory reports. -/
def directorySize : Nat := 4096

def level (v : Volume) (depth : Nat) : Table Location Entry := (v.levels.get? depth).getD .empty

def entries (v : Volume) : List (Location × Entry) := v.levels.values.flatMap (·.entries)

def lookup (v : Volume) (location : Location) : Option Entry :=
  if location = [] then some .directory else (v.level location.length).get? location

def content? (v : Volume) (location : Location) : Option Content :=
  match v.lookup location with
  | some (.file _ content) => some content
  | _ => none

def setLevel (v : Volume) (depth : Nat) (level : Table Location Entry) : Volume :=
  { v with levels := v.levels.insert depth level }

def setEntry (v : Volume) (location : Location) (entry : Entry) : Volume :=
  v.setLevel location.length ((v.level location.length).insert location entry)

def removeEntry (v : Volume) (location : Location) : Volume :=
  v.setLevel location.length ((v.level location.length).erase location)

/-- A new file without content. -/
def create (v : Volume) (location : Location) : Handle × Volume :=
  (⟨location, v.nextId⟩, { v.setEntry location (.file v.nextId .empty) with nextId := v.nextId + 1 })

@[simp]
theorem lookup_top (v : Volume) : v.lookup [] = some .directory := rfl

theorem level_setLevel (v : Volume) (depth other : Nat) (level : Table Location Entry) :
    (v.setLevel depth level).level other = if depth = other then level else v.level other := by
  simp only [Volume.level, setLevel, Table.get?_insert]
  split <;> rfl

theorem lookup_setEntry (v : Volume) {location : Location} (h : location ≠ []) (entry : Entry)
    (other : Location) :
    (v.setEntry location entry).lookup other = if location = other then some entry else v.lookup other := by
  unfold lookup setEntry
  by_cases ho : other = []
  · subst ho
    simp [h]
  · by_cases hl : location.length = other.length
    · simp [ho, level_setLevel, hl]
    · have hne : location ≠ other := fun e => hl (e ▸ rfl)
      simp [ho, level_setLevel, hl, hne]

theorem lookup_removeEntry (v : Volume) {location : Location} (h : location ≠ []) (other : Location) :
    (v.removeEntry location).lookup other = if location = other then none else v.lookup other := by
  unfold lookup removeEntry
  by_cases ho : other = []
  · subst ho
    simp [h]
  · by_cases hl : location.length = other.length
    · simp [ho, level_setLevel, hl]
    · have hne : location ≠ other := fun e => hl (e ▸ rfl)
      simp [ho, level_setLevel, hl, hne]

/-! ### Where a text leads -/

/-- The directory that one component leads to. -/
def enter (v : Volume) (dir : Location) (name : String) : Except IoCause Location :=
  if name = ".." then .ok dir.dropLast
  else if name.utf8ByteSize > maxName then .error .nameTooLong
  else
    match v.lookup (dir ++ [name]) with
    | none => .error .notFound
    | some (.file _ _) => .error .notDirectory
    | some .directory => .ok (dir ++ [name])

/-- The directory that some components lead to. -/
def walk (v : Volume) : Location → List String → Except IoCause Location
  | dir, [] => .ok dir
  | dir, name :: names =>
    match v.enter dir name with
    | .error e => .error e
    | .ok dir => walk v dir names

/-- Where a text leads. -/
inductive Spot
  /-- A directory that the text names only by `.`, by `..` or as the top. -/
  | directory (location : Location)
  /-- A name inside a directory; there need not be an entry. A slash behind the name asks for a
      directory. -/
  | inside (dir : Location) (name : String) (slash : Bool)
  deriving DecidableEq, Repr

/-- What no text of a path may be. -/
def badText? (path : String) : Option IoCause :=
  if '\x00' ∈ path.toList then some .nulInPath
  else if path = "" then some .notFound
  else if path.utf8ByteSize > maxText then some .nameTooLong
  else none

def start (v : Volume) (path : String) : Location := if Path.absolute path then [] else v.here

def locate (v : Volume) (path : String) : Except IoCause Spot :=
  match badText? path with
  | some e => .error e
  | none =>
    let names := Path.names path
    match ((Path.pieces path).filter (· ≠ "")).getLast? with
    | some name =>
      if name = "." || name = ".." then (v.walk (v.start path) names).map .directory
      else
        (v.walk (v.start path) names.dropLast).map fun dir =>
          .inside dir name ((Path.pieces path).getLast? = some "")
    | none => (v.walk (v.start path) names).map .directory

/-- The location and the entry that a text leads to. -/
def find (v : Volume) (path : String) : Except IoCause (Location × Entry) :=
  match v.locate path with
  | .error e => .error e
  | .ok (.directory location) => .ok (location, .directory)
  | .ok (.inside dir name slash) =>
    if name.utf8ByteSize > maxName then .error .nameTooLong
    else
      match v.lookup (dir ++ [name]) with
      | none => .error .notFound
      | some (.file id content) =>
        if slash then .error .notDirectory else .ok (dir ++ [name], .file id content)
      | some .directory => .ok (dir ++ [name], .directory)

def present (v : Volume) (path : String) : Bool :=
  match v.find path with
  | .ok _ => true
  | .error _ => false

def sizeOf (v : Volume) (path : String) : Except IoCause Nat :=
  match v.find path with
  | .error e => .error e
  | .ok (_, .file _ content) => .ok content.size
  | .ok (_, .directory) => .ok directorySize

/-! ### Directories -/

def isDirectory (v : Volume) (path : String) : Bool :=
  match v.find path with
  | .ok (_, .directory) => true
  | _ => false

/-- Makes one directory. A text that ends in `.` or `..` names a directory that is there already. -/
def makeDirectory (v : Volume) (path : String) : Except IoCause Unit × Volume :=
  match v.locate path with
  | .error e => (.error e, v)
  | .ok (.directory _) => (.error .alreadyExists, v)
  | .ok (.inside dir name _) =>
    if name.utf8ByteSize > maxName then (.error .nameTooLong, v)
    else
      match v.lookup (dir ++ [name]) with
      | some _ => (.error .alreadyExists, v)
      | none => (.ok (), v.setEntry (dir ++ [name]) .directory)

def ensureDirectory (v : Volume) (path : String) : Except IoCause Unit × Volume :=
  match v.makeDirectory path with
  | (.error e, v) => (if v.isDirectory path then .ok () else .error e, v)
  | made => made

/-- Makes those of the directories on a way that are missing. -/
def fill (v : Volume) (dir : Location) : List String → Except IoCause Unit × Volume
  | [] => (.ok (), v)
  | name :: names =>
    match v.enter dir name with
    | .ok dir => v.fill dir names
    | .error .notFound => (v.setEntry (dir ++ [name]) .directory).fill (dir ++ [name]) names
    | .error .notDirectory => (.error .alreadyExists, v)
    | .error e => (.error e, v)

/-- Makes a directory, and if something on the way to it is missing, that first. No text, no directory. -/
def createDirectories (v : Volume) (path : String) : Except IoCause Unit × Volume :=
  if path = "" then (.ok (), v)
  else
    match v.ensureDirectory path with
    | (.error .notFound, v) =>
      match v.fill (v.start path) (Path.names path).dropLast with
      | (.ok (), v) => v.ensureDirectory path
      | failed => failed
    | done => done

/-! ### Files -/

/-- Opens a file for reading and writing; a missing one is created empty. -/
def openOrCreate (v : Volume) (path : String) : Except IoCause Handle × Volume :=
  match v.locate path with
  | .error e => (.error e, v)
  | .ok (.directory _) => (.error .isDirectory, v)
  | .ok (.inside dir name slash) =>
    if slash then (.error .isDirectory, v)
    else if name.utf8ByteSize > maxName then (.error .nameTooLong, v)
    else
      match v.lookup (dir ++ [name]) with
      | some .directory => (.error .isDirectory, v)
      | some (.file id _) => (.ok ⟨dir ++ [name], id⟩, v)
      | none =>
        let (handle, v) := v.create (dir ++ [name])
        (.ok handle, v)

def read? (v : Volume) (h : Handle) : Option Content :=
  match v.lookup h.location with
  | some (.file id content) => if id = h.id then some content else none
  | _ => none

def modify (v : Volume) (h : Handle) (f : Content → Content) : Volume :=
  match v.read? h with
  | some content => v.setEntry h.location (.file h.id (f content))
  | none => v

def resize (v : Volume) (h : Handle) (size : Nat) : Except IoCause Unit × Volume :=
  if size > maxSize then (.error .lengthOverflow, v) else (.ok (), v.modify h (·.resize size))

def discard (v : Volume) (h : Handle) : Volume :=
  match v.lookup h.location with
  | some (.file _ _) => v.removeEntry h.location
  | _ => v

/-- Moves an open file to where a text leads, in place of a file that is there. A directory is not
    replaced, and one that holds the file is reported as not empty. -/
def move (v : Volume) (h : Handle) (path : String) : Except IoCause Unit × Volume :=
  match v.locate path with
  | .error e => (.error e, v)
  | .ok (.directory _) => (.error .busy, v)
  | .ok (.inside dir name slash) =>
    let target := dir ++ [name]
    match v.read? h with
    | none => (.error .notFound, v)
    | some content =>
      if name.utf8ByteSize > maxName then (.error .nameTooLong, v)
      else if slash then (.error .notDirectory, v)
      else
        match v.lookup target with
        | some .directory =>
          (.error (if target.isPrefixOf h.location then .notEmpty else .isDirectory), v)
        | _ => (.ok (), (v.removeEntry h.location).setEntry target (.file h.id content))

/-- Replaces what is in a file, which is created if it is missing. -/
def writeFile (v : Volume) (path : String) (bytes : Bytes) : Except IoCause Unit × Volume :=
  match v.openOrCreate path with
  | (.error e, v) => (.error e, v)
  | (.ok h, v) => (.ok (), v.modify h fun _ => .ofBytes bytes)

def removeFile (v : Volume) (path : String) : Except IoCause Unit × Volume :=
  match v.find path with
  | .error e => (.error e, v)
  | .ok (_, .directory) => (.error .isDirectory, v)
  | .ok (location, .file _ _) => (.ok (), v.removeEntry location)

/-- Puts a file in its place, with the directories above it. -/
def place (v : Volume) (path : String) (bytes : Bytes) : Except IoCause Unit × Volume :=
  match v.createDirectories (Path.parent path) with
  | (.error e, v) => (.error e, v)
  | (.ok (), v) => v.writeFile path bytes

/-- The entries below a directory, each with the names that lead to it from there. -/
def below (v : Volume) (dir : Location) : List (Location × Entry) :=
  v.entries.filterMap fun (location, entry) =>
    if dir.isPrefixOf location && location ≠ dir then some (location.drop dir.length, entry) else none

/-! ### Staging files -/

/-- A number in at least six digits. -/
def label (n : Nat) : String :=
  .ofList (List.replicate (6 - (Nat.toDigits 10 n).length) '0' ++ Nat.toDigits 10 n)

/-- The name of a staging file for content that is to become `name`. -/
def stagingName (name : String) (n : Nat) : String := s!".{name}.{label n}{Path.stagingSuffix}"

/-- The first number from the next file's on whose staging name is free. -/
def freeNumber (v : Volume) (dir : Location) (name : String) : Nat :=
  ((List.range (v.entries.length + 1)).map (v.nextId + ·)).find?
    (fun n => (v.lookup (dir ++ [stagingName name n])).isNone) |>.getD v.nextId

/-- A new empty file in the directory of this text, under a name of its own. A failure reports the
    text of that name. -/
def createStaging (v : Volume) (dir name : String) : Except IoCause Handle × Volume :=
  let path := Path.join dir (stagingName name v.nextId)
  match v.locate path with
  | .error e => (.error (.atPath e (quoted path)), v)
  | .ok (.directory _) => (.error (.atPath .isDirectory (quoted path)), v)
  | .ok (.inside dir staged _) =>
    if staged.utf8ByteSize > maxName then (.error (.atPath .nameTooLong (quoted path)), v)
    else
      let (handle, v) := v.create (dir ++ [stagingName name (v.freeNumber dir name)])
      (.ok handle, v)

/-! ### Locks -/

def isLocked (v : Volume) (h : Handle) : Bool := v.locked.contains h.id

def lock (v : Volume) (h : Handle) : Volume := { v with locked := h.id :: v.locked }

def unlock (v : Volume) (h : Handle) : Volume := { v with locked := v.locked.filter (· ≠ h.id) }

end Volume

end TreeReplica
