/-!
Arguments of a command line: switches by letter or by word, with or without a value, and operands. The
first thing that does not fit ends the reading. -/

namespace TreeReplica

namespace Arguments

/-- A switch that a command knows. -/
structure Switch where
  letter : Char
  word : String
  /-- Whether it takes a value, and whether that may be empty. -/
  takesValue : Bool
  mayBeEmpty : Bool
  deriving DecidableEq, Repr

/-- What has been read: values of switches by word, and operands, in order. -/
structure Found where
  switches : List (String × String)
  operands : List String
  deriving DecidableEq, Repr

def Found.value? (f : Found) (word : String) : Option String := f.switches.lookup word

inductive Result
  | found (f : Found)
  /-- The first operand names a command that reads the rest. -/
  | command (f : Found) (name : String) (rest : List String)
  | help
  | version
  | misuse
  deriving Repr

/-- Whether an argument is a switch rather than a value. -/
def isSwitch (arg : String) : Bool :=
  match arg.toList with
  | '-' :: _ :: _ => true
  | _ => false

/-- Notes a switch; it may stand only once. -/
def note (s : Switch) (value : String) (f : Found) : Option Found :=
  if (f.value? s.word).isSome || (s.takesValue && !s.mayBeEmpty && value = "") then none
  else some { f with switches := f.switches ++ [(s.word, value)] }

/-- What one argument says. -/
inductive Reading
  | switches (f : Found)
  /-- The next argument is the value of a switch. -/
  | wants (s : Switch) (f : Found)
  | operand
  /-- Only operands follow. -/
  | operands
  | stop (r : Result)

def noted (f : Option Found) : Reading :=
  match f with
  | some f => .switches f
  | none => .stop .misuse

/-- Reads the letters of one argument. What follows the letter of a switch with a value is its value,
    an equals sign in between apart. -/
def letters (known : List Switch) (versioned : Bool) : List Char → Found → Reading
  | [], f => .switches f
  | c :: rest, f =>
    match known.find? (·.letter = c) with
    | some s =>
      if s.takesValue then
        match rest with
        | [] => .wants s f
        | '=' :: value => noted (note s (.ofList value) f)
        | value => noted (note s (.ofList value) f)
      else
        match note s "" f with
        | some f => letters known versioned rest f
        | none => .stop .misuse
    | none =>
      if c = 'h' then .stop .help
      else if c = 'V' && versioned then .stop .version
      else .stop .misuse

/-- Reads a switch that is written as a word. -/
def word (known : List Switch) (versioned : Bool) (name : String) (value : Option String) (f : Found) :
    Reading :=
  match known.find? (·.word = name), value with
  | none, some _ => .stop .misuse
  | none, none =>
    if name = "help" then .stop .help
    else if name = "version" && versioned then .stop .version
    else .stop .misuse
  | some s, some value => if s.takesValue then noted (note s value f) else .stop .misuse
  | some s, none => if s.takesValue then .wants s f else noted (note s "" f)

/-- Splits a word from a value behind an equals sign. -/
def splitValue (chars : List Char) : String × Option String :=
  match chars.dropWhile (· ≠ '=') with
  | _ :: value => (.ofList (chars.takeWhile (· ≠ '=')), some (.ofList value))
  | [] => (.ofList chars, none)

def argument (known : List Switch) (versioned : Bool) (arg : String) (f : Found) : Reading :=
  match arg.toList with
  | ['-', '-'] => .operands
  | '-' :: '-' :: chars => word known versioned (splitValue chars).1 (splitValue chars).2 f
  | '-' :: c :: cs => letters known versioned (c :: cs) f
  | _ => .operand

/-- Reads arguments, of which at most `room` may be operands. With `commands`, the first operand must
    name a command instead, and there is a version to ask for. -/
def read (known : List Switch) (commands : Bool) (room : Nat) : List String → Found → Result
  | [], f => .found f
  | arg :: rest, f =>
    match argument known commands arg f with
    | .switches f => read known commands room rest f
    | .stop r => r
    | .operands =>
      let f := { f with operands := f.operands ++ rest }
      if f.operands.length ≤ room then .found f else .misuse
    | .operand =>
      if commands then .command f arg rest
      else if f.operands.length < room then
        read known commands room rest { f with operands := f.operands ++ [arg] }
      else .misuse
    | .wants s f =>
      match rest with
      | [] => .misuse
      | value :: rest =>
        if isSwitch value then .misuse
        else
          match note s value f with
          | some f => read known commands room rest f
          | none => .misuse

end Arguments

end TreeReplica
