import TreeReplica.Address
import TreeReplica.Client
import TreeReplica.CommandLine.Arguments
import TreeReplica.Server

/-!
The command line: `serve` a tree, print the `status` of a path, `ping` a server. What a command does
depends on the files, the home directory and the network that it finds; `Outcome` is what it leaves
behind. -/

namespace TreeReplica

inductive Command
  | serve (config listen dataDir : Option String)
  | status (path dataDir : String)
  | ping (address : String)
  deriving DecidableEq, Repr

/-- What a command finds. -/
structure Environment where
  home : String
  /-- The configuration file that is used where the arguments name none. -/
  config : Option String
  volume : Volume
  /-- All that a server at an address sends to a client that says hello and pings it once. -/
  dial : Address → Except IoCause Bytes
  /-- Whether the address can be listened on. -/
  listen : Address → Except IoCause Unit

/-- A failure, with what was being done when it came, if that is worth saying. -/
structure Failure where
  doing : Option String
  error : Fault
  deriving DecidableEq, Repr

inductive Outcome
  /-- The command is done and has printed this. -/
  | printed (text : String)
  | failed (failure : Failure)
  /-- The arguments make no sense. -/
  | misused
  /-- The server runs until it is stopped. -/
  | serving
  deriving DecidableEq, Repr

namespace Failure

/-- The texts of a failure, from the outside in. -/
def chain (f : Failure) : List String :=
  f.doing.toList ++ [f.error.message] ++ (f.error.cause?.map IoCause.message).toList

/-- Lines behind the first one stand under it. -/
def indent (margin : String) (text : String) : String :=
  ("\n" ++ margin).intercalate (text.splitOn "\n")

/-- The report of a failure: what failed, then its causes. Several causes are numbered. -/
def report (f : Failure) : String :=
  match f.chain with
  | [] => "Error: \n"
  | [outer] => s!"Error: {outer}\n"
  | [outer, cause] => s!"Error: {outer}\n\nCaused by:\n    " ++ indent "    " cause ++ "\n"
  | outer :: causes =>
    let lines := (List.range causes.length).zip causes |>.map fun (n, cause) =>
      s!"\n    {n}: " ++ indent "       " cause
    s!"Error: {outer}\n\nCaused by:" ++ String.join lines ++ "\n"

/-- Whether the wording of the report is not this library's: it quotes why a document is none. -/
def foreign (f : Failure) : Bool := f.error = .config .unreadable

end Failure

namespace Outcome

def code : Outcome → Nat
  | printed _ | serving => 0
  | failed _ => 1
  | misused => 2

def output : Outcome → String
  | printed text => text
  | _ => ""

/-- What goes to standard error; none where the wording is not fixed. -/
def report? : Outcome → Option String
  | printed _ | serving => some ""
  | failed f => if f.foreign then none else some f.report
  | misused => none

end Outcome

namespace CommandLine

/-! ### Arguments -/

open Arguments (Switch Found)

def programName : String := "treesync"
def programVersion : String := "0.1.0"

def verbose : Switch := ⟨'v', "verbose", false, true⟩
def configSwitch : Switch := ⟨'c', "config", true, false⟩
def listenSwitch : Switch := ⟨'l', "listen", true, true⟩
def dataDirSwitch : Switch := ⟨'d', "data-dir", true, false⟩

/-- The text that lists a command's arguments and switches. -/
def helpOf : String → Option String
  | "" => some <|
    "Keep a file tree in sync across machines\n\nUsage: treesync [OPTIONS] <COMMAND>\n\nCommands:\n" ++
    "  serve   Serve a tree to peers\n" ++
    "  status  Print the version record of a tracked path\n" ++
    "  ping    Check that a server is reachable and speaks our protocol\n" ++
    "  help    Print this message or the help of the given subcommand(s)\n\nOptions:\n" ++
    "  -v, --verbose  Enable verbose logging\n" ++
    "  -h, --help     Print help\n" ++
    "  -V, --version  Print version\n"
  | "serve" => some <|
    "Serve a tree to peers\n\nUsage: treesync serve [OPTIONS]\n\nOptions:\n" ++
    "  -c, --config <CONFIG>      TOML configuration file [env: TREESYNC_CONFIG=]\n" ++
    "  -v, --verbose              Enable verbose logging\n" ++
    "  -l, --listen <LISTEN>      Address to listen on (overrides the config file)\n" ++
    "  -d, --data-dir <DATA_DIR>  Root of the synchronized tree (overrides the config file)\n" ++
    "  -h, --help                 Print help\n"
  | "status" => some <|
    "Print the version record of a tracked path\n\nUsage: treesync status [OPTIONS] <PATH>\n\n" ++
    "Arguments:\n  <PATH>  Path relative to the tree root\n\nOptions:\n" ++
    "  -d, --data-dir <DATA_DIR>  [default: .]\n" ++
    "  -v, --verbose              Enable verbose logging\n" ++
    "  -h, --help                 Print help\n"
  | "ping" => some <|
    "Check that a server is reachable and speaks our protocol\n\n" ++
    "Usage: treesync ping [OPTIONS] <ADDR>\n\n" ++
    "Arguments:\n  <ADDR>  Server address, e.g. 127.0.0.1:7420\n\nOptions:\n" ++
    "  -v, --verbose  Enable verbose logging\n" ++
    "  -h, --help     Print help\n"
  | "help" => some <|
    "Print this message or the help of the given subcommand(s)\n\n" ++
    "Usage: treesync help [COMMAND]...\n\n" ++
    "Arguments:\n  [COMMAND]...  Print help for the subcommand(s)\n"
  | _ => none

inductive Request
  | run (command : Command)
  | print (text : String)
  | misuse
  deriving DecidableEq, Repr

def printHelp (command : String) : Request :=
  match helpOf command with
  | some text => .print text
  | none => .misuse

/-- The switches of a command, how many operands it takes, and the command that its arguments make. -/
def commandOf : String → Option (List Switch × Nat × (Found → Option Command))
  | "serve" => some ([configSwitch, listenSwitch, dataDirSwitch, verbose], 0, fun f =>
    some (.serve (f.value? "config") (f.value? "listen") (f.value? "data-dir")))
  | "status" => some ([dataDirSwitch, verbose], 1, fun f =>
    f.operands.head?.map fun path => .status path ((f.value? "data-dir").getD "."))
  | "ping" => some ([verbose], 1, fun f => f.operands.head?.map .ping)
  | _ => none

def parse (args : List String) : Request :=
  match Arguments.read [verbose] true 0 args ⟨[], []⟩ with
  | .found _ | .misuse => .misuse
  | .help => printHelp ""
  | .version => .print s!"{programName} {programVersion}\n"
  | .command _ "help" rest =>
    match rest with
    | [] => printHelp ""
    | [name] => if name = "" then .misuse else printHelp name
    | _ => .misuse
  | .command _ name rest =>
    match commandOf name with
    | none => .misuse
    | some (switches, room, make) =>
      match Arguments.read switches false room rest ⟨[], []⟩ with
      | .found f => (make f).elim .misuse .run
      | .help => printHelp name
      | _ => .misuse

/-! ### Commands -/

def load (e : Environment) (path : String) : Except Fault Config :=
  match e.volume.find path with
  | .error cause => .error (.config (.missing path cause))
  | .ok (_, .directory) => .error (.config (.missing path .isDirectory))
  | .ok (_, .file _ content) =>
    match Bytes.text? content.toList with
    | none => .error (.config (.missing path (.described "stream did not contain valid UTF-8")))
    | some document => Config.read e.home document

/-- Opens a server: the configuration must be sound, the tree is created if it is missing, and the
    address must be free. -/
def bind (e : Environment) (c : Config) : Except Fault Unit := do
  c.validate
  if !e.volume.present c.dataDir then
    (e.volume.createDirectories c.dataDir).1.mapError .io
  let refused := fun cause => Fault.config (.cannotListen c.listenAddress cause)
  let address ← (Address.resolve c.listenAddress).mapError refused
  (e.listen address).mapError refused

def serve (e : Environment) (config listen dataDir : Option String) : Outcome :=
  let loaded : Except Failure Config :=
    match config <|> e.config with
    | none => .ok .default
    | some path => (load e path).mapError fun error => ⟨some s!"loading {path}", error⟩
  match loaded with
  | .error f => .failed f
  | .ok c =>
    let c := { c with
      listenAddress := listen.getD c.listenAddress
      dataDir := (dataDir.map (Config.expandHome e.home)).getD c.dataDir }
    match bind e c with
    | .error error => .failed ⟨some "starting server", error⟩
    | .ok () => .serving

def status (e : Environment) (path dataDir : String) : Outcome :=
  match (Store.mk (Config.expandHome e.home dataDir)).inspect path e.volume with
  | .error error => .failed ⟨none, error⟩
  | .ok (some record) => .printed s!"{path}: {record.text}\n"
  | .ok none => .printed s!"{path}: untracked\n"

/-- Says hello to a server and pings it once. The time that took is not part of the model; its place
    stays empty. -/
def ping (e : Environment) (text : String) : Outcome :=
  match (Address.resolve text).bind e.dial with
  | .error cause => .failed ⟨some s!"connecting to {text}", .io cause⟩
  | .ok stream =>
    match (Client.connect stream Config.default.maxMessageSize).hello with
    | (.error error, _) => .failed ⟨none, error⟩
    | (.ok version, client) =>
      match client.ping 1 with
      | (.error error, _) => .failed ⟨none, error⟩
      | (.ok (), _) => .printed s!"{text}: protocol v{version}, round trip "

def run (e : Environment) : Command → Outcome
  | .serve config listen dataDir => serve e config listen dataDir
  | .status path dataDir => status e path dataDir
  | .ping address => ping e address

def execute (e : Environment) (args : List String) : Outcome :=
  match parse args with
  | .misuse => .misused
  | .print text => .printed text
  | .run command => run e command

end CommandLine

end TreeReplica
