import TreeReplica.CommandLine
import TreeReplica.Network

/-!
The program. It brings the files that the command line names into a volume, lets the library decide,
and prints what comes of it. This build has no sockets: a server cannot listen, and none is reachable. -/

namespace TreeReplica

namespace CommandLine

/-- Where relative paths start in the volume. -/
def startDirectory : Location := ["."]

/-- Brings a file into the volume, if it can be read. -/
def bringIn (v : Volume) (path : String) : IO Volume := do
  try
    let bytes ← IO.FS.readBinFile path
    return (v.place path bytes.data.toList).2
  catch _ => return v

/-- The files that a command looks at. -/
def filesOf (home : String) (config : Option String) : Request → List String
  | .run (.serve path _ _) => (path <|> config).toList
  | .run (.status path dataDir) =>
    match Path.resolve (Config.expandHome home dataDir) path with
    | .ok file => [Path.sidecar file]
    | .error _ => []
  | _ => []

end CommandLine

end TreeReplica

open TreeReplica

def main (args : List String) : IO UInt32 := do
  let home := (← IO.getEnv "HOME").getD "."
  let config ← IO.getEnv "TREESYNC_CONFIG"
  let start :=
    { Volume.empty.setEntry CommandLine.startDirectory .directory with here := CommandLine.startDirectory }
  let files := CommandLine.filesOf home config (CommandLine.parse args)
  let volume ← files.foldlM CommandLine.bringIn start
  let environment : Environment :=
    { home, config, volume,
      dial := fun a => .error (Network.unreached a.host),
      listen := fun _ => .error (.described "no sockets") }
  let outcome := CommandLine.execute environment args
  IO.print outcome.output
  IO.eprint (outcome.report?.getD "error: unexpected arguments or an unreadable configuration\n")
  return .ofNat outcome.code
