import CallAtlas.FileTree.Lookup
import CallAtlas.Options.CommandLine
import CallAtlas.Options.Config

/-! # The options in force

The built-in options come first, then those of the configuration file, then the command line. The
configuration is the file named on the command line or else the one in the root of the project.
-/
namespace CallAtlas

namespace Config

/-- The directory whose configuration applies to a project: the project itself, or where it lies if
it is a single file. -/
def rootOf (t : FileTree) (projectPath : Bytes) : Bytes :=
  if projectPath.isEmpty then t.workingPath
  else if t.isDirectory projectPath then projectPath
  else Path.parent projectPath

/-- The options with a configuration file put over them; `none` if there is no such file. -/
def load (t : FileTree) (path : Bytes) (o : Options) : Log.Logged (Option Options) :=
  match t.status? path with
  | some (.file content) => do
    Log.say .info "config" (text "Loading " ++ path)
    return some (← apply path content o).options
  | _ => pure none

end Config

namespace Options

def flag (b : Bool) : Bytes := if b then text "1" else text "0"

/-- The options that a command line gives with the configuration it leads to. -/
def resolve (t : FileTree) (c : CommandLine) : Log.Logged Options := do
  let start : Options := { projectPath := c.projectPath, fromJson := c.fromJson }
  let configured ←
    if c.configPath.isEmpty then do
      let root := Config.rootOf t (if c.fromJson.isEmpty then c.projectPath else [])
      let found ← Config.load t (Path.join root Config.fileName) start
      pure (found.getD start)
    else do
      match ← Config.load t c.configPath start with
      | some o => pure o
      | none =>
        Log.say .warn "config" (text "Config file not found: " ++ c.configPath)
        pure start
  let o := c.applyTo configured
  Log.say .debug "cli" <|
    text "format=" ++ o.format.name ++ text " graph=" ++ o.graph.name ++
      text " internal_only=" ++ flag o.internalOnly ++
      text " include_tests=" ++ flag o.includeTests ++ text " output=" ++ o.outputDir
  return o

end Options
end CallAtlas
