import CallAtlas.Atlas.Document
import CallAtlas.FileTree.Directories
import CallAtlas.Options.Resolve
import CallAtlas.Project
import CallAtlas.Session

/-! # A run of the program

The program reads its command line, analyses a project or loads a saved document, and writes one
file into the output directory. A run ends with an exit code, 0 on success and 1 on failure.
-/
namespace CallAtlas.Run

def programName : Bytes := text "exviz"

def version : Bytes := text "0.3.0"

def usage : Bytes :=
  programName ++ text " " ++ version ++
    text " - module and call graphs for Elixir projects\n\n" ++
  (["Usage:",
    "  exviz PROJECT_PATH [OPTIONS]",
    "  exviz --from-json GRAPHS_JSON [OPTIONS]",
    "",
    "Options:",
    "  --format, -f json|dot       Output format (default: json)",
    "  --graph, -g GRAPH           modules, calls, module_calls, both (default)",
    "                              or records (json only)",
    "  --prune A,B                 Module names to omit from DOT output",
    "  --internal-only             Keep only modules defined in the project (default)",
    "  --no-internal-only          Include external and stdlib modules",
    "  --include-tests             Also analyze *_test.exs files",
    "  --output, -o DIR            Output directory (default: ./output)",
    "  --config FILE               Config file (default: PROJECT_PATH/exviz.toml)",
    "  --from-json FILE            Re-render a saved graphs.json",
    "  --help, -h                  Show this help",
    "  --version, -V               Show version",
    "",
    "Logging:",
    "  --log-level=LEVEL           trace, debug, info, warn (default), error, off",
    "  --log-filter=SPEC           Per-module levels, e.g. extract=debug,*=warn",
    "  --log-file=PATH             Also write log records to a file",
    "  --log-format=text|json      Log record format",
    "  -v, -vv, -vvv, -q           Verbosity shortcuts",
    "",
    "Examples:",
    "  exviz ~/src/my_app/lib",
    "  exviz ~/src/my_app/lib --format dot --graph modules",
    "  exviz ~/src/my_app/lib -f dot -g module_calls --prune MyApp.Repo",
    "  exviz --from-json output/graphs.json --format dot"].flatMap fun line =>
      text line ++ text "\n")

def partOf : GraphKind → Document.Part
  | .modules => .modules
  | .calls => .calls
  | .moduleCalls => .moduleCalls
  | _ => .all

def render (o : Options) (a : Atlas) : Log.Logged Bytes :=
  match o.format, o.graph with
  | .json, graph => pure ((Document.ofAtlas (partOf graph) a).pretty 2)
  | .dot, .modules => pure (Dot.modules o.prune a)
  | .dot, .calls => pure (Dot.calls o.prune a)
  | .dot, .moduleCalls => pure (Dot.moduleCalls o.prune a)
  | .dot, _ => Dot.combined o.prune a

/-- The output for a saved document; `none` if it cannot be used. It is shown as it was saved. -/
def fromDocument (t : FileTree) (o : Options) : Log.Logged (Option Bytes) := do
  match t.read? o.fromJson with
  | none =>
    Log.say .error "cli" (text "Cannot read " ++ o.fromJson)
    return none
  | some content =>
    match ← Document.load content with
    | .error e =>
      Log.say .error "cli" (o.fromJson ++ text ": " ++ e.message)
      return none
    | .ok a => return some (← render o a)

def fromProject (t : FileTree) (o : Options) : Log.Logged Bytes := do
  if (t.status? o.projectPath).isNone then
    Log.say .warn "cli" (text "Path does not exist: " ++ o.projectPath)
  render o (← Project.atlas t o.includeTests o.internalOnly o.projectPath)

def content (t : FileTree) (o : Options) : Log.Logged (Option Bytes) := do
  if o.graph = .records then
    return some ((Document.ofRecords (← Project.records t o.includeTests o.projectPath)).pretty 2)
  else if !o.fromJson.isEmpty then fromDocument t o
  else return some (← fromProject t o)

def writeOutput (s : Session) (directory name content : Bytes) : Bool × Session :=
  let path := Path.join directory name
  match s.files.write? path content with
  | some files => (true, { s with files })
  | none => (false, s.log ⟨.error, text "cli", text "Cannot write " ++ path⟩)

/-- Makes the output directory and writes a file into it. -/
def save (s : Session) (directory name content : Bytes) : Nat × Session :=
  match s.files.makeDirectories directory with
  | (files, some e) =>
    (1, { s with files }.log ⟨.error, text "cli",
      text "Cannot create output directory " ++ directory ++ text ": " ++ e.message⟩)
  | (files, none) =>
    match writeOutput { s with files } directory name content with
    | (false, s) => (1, s)
    | (true, s) =>
      (0, s.print (text "✓ Saved " ++ name ++ text "\n\nOutput saved to: " ++
        s.files.absolute directory ++ text "\n"))

def produce (s : Session) (o : Options) : Nat × Session :=
  match outputName? o.format o.graph with
  | none =>
    (1, s.printError (text "error: --graph records is only available with --format json\n"))
  | some name =>
    if o.graph = .records && !o.fromJson.isEmpty then
      (1, s.printError (text "error: --graph records needs a PROJECT_PATH\n"))
    else
      match s.absorb (content s.files o) with
      | (none, s) => (1, s)
      | (some content, s) => save s o.outputDir name content

/-- What a command line asks for, once the log is set up. -/
def command (s : Session) (arguments : List Bytes) : Nat × Session :=
  if arguments.isEmpty then (1, s.printError usage)
  else
    match CommandLine.parse arguments with
    | .error e => (1, s.printError (text "error: " ++ e.message ++ text "\n\n" ++ usage))
    | .ok c =>
      if c.help then (0, s.print usage)
      else if c.version then (0, s.print (programName ++ text " " ++ version ++ text "\n"))
      else
        let (o, s) := s.absorb (Options.resolve s.files c)
        let (code, s) := produce s o
        (code, s.flush)

/-- A whole run: the arguments without the name of the program, the setting of the log in the
environment, and whether errors are shown on a terminal. -/
def run (s : Session) (arguments : List Bytes) (environment : Bytes) (terminal : Bool) :
    Nat × Session :=
  command (s.configure (Log.Config.ofArguments arguments environment) terminal) arguments

end CallAtlas.Run
