import CallAtlas.Atlas.Dot
import CallAtlas.Log.Config
import CallAtlas.Options

/-! # The command line

An argument is a logging option, which is passed over here, a flag, an option with a value or the
path of a project. A value follows its option as the next argument or, behind a long name, after an
equals sign.
-/
namespace CallAtlas

inductive UsageError where
  | missingValue (name : Bytes)
  | unknownFormat (value : Bytes)
  | unknownGraph (value : Bytes)
  | unknownOption (name : Bytes)
  | unexpectedArgument (argument : Bytes)
  | missingPath
  | pathAndDocument
  deriving DecidableEq, Repr

def UsageError.message : UsageError → Bytes
  | .missingValue name => text "missing value for " ++ name
  | .unknownFormat value => text "unknown format '" ++ value ++ text "' (expected json or dot)"
  | .unknownGraph value =>
    text "unknown graph '" ++ value ++
      text "' (expected modules, calls, module_calls, both or records)"
  | .unknownOption name => text "unknown option " ++ name
  | .unexpectedArgument argument => text "unexpected argument '" ++ argument ++ text "'"
  | .missingPath => text "missing PROJECT_PATH"
  | .pathAndDocument => text "PROJECT_PATH and --from-json are mutually exclusive"

inductive SwitchOption where
  | help | version | internalOnly | noInternalOnly | includeTests
  deriving DecidableEq, Repr

def SwitchOption.ofName? (name : Bytes) : Option SwitchOption :=
  [(text "--help", .help), (text "-h", .help), (text "--version", .version), (text "-V", .version),
    (text "--internal-only", .internalOnly), (text "--no-internal-only", .noInternalOnly),
    (text "--include-tests", .includeTests)].lookup name

inductive ValueOption where
  | format | graph | prune | output | config | fromJson
  deriving DecidableEq, Repr

def ValueOption.ofName? (name : Bytes) : Option ValueOption :=
  [(text "--format", .format), (text "-f", .format), (text "--graph", .graph), (text "-g", .graph),
    (text "--prune", .prune), (text "--output", .output), (text "-o", .output),
    (text "--config", .config), (text "--from-json", .fromJson)].lookup name

/-- What a command line asks for; `none` where it says nothing. -/
structure CommandLine where
  projectPath : Bytes := []
  fromJson : Bytes := []
  configPath : Bytes := []
  help : Bool := false
  version : Bool := false
  format : Option Format := none
  graph : Option GraphKind := none
  prune : Option (List Bytes) := none
  internalOnly : Option Bool := none
  includeTests : Option Bool := none
  outputDir : Option Bytes := none
  deriving DecidableEq, Repr

namespace CommandLine

def switch (c : CommandLine) : SwitchOption → CommandLine
  | .help => { c with help := true }
  | .version => { c with version := true }
  | .internalOnly => { c with internalOnly := some true }
  | .noInternalOnly => { c with internalOnly := some false }
  | .includeTests => { c with includeTests := some true }

def setValue (c : CommandLine) (option : ValueOption) (value : Bytes) :
    Except UsageError CommandLine :=
  match option with
  | .format =>
    match Format.parse? value with
    | some format => .ok { c with format := some format }
    | none => .error (.unknownFormat value)
  | .graph =>
    match GraphKind.parse? value with
    | some graph => .ok { c with graph := some graph }
    | none => .error (.unknownGraph value)
  | .prune => .ok { c with prune := some (Dot.parsePruneList value) }
  | .output => .ok { c with outputDir := some value }
  | .config => .ok { c with configPath := value }
  | .fromJson => .ok { c with fromJson := value }

/-- Splits `--name=value`; any other argument is all name. -/
def splitValue (argument : Bytes) : Bytes × Option Bytes :=
  if (text "--").isPrefixOf argument then Bytes.cut '=' argument else (argument, none)

/-- Takes up an argument that is no option with a value. A lone dash is a path. -/
def addWord (c : CommandLine) (argument name : Bytes) : Except UsageError CommandLine :=
  match SwitchOption.ofName? name with
  | some option => .ok (c.switch option)
  | none =>
    if (text "-").isPrefixOf name && 1 < name.length then .error (.unknownOption name)
    else if c.projectPath.isEmpty then .ok { c with projectPath := argument }
    else .error (.unexpectedArgument argument)

def addAll (c : CommandLine) : List Bytes → Except UsageError CommandLine
  | [] => .ok c
  | argument :: rest =>
    if (Log.Flag.parse? argument).isSome then addAll c rest
    else
      let (name, inline) := splitValue argument
      match ValueOption.ofName? name with
      | none => do addAll (← c.addWord argument name) rest
      | some option =>
        match inline with
        | some value => do addAll (← c.setValue option value) rest
        | none =>
          match rest with
          | value :: rest => do addAll (← c.setValue option value) rest
          | [] => .error (.missingValue name)

/-- Exactly one of a project and a saved document has to be given, unless only help or the version
is asked for. -/
def check (c : CommandLine) : Except UsageError CommandLine :=
  if c.help || c.version then .ok c
  else if c.projectPath.isEmpty && c.fromJson.isEmpty then .error .missingPath
  else if !c.projectPath.isEmpty && !c.fromJson.isEmpty then .error .pathAndDocument
  else .ok c

def parse (arguments : List Bytes) : Except UsageError CommandLine := do
  (← addAll {} arguments).check

def applyTo (c : CommandLine) (o : Options) : Options :=
  { o with
    format := c.format.getD o.format
    graph := c.graph.getD o.graph
    prune := c.prune.getD o.prune
    internalOnly := c.internalOnly.getD o.internalOnly
    includeTests := c.includeTests.getD o.includeTests
    outputDir := c.outputDir.getD o.outputDir }

end CommandLine
end CallAtlas
