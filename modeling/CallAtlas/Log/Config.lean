import CallAtlas.Log.Line

/-! # Log settings

The settings come from the logging options on the command line. If these give neither a level nor
a filter, the environment may give one of them.
-/
namespace CallAtlas.Log

structure Config where
  level : Level := .warn
  format : LineFormat := .text
  filter : Bytes := []
  /-- A file that entries are added to, if the name is not empty. -/
  file : Bytes := []
  console : Bool := true
  colors : Bool := true
  deriving DecidableEq, Repr

inductive Flag where
  | level (level : Level)
  | filter (spec : Bytes)
  | file (path : Bytes)
  | format (format : LineFormat)
  | verbose (count : Nat)
  deriving DecidableEq, Repr

namespace Flag

def after? (mark : String) (t : Bytes) : Option Bytes :=
  if (text mark).isPrefixOf t then some (t.drop (text mark).length) else none

/-- The number of letters in `-v`, `-vv` and so on. -/
def verbosity? (t : Bytes) : Option Nat :=
  match t with
  | dash :: letters =>
    if dash = '-' ∧ letters ≠ [] ∧ letters.all fun (b : UInt8) => b = 'v' then some letters.length
    else none
  | [] => none

def formatOf (t : Bytes) : LineFormat :=
  if t = text "json" ∨ t = text "JSON" then .json else .text

def parse? (t : Bytes) : Option Flag :=
  if t = text "-q" ∨ t = text "--quiet" then some (.level .error)
  else if t = text "--verbose" then some (.verbose 1)
  else
    ((after? "--log-level=" t).map fun v => .level (Level.parse v))
      <|> ((after? "--log-filter=" t).map .filter)
      <|> ((after? "--log-file=" t).map .file)
      <|> ((after? "--log-format=" t).map fun v => .format (formatOf v))
      <|> ((verbosity? t).map .verbose)

end Flag

structure Reading where
  config : Config := {}
  levelGiven : Bool := false
  filterGiven : Bool := false
  verbosity : Nat := 0

namespace Reading

/-- Takes up one option; a later one of the same kind wins, but the highest verbosity counts. -/
def add (r : Reading) : Flag → Reading
  | .level level => { r with config := { r.config with level }, levelGiven := true }
  | .filter spec => { r with config := { r.config with filter := spec }, filterGiven := true }
  | .file path => { r with config := { r.config with file := path } }
  | .format format => { r with config := { r.config with format } }
  | .verbose count => { r with verbosity := max r.verbosity count }

end Reading

def verboseLevel (count : Nat) : Level :=
  if 3 ≤ count then .trace else if count = 2 then .debug else .info

namespace Config

/-- Takes up the setting from the environment: a filter if it has an equals sign or a comma, else
a level. -/
def addEnvironment (c : Config) (setting : Bytes) : Config :=
  if setting.isEmpty then c
  else if setting.any fun (b : UInt8) => b = '=' || b = ',' then { c with filter := setting }
  else { c with level := Level.parse setting }

/-- The settings that arguments and environment give. A level given as such wins over verbosity. -/
def ofArguments (arguments : List Bytes) (environment : Bytes) : Config :=
  let r := (arguments.filterMap Flag.parse?).foldl Reading.add {}
  if r.levelGiven then r.config
  else if 0 < r.verbosity then { r.config with level := verboseLevel r.verbosity }
  else if r.filterGiven then r.config
  else r.config.addEnvironment environment

end Config
end CallAtlas.Log
