import CallAtlas.Atlas.Dot
import CallAtlas.Log.Level
import CallAtlas.Options

/-! # The configuration file

A configuration has lines `key = value` under the header `[exviz]`; other sections are passed over.
A value is a text in quotes or one of `true` and `false`, and `#` outside quotes starts a comment.
Lines that cannot be used are reported and change nothing.
-/
namespace CallAtlas.Config

def fileName : Bytes := text "exviz.toml"

/-- A line that gives an option its value. -/
inductive Setting where
  | format (value : Format)
  | graph (value : GraphKind)
  | prune (value : List Bytes)
  | outputDir (value : Bytes)
  | internalOnly (value : Bool)
  | includeTests (value : Bool)
  deriving DecidableEq, Repr

def Setting.apply (o : Options) : Setting → Options
  | .format value => { o with format := value }
  | .graph value => { o with graph := value }
  | .prune value => { o with prune := value }
  | .outputDir value => { o with outputDir := value }
  | .internalOnly value => { o with internalOnly := value }
  | .includeTests value => { o with includeTests := value }

/-- Why a line is of no use. -/
inductive Fault where
  | noAssignment
  | needsText (key : Bytes)
  | needsBool (key : Bytes)
  | unknownFormat (value : Bytes)
  | unknownGraph (value : Bytes)
  | unknownKey (key : Bytes)
  deriving DecidableEq, Repr

def Fault.message : Fault → Bytes
  | .noAssignment => text "expected 'key = value', ignoring line"
  | .needsText key => text "'" ++ key ++ text "' expects a quoted string"
  | .needsBool key => text "'" ++ key ++ text "' expects true or false"
  | .unknownFormat value => text "unknown format '" ++ value ++ text "'"
  | .unknownGraph value => text "unknown graph '" ++ value ++ text "'"
  | .unknownKey key => text "unknown key '" ++ key ++ text "'"

def trim (t : Bytes) : Bytes := Bytes.trim (fun b => b = ' ' || b = '\t' || b = '\r') t

/-- The line up to a `#` outside quotes. -/
def withoutComment (quoted : Bool) : Bytes → Bytes
  | [] => []
  | b :: bs =>
    if b = '#' && !quoted then []
    else b :: withoutComment (if b = '"' then !quoted else quoted) bs

def quoted? (t : Bytes) : Option Bytes :=
  if 2 ≤ t.length && t.head? == some ('"' : UInt8) && t.getLast? == some ('"' : UInt8) then
    some t.tail.dropLast
  else none

def bool? (t : Bytes) : Option Bool :=
  if t = text "true" then some true else if t = text "false" then some false else none

def textSetting (key value : Bytes) (read : Bytes → Except Fault Setting) : Except Fault Setting :=
  match quoted? value with
  | some t => read t
  | none => .error (.needsText key)

def boolSetting (key value : Bytes) (setting : Bool → Setting) : Except Fault Setting :=
  match bool? value with
  | some b => .ok (setting b)
  | none => .error (.needsBool key)

def assignment (key value : Bytes) : Except Fault Setting :=
  if key = text "format" then
    textSetting key value fun t =>
      match Format.parse? t with
      | some format => .ok (.format format)
      | none => .error (.unknownFormat t)
  else if key = text "graph" then
    textSetting key value fun t =>
      match GraphKind.parse? t with
      | some graph => .ok (.graph graph)
      | none => .error (.unknownGraph t)
  else if key = text "prune" then
    textSetting key value fun t => .ok (.prune (Dot.parsePruneList t))
  else if key = text "output_dir" then textSetting key value fun t => .ok (.outputDir t)
  else if key = text "internal_only" then boolSetting key value .internalOnly
  else if key = text "include_tests" then boolSetting key value .includeTests
  else .error (.unknownKey key)

inductive Line where
  | blank
  | header (ours : Bool)
  | setting (result : Except Fault Setting)

def Line.parse (raw : Bytes) : Line :=
  match trim (withoutComment false raw) with
  | [] => .blank
  | b :: bs =>
    if b = '[' then .header (b :: bs == text "[exviz]")
    else
      match Bytes.cut '=' (b :: bs) with
      | (key, some value) => .setting (assignment (trim key) (trim value))
      | (_, none) => .setting (.error .noAssignment)

/-- The state between two lines: whether the section is ours, how many settings were taken up, and
the options so far. -/
structure Reading where
  ours : Bool := false
  applied : Nat := 0
  options : Options

def addLine (origin : Bytes) (r : Reading) (raw : Bytes) (number : Nat) : Log.Logged Reading :=
  match Line.parse raw with
  | .blank => pure r
  | .header ours => pure { r with ours }
  | .setting result =>
    if !r.ours then pure r
    else
      match result with
      | .ok setting =>
        pure { r with applied := r.applied + 1, options := setting.apply r.options }
      | .error fault => do
        Log.say .warn "config" <|
          origin ++ text ":" ++ Bytes.decimal number ++ text ": " ++ fault.message
        return r

/-- Takes up the lines from number `number` on. -/
def addLines (origin : Bytes) (r : Reading) : List Bytes → (number : Nat) → Log.Logged Reading
  | [], _ => pure r
  | raw :: rest, number => do
    addLines origin (← addLine origin r raw number) rest (number + 1)

/-- Puts a configuration text over options. `origin` names the text in messages. The result has the
number of settings taken up. -/
def apply (origin content : Bytes) (o : Options) : Log.Logged Reading := do
  let r ← addLines origin { options := o } (Bytes.lines content) 1
  Log.say .debug "config"
    (origin ++ text ": " ++ Bytes.decimal r.applied ++ text " settings applied")
  return r

end CallAtlas.Config
