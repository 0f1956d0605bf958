import CallAtlas.Alias
import CallAtlas.Log.Level
import CallAtlas.Ordered

/-! # Module records

A record says what one module defines, calls and refers to. It is gathered in one walk over the
module's body:

* at module level, `def`, `defp`, `defmacro` and `defmacrop` define a function, whose body is
  walked, and `alias`, `import` and `use` are directives;
* in a function body, directives count too, every other call is a call of the module's own function,
  and a call behind a dot is a remote call. `require` and nested modules are left out, and so are
  definitions, of which only the insides are walked.

One alias table serves the whole module, so an alias inside one function is in force in those that
follow it.
-/
namespace CallAtlas

inductive CallKind where
  | sameModule | remote
  deriving DecidableEq, Repr, Inhabited

namespace CallKind

def name : CallKind → Bytes
  | .sameModule => text "local"
  | .remote => text "remote"

def parse? (t : Bytes) : Option CallKind := [CallKind.sameModule, .remote].find? (·.name == t)

end CallKind

structure Call where
  kind : CallKind
  caller : FunctionName
  callee : FunctionName
  deriving DecidableEq, Repr

inductive DirectiveKind where
  | alias | import | use
  deriving DecidableEq, Repr, Inhabited

namespace DirectiveKind

def name : DirectiveKind → Bytes
  | .alias => text "alias"
  | .import => text "import"
  | .use => text "use"

def parse? (t : Bytes) : Option DirectiveKind :=
  [DirectiveKind.alias, .import, .use].find? (·.name == t)

end DirectiveKind

structure Directive where
  kind : DirectiveKind
  target : ModuleName
  deriving DecidableEq, Repr

structure Record where
  name : ModuleName
  file : Bytes := []
  /-- In order and once each, if the record comes from a module definition. -/
  functions : List Signature := []
  calls : List Call := []
  directives : List Directive := []
  deriving DecidableEq, Repr

def definitionWords : List Bytes := ["def", "defp", "defmacro", "defmacrop"].map text

/-- The bodies of a definition: the sections of its `do` block, or the values of the pairs at the
end of its arguments. -/
def bodies (definition : Tree) : List Tree :=
  match definition.children.getLast? with
  | none => []
  | some last =>
    if last.form = .doBlock || last.form = .list then
      last.children.filterMap fun pair =>
        match pair.form, pair.children with
        | .pair, [key, body] => if key.form = .atom then some body else none
        | _, _ => none
    else []

/-- The head of a definition without its guards. -/
def unguarded : Tree → Tree
  | ⟨.binaryOp, span, name, [head, guard], parens, interpolated⟩ =>
    if name = text "when" then unguarded head
    else ⟨.binaryOp, span, name, [head, guard], parens, interpolated⟩
  | t => t

/-- The function that a head defines, unless its name is computed. -/
def definedBy? (head : Tree) : Option Signature :=
  match head.form with
  | .call =>
    if head.name = text "unquote" then none
    else some ⟨head.name, UInt32.ofNat head.children.length⟩
  | .var => some ⟨head.name, 0⟩
  | _ => none

/-- What has been gathered about a module so far. Calls and directives are kept latest first. -/
structure Survey where
  module : ModuleName
  aliases : AliasTable := []
  functions : List Signature := []
  calls : List Call := []
  directives : List Directive := []
  /-- The lines of definitions that were left out because their names are computed. -/
  skipped : List Nat := []

namespace Survey

/-- Takes up a directive, whose word stands before its target. -/
def directive (s : Survey) (kind : DirectiveKind) (arguments : List Tree) : Survey :=
  match arguments with
  | [] => s
  | target :: more =>
    { s with
      directives := ⟨kind, resolve s.module s.aliases target⟩ :: s.directives
      aliases :=
        if kind = .alias then s.aliases.update s.module target more.head? else s.aliases }

def call (s : Survey) (c : Call) : Survey := { s with calls := c :: s.calls }

/-- What an expression in the body of the function `caller` adds by itself, and whether what stands
inside it is walked too. -/
def visit (s : Survey) (caller : FunctionName) (t : Tree) : Survey × Bool :=
  match t.form with
  | .var | .aliases => (s, false)
  | .call =>
    if t.name = text "defmodule" || t.name = text "require" then (s, false)
    else
      match DirectiveKind.parse? t.name with
      | some kind => (s.directive kind t.children, false)
      | none =>
        if definitionWords.contains t.name then (s, true)
        else
          let callee : FunctionName := ⟨s.module, t.name, UInt32.ofNat t.children.length⟩
          (s.call ⟨.sameModule, caller, callee⟩, true)
  | .remoteCall =>
    match t.children with
    | [] => (s, true)
    | receiver :: arguments =>
      let module := resolve s.module s.aliases receiver
      (s.call ⟨.remote, caller, ⟨module, t.name, UInt32.ofNat arguments.length⟩⟩, true)
  | _ => (s, true)

mutual

/-- Walks an expression in the body of the function `caller`. -/
def body (caller : FunctionName) : Tree → Survey → Survey
  | ⟨form, span, name, children, parens, interpolated⟩, s =>
    let (s, inside) := s.visit caller ⟨form, span, name, children, parens, interpolated⟩
    if inside then bodyOf caller children s else s

def bodyOf (caller : FunctionName) : List Tree → Survey → Survey
  | [], s => s
  | t :: ts, s => bodyOf caller ts (body caller t s)

end

def definition (s : Survey) (t : Tree) : Survey :=
  match t.children with
  | [] => s
  | head :: _ =>
    match definedBy? (unguarded head) with
    | none => { s with skipped := t.span.start.line :: s.skipped }
    | some signature =>
      bodyOf ⟨s.module, signature.name, signature.arity⟩ (bodies t)
        { s with functions := Ordered.insert Signature.order signature s.functions }

mutual

def moduleLevel : Tree → Survey → Survey
  | ⟨form, span, name, children, parens, interpolated⟩, s =>
    match form with
    | .block => moduleLevelOf children s
    | .call =>
      if definitionWords.contains name then
        s.definition ⟨.call, span, name, children, parens, interpolated⟩
      else
        match DirectiveKind.parse? name with
        | some kind => s.directive kind children
        | none => s
    | _ => s

def moduleLevelOf : List Tree → Survey → Survey
  | [], s => s
  | t :: ts, s => moduleLevelOf ts (moduleLevel t s)

end

def record (s : Survey) (file : Bytes) : Record :=
  { name := s.module
    file
    functions := s.functions
    calls := s.calls.reverse
    directives := s.directives.reverse }

def entries (s : Survey) : List Log.Entry :=
  s.skipped.reverse.map fun line =>
    { level := .debug
      tag := text "extract"
      message := s.module.toText ++ text ": skipping definition with a computed name at line " ++
        Bytes.decimal line }

end Survey

def definesModule (t : Tree) : Bool :=
  t.form == .call && t.name == text "defmodule" && 2 ≤ t.children.length

/-- The record of a module definition that stands inside the module `enclosing`. -/
def extract (file : Bytes) (enclosing : ModuleName) (definition : Tree) : Log.Logged Record := do
  let name := (definition.children.head?.map (resolve enclosing [])).getD .unknown
  Log.say .debug "extract" (text "module " ++ name.toText ++ text " in " ++ file)
  let survey := Survey.moduleLevelOf (bodies definition) { module := name }
  Log.Logged.mk () survey.entries
  return survey.record file

mutual

/-- The records of all modules that a tree inside `enclosing` defines, each before those nested in
it. -/
def recordsIn (file : Bytes) (enclosing : ModuleName) : Tree → Log.Logged (List Record)
  | ⟨form, span, name, children, parens, interpolated⟩ =>
    let t : Tree := ⟨form, span, name, children, parens, interpolated⟩
    if definesModule t then do
      let record ← extract file enclosing t
      let nested ← recordsInAll file record.name children
      return record :: nested
    else recordsInAll file enclosing children

def recordsInAll (file : Bytes) (enclosing : ModuleName) : List Tree → Log.Logged (List Record)
  | [] => pure []
  | t :: ts => do
    let first ← recordsIn file enclosing t
    let more ← recordsInAll file enclosing ts
    return first ++ more

end

def records (file : Bytes) (root : Tree) : Log.Logged (List Record) :=
  recordsIn file .unknown root

end CallAtlas
