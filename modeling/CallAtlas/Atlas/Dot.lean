import CallAtlas.Atlas

/-! # DOT drawings

An atlas is drawn as directed graphs in the DOT language: of modules, of functions and of calls
between modules. Identifiers keep letters, digits and underscores and show any other byte as an
underscore, so two names may share an identifier; labels show the exact names. Modules on the prune
list are left out with everything that touches them.
-/
namespace CallAtlas.Dot

def isIdentifierByte (b : UInt8) : Bool :=
  Bytes.isLower b || Bytes.isUpper b || Bytes.isDigit b || b == '_'

/-- The text with every byte that no identifier holds replaced by an underscore. -/
def sanitize (t : Bytes) : Bytes := t.map fun b => if isIdentifierByte b then b else '_'

def moduleId (name : ModuleName) : Bytes := text "m_" ++ sanitize name.toText

def functionId (f : FunctionName) : Bytes :=
  text "c_" ++
    sanitize (f.module.toText ++ text "_" ++ f.name ++ text "_" ++ Bytes.decimal f.arity.toNat)

/-- A byte of a label: quotes and backslashes stand behind a backslash. -/
def escape (b : UInt8) : Bytes := if b = '"' || b = '\\' then ['\\', b] else [b]

/-- A label between quotes. -/
def quoted (label : Bytes) : Bytes := text "\"" ++ label.flatMap escape ++ text "\""

/-- The names on a prune list that is written with commas; blanks around a name do not count. -/
def parsePruneList (t : Bytes) : List Bytes :=
  ((Bytes.fields ',' t).map (Bytes.trim fun (b : UInt8) => b = ' ' || b = '\t')).filter (!·.isEmpty)

def isPruned (prune : List Bytes) (name : ModuleName) : Bool := prune.contains name.toText

inductive Statement where
  | node (id label : Bytes)
  | edge (source target attributes : Bytes)

def Statement.line : Statement → Bytes
  | .node id label => text "  " ++ id ++ text " [label=" ++ quoted label ++ text "];\n"
  | .edge source target attributes =>
    text "  " ++ source ++ text " -> " ++ target ++ attributes ++ text ";\n"

def drawing (name : String) (statements : List Statement) : Bytes :=
  text "digraph " ++ text name ++ text " \x7b\n  rankdir=LR;\n" ++
    statements.flatMap (·.line) ++ text "\x7d"

def moduleNodes (prune : List Bytes) (a : Atlas) : List Statement :=
  (a.modules.filter fun m => !isPruned prune m.name).map fun m =>
    .node (moduleId m.name) m.name.toText

def moduleEdges (prune : List Bytes) (a : Atlas) : List Statement :=
  (a.moduleEdges.filter fun e => !isPruned prune e.source && !isPruned prune e.target).map fun e =>
    .edge (moduleId e.source) (moduleId e.target)
      (text " [label=" ++ quoted e.kind.name ++ text "]")

/-- The modules and why they depend on each other. -/
def modules (prune : List Bytes) (a : Atlas) : Bytes :=
  drawing "modules" (moduleNodes prune a ++ moduleEdges prune a)

def functionNodes (prune : List Bytes) (a : Atlas) : List Statement :=
  (a.functions.filter fun f => !isPruned prune f.module).map fun f => .node (functionId f) f.toText

def callEdges (prune : List Bytes) (a : Atlas) : List Statement :=
  (a.calls.filter fun c =>
      !isPruned prune c.caller.module && !isPruned prune c.callee.module).map fun c =>
    .edge (functionId c.caller) (functionId c.callee) <|
      match c.kind with
      | .sameModule => text " [style=solid]"
      | .remote => text " [style=dashed]"

/-- The functions and which calls which; calls to another module are dashed. -/
def calls (prune : List Bytes) (a : Atlas) : Bytes :=
  drawing "calls" (functionNodes prune a ++ callEdges prune a)

def moduleCallEdges (prune : List Bytes) (a : Atlas) : List Statement :=
  (a.moduleCalls.filter fun c => !isPruned prune c.caller && !isPruned prune c.callee).map fun c =>
    .edge (moduleId c.caller) (moduleId c.callee) []

/-- The modules and which calls which. -/
def moduleCalls (prune : List Bytes) (a : Atlas) : Bytes :=
  drawing "module_calls" (moduleNodes prune a ++ moduleCallEdges prune a)

/-- The calls between modules, and behind a comment the calls between functions. -/
def combined (prune : List Bytes) (a : Atlas) : Log.Logged Bytes := do
  Log.say .debug "render" <|
    text "combined DOT graph, " ++ Bytes.decimal prune.length ++ text " pruned modules"
  return moduleCalls prune a ++ text "\n\n// Function-level call graph\n" ++ calls prune a

end CallAtlas.Dot
