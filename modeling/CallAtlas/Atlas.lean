import CallAtlas.Record

/-! # The atlas of a project

An atlas holds five things that are drawn from the records of a project: the modules, the edges
between modules with the reason for each, the functions, the calls between functions, and the calls
between modules. Edges between modules are listed once each, in the order they are first met; the
functions are in increasing order; calls are all listed.
-/
namespace CallAtlas

inductive EdgeKind where
  | call
  | directive (kind : DirectiveKind)
  deriving DecidableEq, Repr, Inhabited

namespace EdgeKind

def name : EdgeKind → Bytes
  | .call => text "call"
  | .directive kind => kind.name

def parse? (t : Bytes) : Option EdgeKind :=
  if t = text "call" then some .call else (DirectiveKind.parse? t).map .directive

end EdgeKind

structure ModuleNode where
  name : ModuleName
  file : Bytes
  functions : List Signature
  deriving DecidableEq, Repr

structure ModuleEdge where
  source : ModuleName
  target : ModuleName
  kind : EdgeKind
  deriving DecidableEq, Repr

/-- Some function of `caller` calls one of `callee`. -/
structure ModuleCall where
  caller : ModuleName
  callee : ModuleName
  deriving DecidableEq, Repr

structure Atlas where
  modules : List ModuleNode := []
  moduleEdges : List ModuleEdge := []
  functions : List FunctionName := []
  calls : List Call := []
  moduleCalls : List ModuleCall := []
  deriving DecidableEq, Repr

namespace Atlas

/-- Adds an edge between modules, unless it is there already, leads nowhere known or leads back to
its own module. -/
def addModuleEdge (a : Atlas) (e : ModuleEdge) : Atlas :=
  if e.target.isUnknown || e.target = e.source || a.moduleEdges.contains e then a
  else { a with moduleEdges := a.moduleEdges ++ [e] }

/-- Adds a call between modules, unless it is there already or stays in its module. -/
def addModuleCall (a : Atlas) (c : ModuleCall) : Atlas :=
  if c.callee = c.caller || a.moduleCalls.contains c then a
  else { a with moduleCalls := a.moduleCalls ++ [c] }

def addFunction (a : Atlas) (f : FunctionName) : Atlas :=
  { a with functions := Ordered.insert FunctionName.order f a.functions }

/-- Adds what one record says: its calls give edges before its directives do. -/
def addRecord (a : Atlas) (r : Record) : Atlas :=
  let node : ModuleNode := ⟨r.name, r.file, r.functions⟩
  let a := { a with modules := a.modules ++ [node] }
  let a := r.calls.foldl (fun a c => a.addModuleEdge ⟨r.name, c.callee.module, .call⟩) a
  let a := r.directives.foldl (fun a d => a.addModuleEdge ⟨r.name, d.target, .directive d.kind⟩) a
  let a := r.functions.foldl (fun a f => a.addFunction ⟨r.name, f.name, f.arity⟩) a
  let a := r.calls.foldl (fun a c => a.addModuleCall ⟨r.name, c.callee.module⟩) a
  { a with calls := a.calls ++ r.calls }

def ofRecords (records : List Record) : Atlas := records.foldl addRecord {}

def defines (a : Atlas) (name : ModuleName) : Bool := a.modules.any (·.name = name)

/-- The part of an atlas that lies between its own modules: edges and calls that leave them are
dropped, and so are functions that no remaining call starts or ends at. -/
def internal (a : Atlas) : Atlas :=
  let calls := a.calls.filter fun c => a.defines c.caller.module && a.defines c.callee.module
  { modules := a.modules
    moduleEdges := a.moduleEdges.filter fun e => a.defines e.source && a.defines e.target
    functions := a.functions.filter fun f => calls.any fun c => c.caller = f || c.callee = f
    calls
    moduleCalls := a.moduleCalls.filter fun c => a.defines c.caller && a.defines c.callee }

def count (n : Nat) (what : String) : Bytes := Bytes.decimal n ++ text what

/-- `ofRecords`, saying how large the result is. -/
def build (records : List Record) : Log.Logged Atlas := do
  let a := ofRecords records
  Log.say .info "graph" <|
    count a.modules.length " modules, " ++ count a.moduleEdges.length " module edges, " ++
      count a.functions.length " call nodes, " ++ count a.calls.length " call edges"
  return a

/-- `internal`, saying how much is kept. -/
def restrict (a : Atlas) : Log.Logged Atlas := do
  let a := a.internal
  Log.say .debug "graph" <|
    text "internal-only: kept " ++ count a.moduleEdges.length " module edges, " ++
      count a.calls.length " call edges, " ++ count a.functions.length " call nodes"
  return a

def survey (internalOnly : Bool) (records : List Record) : Log.Logged Atlas := do
  let a ← build records
  if internalOnly then a.restrict else return a

end Atlas
end CallAtlas
