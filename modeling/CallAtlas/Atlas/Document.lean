import CallAtlas.Atlas
import CallAtlas.Json.Reader
import CallAtlas.Json.Writer

/-! # Atlases and records as JSON documents

A document is an object with up to five arrays of objects:

* `modules`: `name`, `file` and `functions`, an array of objects with `name` and `arity`;
* `module_edges`: `from`, `to` and `kind`;
* `call_nodes`: `mfa`, an array of module, name and arity;
* `call_edges`: `kind`, and `from` and `to` as arrays like `mfa`;
* `module_call_edges`: `from` and `to`.

Modules are written by name. Reading takes any object that has the arrays it needs in this form: an
array that is absent counts as empty, and further members are not looked at.
-/
namespace CallAtlas.Document

open Json (Value)

/-! ### Writing -/

def ofName (name : ModuleName) : Value := .string name.toText

def ofArity (arity : UInt32) : Value := .ofNat arity.toNat

def ofFunctionName (f : FunctionName) : Value :=
  .array [ofName f.module, .string f.name, ofArity f.arity]

def ofSignature (s : Signature) : Value :=
  .ofMembers [(text "name", .string s.name), (text "arity", ofArity s.arity)]

def ofModuleNode (m : ModuleNode) : Value :=
  .ofMembers [(text "name", ofName m.name), (text "file", .string m.file),
    (text "functions", .array (m.functions.map ofSignature))]

def ofModuleEdge (e : ModuleEdge) : Value :=
  .ofMembers [(text "from", ofName e.source), (text "to", ofName e.target),
    (text "kind", .string e.kind.name)]

def ofFunctionNode (f : FunctionName) : Value := .ofMembers [(text "mfa", ofFunctionName f)]

def ofCall (c : Call) : Value :=
  .ofMembers [(text "kind", .string c.kind.name), (text "from", ofFunctionName c.caller),
    (text "to", ofFunctionName c.callee)]

def ofModuleCall (c : ModuleCall) : Value :=
  .ofMembers [(text "from", ofName c.caller), (text "to", ofName c.callee)]

/-- Which part of an atlas a document carries. -/
inductive Part where
  | all | modules | calls | moduleCalls
  deriving DecidableEq, Repr

/-- The atlas with only a part of what it holds. -/
def Part.of (part : Part) (a : Atlas) : Atlas :=
  match part with
  | .all => a
  | .modules => { modules := a.modules, moduleEdges := a.moduleEdges }
  | .calls => { functions := a.functions, calls := a.calls }
  | .moduleCalls => { modules := a.modules, moduleCalls := a.moduleCalls }

/-- The arrays of a document. -/
inductive Section where
  | modules | moduleEdges | functions | calls | moduleCalls
  deriving DecidableEq, Repr

def Section.name : Section → Bytes
  | .modules => text "modules"
  | .moduleEdges => text "module_edges"
  | .functions => text "call_nodes"
  | .calls => text "call_edges"
  | .moduleCalls => text "module_call_edges"

def Part.sections : Part → List Section
  | .all => [.modules, .moduleEdges, .functions, .calls, .moduleCalls]
  | .modules => [.modules, .moduleEdges]
  | .calls => [.functions, .calls]
  | .moduleCalls => [.modules, .moduleCalls]

def ofSection (a : Atlas) : Section → Value
  | .modules => .array (a.modules.map ofModuleNode)
  | .moduleEdges => .array (a.moduleEdges.map ofModuleEdge)
  | .functions => .array (a.functions.map ofFunctionNode)
  | .calls => .array (a.calls.map ofCall)
  | .moduleCalls => .array (a.moduleCalls.map ofModuleCall)

/-- The document of a part of an atlas. -/
def ofAtlas (part : Part) (a : Atlas) : Value :=
  .ofMembers (part.sections.map fun s => (s.name, ofSection a s))

def ofDirective (d : Directive) : Value :=
  .ofMembers [(text "kind", .string d.kind.name), (text "target", ofName d.target)]

def ofRecord (r : Record) : Value :=
  .ofMembers [(text "name", ofName r.name), (text "file", .string r.file),
    (text "functions", .array (r.functions.map ofSignature)),
    (text "calls", .array (r.calls.map ofCall)),
    (text "refs", .array (r.directives.map ofDirective))]

/-- The document of a list of records. -/
def ofRecords (records : List Record) : Value :=
  .ofMembers [(text "modules", .array (records.map ofRecord))]

/-! ### Reading -/

/-- A section, or an entry of it. -/
structure Place where
  array : Section
  index : Nat

def Place.toText (p : Place) : Bytes :=
  p.array.name ++ text "[" ++ Bytes.decimal p.index ++ text "]"

/-- Why a text is no document. -/
inductive Error where
  | json (e : Json.Error)
  | notAnObject
  | notAnArray (s : Section)
  | entryNotAnObject (p : Place)
  | missingString (p : Place) (key : Bytes)
  | functionsNotAnArray (p : Place)
  | missingArity (p : Place)
  | badArity (p : Place)
  | badFunctionName (p : Place)
  | unknownEdgeKind (p : Place) (name : Bytes)
  | unknownCallKind (p : Place) (name : Bytes)

def Error.message : Error → Bytes
  | .json e => text "invalid JSON: " ++ e.message
  | .notAnObject => text "graph document must be a JSON object"
  | .notAnArray s => s.name ++ text ": expected an array"
  | .entryNotAnObject p => p.toText ++ text ": expected an object"
  | .missingString p key => p.toText ++ text ": expected string '" ++ key ++ text "'"
  | .functionsNotAnArray p => p.toText ++ text ": expected array 'functions'"
  | .missingArity p => p.toText ++ text ": function without 'arity'"
  | .badArity p => p.toText ++ text ": arity must be a non-negative integer"
  | .badFunctionName p => p.toText ++ text ": expected [module, name, arity]"
  | .unknownEdgeKind p name => p.toText ++ text ": unknown edge kind '" ++ name ++ text "'"
  | .unknownCallKind p name => p.toText ++ text ": unknown call kind '" ++ name ++ text "'"

def stringMember (p : Place) (key : String) (v : Value) : Except Error Bytes :=
  match (v.get? (text key)).bind (·.string?) with
  | some s => .ok s
  | none => .error (.missingString p (text key))

def toArity (p : Place) (v : Value) : Except Error UInt32 :=
  match v.integer? with
  | some i =>
    if 0 ≤ i.toInt ∧ i.toInt < UInt32.size then .ok (UInt32.ofNat i.toInt.toNat)
    else .error (.badArity p)
  | none => .error (.badArity p)

def toFunctionName (p : Place) : Option Value → Except Error FunctionName
  | some (.array [.string module, .string name, arity]) => do
    return ⟨.parse module, name, ← toArity p arity⟩
  | _ => .error (.badFunctionName p)

def toSignature (p : Place) (v : Value) : Except Error Signature := do
  match (v.get? (text "name")).bind (·.string?) with
  | none => throw (.missingString p (text "functions.name"))
  | some name =>
    match v.get? (text "arity") with
    | none => throw (.missingArity p)
    | some arity => return ⟨name, ← toArity p arity⟩

def toModuleNode (p : Place) (v : Value) : Except Error ModuleNode := do
  let name ← stringMember p "name" v
  let file ← stringMember p "file" v
  match v.get? (text "functions") with
  | none => return ⟨.parse name, file, []⟩
  | some (.array functions) => return ⟨.parse name, file, ← functions.mapM (toSignature p)⟩
  | some _ => throw (.functionsNotAnArray p)

def toModuleEdge (p : Place) (v : Value) : Except Error ModuleEdge := do
  let source ← stringMember p "from" v
  let target ← stringMember p "to" v
  let kind ← stringMember p "kind" v
  match EdgeKind.parse? kind with
  | some kind => return ⟨.parse source, .parse target, kind⟩
  | none => throw (.unknownEdgeKind p kind)

def toFunctionNode (p : Place) (v : Value) : Except Error FunctionName :=
  toFunctionName p (v.get? (text "mfa"))

def toCall (p : Place) (v : Value) : Except Error Call := do
  let kind ← stringMember p "kind" v
  match CallKind.parse? kind with
  | some kind =>
    let caller ← toFunctionName p (v.get? (text "from"))
    let callee ← toFunctionName p (v.get? (text "to"))
    return ⟨kind, caller, callee⟩
  | none => throw (.unknownCallKind p kind)

def toModuleCall (p : Place) (v : Value) : Except Error ModuleCall := do
  let caller ← stringMember p "from" v
  let callee ← stringMember p "to" v
  return ⟨.parse caller, .parse callee⟩

/-- The entries of a section with their places. All must be objects before any is read. -/
def entries (root : Value) (s : Section) : Except Error (List (Place × Value)) :=
  match root.get? s.name with
  | none => .ok []
  | some (.array items) =>
    let placed := items.zipIdx.map fun (v, index) => (Place.mk s index, v)
    match placed.find? fun (_, v) => v.object?.isNone with
    | some (p, _) => .error (.entryNotAnObject p)
    | none => .ok placed
  | some _ => .error (.notAnArray s)

def readSection {α : Type} (root : Value) (s : Section) (read : Place → Value → Except Error α) :
    Except Error (List α) := do
  (← entries root s).mapM fun (p, v) => read p v

/-- The atlas that a value describes. The sections are read in a fixed order, and the first fault
is reported. -/
def toAtlas (root : Value) : Except Error Atlas := do
  if root.object?.isNone then throw .notAnObject
  let modules ← readSection root .modules toModuleNode
  let moduleEdges ← readSection root .moduleEdges toModuleEdge
  let functions ← readSection root .functions toFunctionNode
  let calls ← readSection root .calls toCall
  let moduleCalls ← readSection root .moduleCalls toModuleCall
  return { modules, moduleEdges, functions, calls, moduleCalls }

/-- The atlas that a text describes. -/
def parse (t : Bytes) : Except Error Atlas :=
  match Json.parse t with
  | .error e => .error (.json e)
  | .ok root => toAtlas root

/-- `parse`, saying how large the result is. -/
def load (t : Bytes) : Log.Logged (Except Error Atlas) :=
  match parse t with
  | .error e => pure (.error e)
  | .ok a => do
    Log.say .debug "render" <|
      text "loaded graph document: " ++ Atlas.count a.modules.length " modules, " ++
        Atlas.count a.calls.length " call edges"
    return .ok a

end CallAtlas.Document
