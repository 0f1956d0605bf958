import CallAtlas.Bytes

/-! # Names of modules and functions

A module is named by its segments, as `MyApp.Repo`, or by an atom, as `:ets`. A reference that
cannot be resolved statically has the unknown name, written `unknown`, which is below every other
name. Known names are ordered by their segments, and an atom comes behind the name that has it as
its only segment.
-/
namespace CallAtlas

inductive ModuleName where
  | unknown
  /-- Segments, of which there is at least one. -/
  | elixir (head : Bytes) (more : List Bytes)
  | erlang (atom : Bytes)
  deriving DecidableEq, Repr, Inhabited

namespace ModuleName

/-- The module with the given segments; no segments name no module. -/
def ofSegments : List Bytes → ModuleName
  | [] => .unknown
  | head :: more => .elixir head more

def segments : ModuleName → List Bytes
  | .unknown => []
  | .elixir head more => head :: more
  | .erlang atom => [atom]

def isUnknown : ModuleName → Bool
  | .unknown => true
  | _ => false

def isErlang : ModuleName → Bool
  | .erlang _ => true
  | _ => false

def toText : ModuleName → Bytes
  | .unknown => text "unknown"
  | .elixir head more => Bytes.join '.' (head :: more)
  | .erlang atom => ':' :: atom

/-- Reads a written name. A text with an empty segment names no module. -/
def parse (t : Bytes) : ModuleName :=
  if t = text "unknown" then .unknown
  else
    match t with
    | [] => .unknown
    | first :: rest =>
      if first = ':' then .erlang rest
      else
        let segments := Bytes.fields '.' t
        if segments.contains [] then .unknown else ofSegments segments

/-- The name followed by further segments. Behind an atom or the unknown name none can follow. -/
def concat : ModuleName → List Bytes → ModuleName
  | name, [] => name
  | .elixir head more, segments => .elixir head (more ++ segments)
  | _, _ :: _ => .unknown

def order : ModuleName → ModuleName → Ordering
  | .unknown, .unknown => .eq
  | .unknown, _ => .lt
  | _, .unknown => .gt
  | a, b => (List.compareLex Bytes.order a.segments b.segments).then (compare a.isErlang b.isErlang)

@[simp] theorem parse_unknown : parse (text "unknown") = .unknown := by
  simp [parse]

@[simp] theorem concat_nil (name : ModuleName) : name.concat [] = name := by
  cases name <;> rfl

end ModuleName

/-- A function of some module, by its name and the number of its arguments. -/
structure Signature where
  name : Bytes
  arity : UInt32
  deriving DecidableEq, Repr, Inhabited

/-- By name and then by arity. -/
def Signature.order (a b : Signature) : Ordering :=
  (Bytes.order a.name b.name).then (compare a.arity b.arity)

/-- A function of a module. -/
structure FunctionName where
  module : ModuleName
  name : Bytes
  arity : UInt32
  deriving DecidableEq, Repr, Inhabited

namespace FunctionName

def signature (f : FunctionName) : Signature := ⟨f.name, f.arity⟩

/-- By module, then by name, then by arity. -/
def order (a b : FunctionName) : Ordering :=
  (a.module.order b.module).then (a.signature.order b.signature)

/-- As in `MyApp.Repo.get/2`. -/
def toText (f : FunctionName) : Bytes :=
  f.module.toText ++ text "." ++ f.name ++ text "/" ++ Bytes.decimal f.arity.toNat

end FunctionName
end CallAtlas
