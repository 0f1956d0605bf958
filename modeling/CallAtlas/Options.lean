import CallAtlas.Bytes

/-! # Options of a run

What is analysed, which graph is written and in which format.
-/
namespace CallAtlas

inductive Format where
  | json | dot
  deriving DecidableEq, Repr, Inhabited

namespace Format

def name : Format → Bytes
  | .json => text "json"
  | .dot => text "dot"

def parse? (t : Bytes) : Option Format := [Format.json, .dot].find? (·.name == t)

theorem parse?_eq_some_iff {t : Bytes} {format : Format} : parse? t = some format ↔ t = format.name := by
  constructor
  · intro h
    have named := List.find?_some h
    exact (eq_of_beq named).symm
  · rintro rfl
    cases format <;> decide

end Format

inductive GraphKind where
  | modules | calls | moduleCalls | both | records
  deriving DecidableEq, Repr, Inhabited

namespace GraphKind

def name : GraphKind → Bytes
  | .modules => text "modules"
  | .calls => text "calls"
  | .moduleCalls => text "module_calls"
  | .both => text "both"
  | .records => text "records"

def parse? (t : Bytes) : Option GraphKind :=
  [GraphKind.modules, .calls, .moduleCalls, .both, .records].find? (·.name == t)

theorem parse?_eq_some_iff {t : Bytes} {kind : GraphKind} : parse? t = some kind ↔ t = kind.name := by
  constructor
  · intro h
    have named := List.find?_some h
    exact (eq_of_beq named).symm
  · rintro rfl
    cases kind <;> decide

/-- The name of an output file without its extension. -/
def stem : GraphKind → Bytes
  | .both => text "graphs"
  | kind => kind.name

end GraphKind

/-- The name of the output file. Records cannot be drawn. -/
def outputName? : Format → GraphKind → Option Bytes
  | .dot, .records => none
  | format, kind => some (kind.stem ++ text "." ++ format.name)

structure Options where
  projectPath : Bytes := []
  /-- A saved document to show in place of a project. -/
  fromJson : Bytes := []
  format : Format := .json
  graph : GraphKind := .both
  prune : List Bytes := []
  internalOnly : Bool := true
  includeTests : Bool := false
  outputDir : Bytes := text "output"
  deriving DecidableEq, Repr

end CallAtlas
