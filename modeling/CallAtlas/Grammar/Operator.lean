import CallAtlas.Grammar.Arguments

/-! # Binary operators

Operators have levels, and those of a higher level bind tighter. Reading an expression of a level
takes every operator of that level or above; the right operand of an operator starts one level
higher, or on the same level if the operator groups to the right.
-/
namespace CallAtlas.Grammar

structure Operator where
  name : Bytes
  level : Nat
  rightAssoc : Bool := false
  deriving DecidableEq, Repr

namespace Operator

def symbols : List Operator :=
  let left (level : Nat) (names : List String) : List Operator :=
    names.map fun name => ⟨text name, level, false⟩
  let right (level : Nat) (names : List String) : List Operator :=
    names.map fun name => ⟨text name, level, true⟩
  left 1 ["<-", "\\\\"] ++ right 3 ["::"] ++ right 4 ["|"] ++ right 5 ["=>"] ++ right 7 ["="] ++
    left 8 ["||", "|||"] ++ left 9 ["&&", "&&&"] ++ left 10 ["==", "!=", "=~", "===", "!=="] ++
    left 11 ["<", ">", "<=", ">="] ++
    left 12 ["|>", "<<<", ">>>", "<<~", "~>>", "<~", "~>", "<~>", "<|>"] ++ left 14 ["^^^"] ++
    right 15 ["++", "--", "+++", "---", "..", "<>", "//"] ++ left 16 ["+", "-"] ++
    left 17 ["*", "/"] ++ left 18 ["**"]

/-- The level of the operand of a sign, of `not`, `!` and `^`. -/
def unaryLevel : Nat := 19

/-- The level of what `&` captures. -/
def captureLevel : Nat := 7

def ofToken? (t : Token) : Option Operator :=
  match t.kind with
  | .kwWhen => some ⟨text "when", 2, true⟩
  | .kwOr => some ⟨text "or", 8, false⟩
  | .kwAnd => some ⟨text "and", 9, false⟩
  | .kwIn => some ⟨text "in", 13, false⟩
  | .operator => symbols.find? (·.name == t.lexeme)
  | _ => none

/-- Written as two tokens. -/
def notIn : Operator := ⟨text "not in", 13, false⟩

def operandLevel (op : Operator) : Nat := if op.rightAssoc then op.level else op.level + 1

def apply (op : Operator) (left right : Tree) : Tree :=
  { form := if op.name = text "=>" then .pair else .binaryOp
    span := left.span.to right.span
    name := op.name
    children := [left, right] }

end Operator

/-- Whether a token is an operator that names a function, as in `&<>/2`. The operators that build
patterns and types do not. -/
def namesFunction (t : Token) : Bool :=
  t.kind == .operator &&
    (t.isOp "!" ||
      ((["=", "<-", "\\\\", "::", "|", "=>"].all fun op => !t.isOp op) &&
        (Operator.ofToken? t).isSome))

def Cursor.operator? (c : Cursor) : Option (Parsed c Operator) :=
  match Operator.ofToken? c.peek with
  | some op => c.next?.map (·.map fun _ => op)
  | none => do
    let first ← c.take? .kwNot
    let second ← first.rest.take? .kwIn
    return (first.followedBy second).map fun _ => .notIn

/-- What stands behind an operator: behind `|` it may be a list of pairs. -/
def rightOperand (expr : Expr) (blocks : Bool) (op : Operator) : Reader Tree := fun c =>
  if op.name == text "|" && c.sees .keywordKey then keywordList expr blocks c
  else expr op.operandLevel blocks c

def application? (expr : Expr) (level : Nat) (blocks : Bool) (left : Tree) : OptionReader Tree :=
  fun c =>
    match c.operator? with
    | none => .ok none
    | some op =>
      if op.value.level < level then .ok none
      else do
        let right ← op.andThen (rightOperand expr blocks op.value)
        return some (right.map (op.value.apply left))

def climb (expr : Expr) (level : Nat) (blocks : Bool) (left : Tree) : MaybeReader Tree :=
  iterate (application? expr level blocks) left

end CallAtlas.Grammar
