import CallAtlas.Grammar.Literal
import CallAtlas.Grammar.Operator

/-! # What follows a primary expression

A dot, an access in brackets and a call of a call's result bind tighter than any operator.

* `Foo.Bar` goes on with a module reference, `Foo.{A, B}` names several modules;
* `fun.(x)` calls a function value, `f(x)(y)` the result of a call;
* `Mod.fun(x)`, `Mod.fun x` and `Mod.fun` are remote calls, but `value.key` without arguments reads
  a field unless the receiver can only be a module.
-/
namespace CallAtlas.Grammar

def namesMember (t : Token) : Bool :=
  match t.kind with
  | .identifier | .kwAnd | .kwOr | .kwNot | .kwIn | .kwWhen | .kwTrue | .kwFalse | .kwNil
  | .string => true
  | _ => namesFunction t

def isModuleReceiver (t : Tree) : Bool :=
  t.form == .aliases || t.form == .atom || t.form == .moduleSelf

/-- The call of a function value whose opening parenthesis has been read. -/
def anonCall (expr : Expr) (function : Tree) : Reader Tree := fun c => do
  let arguments ← items expr .rparen true c
  let span := function.span.to arguments.rest.previous.span
  return arguments.map fun values =>
    { form := .anonCall, span, children := function :: values, parens := true }

/-- The member of `left` whose name has been read. -/
def member (expr : Expr) (blocks : Bool) (left : Tree) (name : Token) : MaybeReader Tree :=
  fun c => do
    let text := if name.value.isEmpty then name.lexeme else name.value
    let arguments ← arguments? expr c
    if arguments.value.isNone && !isModuleReceiver left then
      let span := left.span.to name.span
      return arguments.map fun _ =>
        { form := .fieldAccess, span, name := text, children := [left] }
    else
      let call : Tree :=
        { form := .remoteCall
          span := left.span.to arguments.rest.previous.span
          name := text
          children := left :: (arguments.value.map (·.values)).getD []
          parens := arguments.value.any (·.parens) }
      arguments.andMaybe (attach expr blocks call)

/-- What follows the dot behind `left`, which has been read. -/
def dotted (expr : Expr) (blocks : Bool) (left : Tree) : Reader Tree := fun c =>
  match c.next? with
  | none => c.fail .memberName
  | some token =>
    match token.value.kind with
    | .alias => .ok (token.map (extend left))
    | .lbrace => do
      let entries ← token.andThen (items expr .rbrace false)
      let span := left.span.to entries.rest.previous.span
      return entries.map fun entries => { form := .multiAlias, span, children := left :: entries }
    | .lparen => token.andThen (anonCall expr left)
    | _ =>
      if namesMember token.value then token.andMaybe (member expr blocks left token.value)
      else c.fail .memberName

def access (expr : Expr) (left : Tree) : Reader Tree := fun c => do
  let key ← loosely (expr 0 true) c
  let last ← key.andThen (loosely (Cursor.expect .rbracket .closingBracket))
  return last.map fun bracket =>
    { form := .access, span := left.span.to bracket.span, children := [left, key.value] }

def suffix? (expr : Expr) (blocks : Bool) (left : Tree) : OptionReader Tree := fun c =>
  match c.next? with
  | none => .ok none
  | some token =>
    match token.value.kind with
    | .dot => (token.andThen (dotted expr blocks left)).map some
    | .lbracket =>
      if token.value.spaceBefore then .ok none
      else (token.andThen (access expr left)).map some
    | .lparen =>
      if token.value.spaceBefore || !left.parens then .ok none
      else (token.andThen (anonCall expr left)).map some
    | _ => .ok none

def suffixes (expr : Expr) (blocks : Bool) (left : Tree) : MaybeReader Tree :=
  iterate (suffix? expr blocks) left

end CallAtlas.Grammar
