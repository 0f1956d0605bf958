import CallAtlas.Grammar.Cursor

/-! # Arguments and elements

Entries `key: value` at the end of an argument list are folded into one list of pairs, so that
`if x, do: a, else: b` has two arguments. Inside brackets each pair stands alone, and an argument
list without parentheses ends with the line.
-/
namespace CallAtlas.Grammar

def keywordPair (expr : Expr) (blocks : Bool) : Reader Tree := fun c => do
  let key ← Cursor.expect .keywordKey .keywordKey c
  let value ← key.andThen (expr 0 blocks)
  let atom : Tree := { form := .atom, span := key.value.span, name := key.value.value }
  return value.map fun t =>
    { form := .pair, span := key.value.span.to t.span, children := [atom, t] }

/-- A further pair behind a comma, which is taken only before a key. -/
def nextPair (expr : Expr) (blocks : Bool) : OptionReader Tree := fun c =>
  behind (if (c.peekAt 1).kind == .keywordKey then c.take? .comma else none)
    (keywordPair expr blocks)

def keywordList (expr : Expr) (blocks : Bool) : Reader Tree := fun c => do
  let first ← keywordPair expr blocks c
  let more ← first.andMaybe (many (nextPair expr blocks))
  return more.map fun pairs =>
    { form := .list
      span := c.peek.span.to more.rest.previous.span
      children := first.value :: pairs }

/-! ### Between delimiters -/

/-- One entry between delimiters; `folds` tells whether pairs are folded into one list. -/
def item (expr : Expr) (folds : Bool) : Reader Tree := fun c =>
  if c.sees .keywordKey then
    if folds then keywordList expr true c else keywordPair expr true c
  else expr 0 true c

def nextItem (expr : Expr) (closer : Kind) (folds : Bool) : OptionReader Tree := fun c =>
  match c.takeLoose? .comma with
  | some comma =>
    if (comma.rest.takeLoose? closer).isSome then .ok none
    else (comma.andThen (loosely (item expr folds))).map some
  | none => .ok none

def closing (closer : Kind) : Reader Token := fun c =>
  match c.takeLoose? .comma with
  | some comma => comma.andThen (loosely (Cursor.expect closer .closingDelimiter))
  | none => loosely (Cursor.expect closer .closingDelimiter) c

/-- The entries up to a closing delimiter, which is read too. Line breaks may stand around entries,
and a comma behind the last one. -/
def items (expr : Expr) (closer : Kind) (folds : Bool) : Reader (List Tree) := fun c =>
  match c.takeLoose? closer with
  | some closer => .ok (closer.map fun _ => [])
  | none => do
    let first ← loosely (item expr folds) c
    let more ← first.andMaybe (many (nextItem expr closer folds))
    let last ← more.andThen (closing closer)
    return last.map fun _ => first.value :: more.value

/-! ### Without delimiters -/

def nextArgument (expr : Expr) (blocks : Bool) : OptionReader Tree := fun c =>
  behind (if (c.peekAt 1).kind == .keywordKey then none else c.take? .comma) (expr 0 blocks)

/-- The further arguments, each behind a comma. Pairs are folded into one list and end them. -/
def moreArguments (expr : Expr) (blocks : Bool) : MaybeReader (List Tree) := fun c => do
  let plain ← many (nextArgument expr blocks) c
  match plain.rest.take? .comma with
  | none => return plain
  | some comma =>
    let pairs ← comma.andThen (keywordList expr blocks)
    return plain.followedBy (pairs.map fun t => plain.value ++ [t]).maybe

def openArguments (expr : Expr) : Reader (List Tree) := fun c =>
  if c.sees .keywordKey then (keywordList expr false c).map (·.map ([·]))
  else do
    let first ← expr 0 false c
    let more ← first.andMaybe (moreArguments expr false)
    return more.map (first.value :: ·)

def startsOperand : Kind → Bool
  | .identifier | .alias | .moduleSelf | .keywordKey | .atom | .integer | .float | .char | .string
  | .charlist | .sigil | .interpStart | .lparen | .lbracket | .lbrace | .binOpen | .percent | .at
  | .kwFn | .kwTrue | .kwFalse | .kwNil => true
  | _ => false

/-- Whether the next token starts the arguments of a call without parentheses. It does behind a
blank on the same line if it can only start an operand. A sign must touch its operand, as in
`foo -1`, and `not in` is an operator. -/
def startsArgument (c : Cursor) : Bool :=
  let token := c.peek
  token.spaceBefore && !token.newlineBefore &&
    (startsOperand token.kind ||
      (token.kind == .kwNot && (c.peekAt 1).kind != .kwIn) ||
      (["-", "+", "!", "^", "&"].any token.isOp && !(c.peekAt 1).spaceBefore) ||
      token.isOp "...")

structure Arguments where
  parens : Bool
  values : List Tree

/-- The arguments behind a name, if there are any: a parenthesis must touch the name. -/
def arguments? (expr : Expr) : MaybeReader (Option Arguments) := fun c =>
  match if c.peek.spaceBefore then none else c.take? .lparen with
  | some opening => do
    let values ← opening.andThen (items expr .rparen true)
    return (values.map fun values => some ⟨true, values⟩).maybe
  | none =>
    if startsArgument c then do
      let values ← openArguments expr c
      return (values.map fun values => some ⟨false, values⟩).maybe
    else .ok (c.stay none)

end CallAtlas.Grammar
