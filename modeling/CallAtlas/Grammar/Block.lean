import CallAtlas.Grammar.Arguments

/-! # Blocks

A block is a list of lines up to `end`, a further section or the end of the file. A line is an
expression, or expressions followed by `->`, which start a clause. The expressions behind a clause's
arrow, up to the next clause, are its body.
-/
namespace CallAtlas.Grammar

inductive Line where
  | statement (t : Tree)
  /-- The patterns before an arrow, the region up to the arrow, and the arrow's own. -/
  | clause (head : Tree) (span arrow : Span)

/-- The children of a block: the statements before the first clause, then the clauses with the
statements that follow each. -/
def assemble (lines : List Line) : List Tree :=
  let (statements, clauses) := lines.foldr (fun line (statements, clauses) =>
    match line with
    | .statement t => (t :: statements, clauses)
    | .clause head span arrow =>
      let body : Tree := { form := .block, span := arrow, children := statements }
      ([], { form := .clause, span, children := [head, body] } :: clauses))
    (([] : List Tree), ([] : List Tree))
  statements ++ clauses

def clauseLine (start : Span) (patterns : List Tree) (arrow : Token) : Line :=
  .clause { form := .block, span := start, children := patterns } (start.to arrow.span) arrow.span

def line (expr : Expr) : Reader Line := fun c =>
  let start := c.peek.span
  match c.take? .arrow with
  | some arrow => .ok (arrow.map (clauseLine start []))
  | none => do
    let first ← expr 0 true c
    let more ← first.andMaybe (moreArguments expr true)
    match more.rest.take? .arrow with
    | some arrow =>
      return (more.followedBy arrow).map (clauseLine start (first.value :: more.value))
    | none =>
      if !more.value.isEmpty then throw (.commaBetweenExpressions start)
      else if more.rest.sees .newline || more.rest.atBlockEnd then
        return more.map fun _ => .statement first.value
      else more.rest.fail .endOfExpression

def nextLine (expr : Expr) : OptionReader Line := fun c =>
  if c.skipNewlines.atBlockEnd then .ok none else (loosely (line expr) c).map some

def block (expr : Expr) : MaybeReader Tree := fun c => do
  let lines := (← many (nextLine expr) c).skipNewlines
  let children := assemble lines.value
  let start := c.peek.span
  let span := if children.isEmpty then start else start.to lines.rest.previous.span
  return lines.map fun _ => { form := .block, span, children }

/-- The section `name` of a `do` block, whose name has been read: a pair of name and body. -/
def doSection (expr : Expr) (name : Bytes) (span : Span) : MaybeReader Tree := fun c => do
  let body ← block expr c
  return body.map fun t => { form := .pair, span, children := [{ form := .atom, span, name }, t] }

def nextSection (expr : Expr) : OptionReader Tree := fun c =>
  match c.takeIf? Kind.isSection with
  | some word => (word.andMaybe (doSection expr word.value.lexeme word.value.span)).map some
  | none => .ok none

/-- The `do` block whose `do` has been read. -/
def doBlock (expr : Expr) (opening : Token) : Reader Tree := fun c => do
  let first ← doSection expr (text "do") opening.span c
  let more ← first.andMaybe (many (nextSection expr))
  let last ← more.andThen (Cursor.expect .kwEnd .endOfDoBlock)
  return last.map fun word =>
    { form := .doBlock
      span := opening.span.to word.span
      children := first.value :: more.value }

/-- The call with the `do` block that follows it, where a block may attach. -/
def attach (expr : Expr) (blocks : Bool) (call : Tree) : MaybeReader Tree := fun c =>
  match if blocks then c.take? .kwDo else none with
  | some opening => do
    let body ← opening.andThen (doBlock expr opening.value)
    return (body.map call.append).maybe
  | none => .ok (c.stay call)

def fn (expr : Expr) (opening : Token) : Reader Tree := fun c => do
  let body ← block expr c
  let last ← body.andThen (Cursor.expect .kwEnd .endOfFn)
  let span := opening.span.to last.value.span
  let clauses := body.value.children
  match clauses.find? (·.form != .clause) with
  | some child => throw (.clauseWithoutArrow child.span)
  | none =>
    if clauses.isEmpty then throw (.noClauses span)
    else return last.map fun _ => { form := .fn, span, children := clauses }

end CallAtlas.Grammar
