import CallAtlas.Grammar.Block

/-! # Literals and containers

Containers, maps and structs, text with embedded expressions, and what stands in parentheses.
-/
namespace CallAtlas.Grammar

def leaf (form : Form) (t : Token) (name : Bytes) : Tree := { form, span := t.span, name }

def reference (segment : Token) : Tree :=
  { form := .aliases
    span := segment.span
    children := [leaf .aliasSegment segment segment.value] }

def extend (left : Tree) (segment : Token) : Tree :=
  let part := leaf .aliasSegment segment segment.value
  if left.form = .aliases then left.append part
  else { form := .aliases, span := left.span.to segment.span, children := [left, part] }

def moduleSelf (t : Token) : Tree := leaf .moduleSelf t (text "__MODULE__")

/-- The container whose opening delimiter has been read. -/
def container (expr : Expr) (form : Form) (closer : Kind) (start : Span) : Reader Tree :=
  fun c => do
    let found ← items expr closer (form == .tuple) c
    return found.map fun children =>
      { form, span := start.to found.rest.previous.span, children }

def segment? (name : Tree) : OptionReader Tree := fun c =>
  .ok do
    let dot ← c.take? .dot
    let segment ← dot.rest.take? .alias
    return (dot.followedBy segment).map (extend name)

def structHead? (t : Token) : Option Tree :=
  match t.kind with
  | .alias => some (reference t)
  | .moduleSelf => some (moduleSelf t)
  | .identifier => some (leaf .var t t.value)
  | .atom => some (leaf .atom t t.value)
  | _ => none

/-- The map or struct whose `%` has been read. The region of a map starts with the `%`, but inside
a struct with its brace. -/
def mapOrStruct (expr : Expr) (start : Span) : Reader Tree := fun c =>
  match c.take? .lbrace with
  | some brace => brace.andThen (container expr .map .rbrace start)
  | none =>
    match structHead? c.peek, c.next? with
    | some head, some first => do
      let name ← first.andMaybe (iterate segment? head)
      let brace ← name.andThen (Cursor.expect .lbrace .structBody)
      let fields ← brace.andThen (container expr .map .rbrace brace.value.span)
      return fields.map fun t =>
        { form := .struct, span := start.to t.span, children := [name.value, t] }
    | _, _ => c.fail .structName

/-! ### Text -/

def plainText (t : Token) : Tree :=
  match t.kind with
  | .charlist => leaf .charlist t t.value
  | .sigil =>
    { form := .sigil, span := t.span, name := t.sigilName, children := [leaf .string t t.value] }
  | _ => leaf .string t t.value

/-- An expression up to the next fragment, where there may be none. -/
def embedded (expr : Expr) : MaybeReader (List Tree) := fun c =>
  if c.skipNewlines.sees .interpMiddle || c.skipNewlines.sees .interpEnd then
    .ok (c.newlines.map fun _ => [])
  else do
    let value ← loosely (expr 0 true) c
    return (value.map ([·])).maybe.skipNewlines

def nextFragment (expr : Expr) : OptionReader (Bytes × List Tree) := fun c =>
  match c.take? .interpMiddle with
  | some fragment => do
    let values ← fragment.andMaybe (embedded expr)
    return some (values.map fun values => (fragment.value.value, values))
  | none => .ok none

def fragments (expr : Expr) : Reader (Bytes × List Tree) := fun c => do
  let first ← embedded expr c
  let more ← first.andMaybe (many (nextFragment expr))
  let last ← more.andThen (Cursor.expect .interpEnd .closingInterpolation)
  return last.map fun fragment =>
    (more.value.flatMap (·.1) ++ fragment.value, first.value ++ more.value.flatMap (·.2))

/-- The literal whose opening fragment has been read. -/
def interpolated (expr : Expr) (opening : Token) : Reader Tree := fun c => do
  let parts ← fragments expr c
  let span := opening.span.to parts.rest.previous.span
  let (more, children) := parts.value
  let body : Tree :=
    { form := if opening.container = .charlist then .charlist else .string
      span, name := opening.value ++ more, children, interpolated := true }
  return parts.map fun _ =>
    if opening.container = .sigil then
      { form := .sigil, span, name := opening.sigilName, children := [body] }
    else body

/-! ### Parentheses -/

def commaSeparated (expr : Expr) : Reader (List Tree) := fun c => do
  let first ← expr 0 true c
  let more ← first.andMaybe (many fun c => behind (c.take? .comma) (loosely (expr 0 true)))
  return more.map (first.value :: ·)

/-- The clause in parentheses whose arrow has been read, as in `(integer -> atom)`. -/
def parenthesisedClause (expr : Expr) (start : Span) (patterns : List Tree) : Reader Tree :=
  fun c => do
    let result ← expr 0 true c
    let last ← result.andThen (loosely (Cursor.expect .rparen .closingParenOfClause))
    let span := start.to last.value.span
    let head : Tree := { form := .block, span := start, children := patterns }
    let body : Tree := { form := .block, span := result.value.span, children := [result.value] }
    let clause : Tree := { form := .clause, span, children := [head, body] }
    return last.map fun _ => { form := .block, span, children := [clause] }

/-- A further expression in parentheses, which must stand on a line of its own. -/
def nextStatement (expr : Expr) : OptionReader Tree := fun c =>
  if (c.takeLoose? .rparen).isSome then .ok none
  else if c.skipNewlines.previous.kind != .newline then c.skipNewlines.fail .closingParen
  else (loosely (expr 0 true) c).map some

def moreStatements (expr : Expr) : Reader (List Tree) := fun c => do
  let found ← many (nextStatement expr) c
  let last ← found.andThen (loosely (Cursor.expect .rparen .closingParen))
  return last.map fun _ => found.value

/-- What stands in the parentheses whose opening one has been read: nothing, one expression, which
stays as it is, a clause, or a block. -/
def parenthesised (expr : Expr) (start : Span) : Reader Tree := fun c =>
  match c.takeLoose? .rparen with
  | some last =>
    .ok (last.map fun t => { form := .block, span := start.to t.span })
  | none => do
    let first ← loosely (commaSeparated expr) c
    match first.rest.take? .arrow with
    | some arrow => (first.followedBy arrow).andThen (parenthesisedClause expr start first.value)
    | none =>
      match first.value with
      | [single] =>
        let more ← first.andThen (moreStatements expr)
        let span := start.to more.rest.previous.span
        return more.map fun more =>
          if more.isEmpty then single else { form := .block, span, children := single :: more }
      | _ => first.rest.fail .singleExpression

end CallAtlas.Grammar
