import CallAtlas.Grammar.Suffix
import CallAtlas.Token.Lexer

/-! # Expressions and files

`expression` reads one expression, given how to read the expressions inside it. Nesting is limited:
`expressionAt n` reads expressions that are at most `n` levels deep. A file is a block.
-/
namespace CallAtlas.Grammar

def constructs : List Bytes :=
  ["if", "unless", "case", "cond", "with", "for", "receive", "try", "quote"].map text

/-- The call or variable whose name has been read. A name followed by a `do` block is a call
without arguments. -/
def identifier (expr : Expr) (blocks : Bool) (name : Token) : MaybeReader Tree := fun c => do
  let arguments ← arguments? expr c
  if arguments.value.isNone && !(blocks && arguments.rest.sees .kwDo) then
    return arguments.map fun _ => leaf .var name name.value
  else
    let call : Tree :=
      { form := if constructs.contains name.value then .construct else .call
        span := name.span.to arguments.rest.previous.span
        name := name.value
        children := (arguments.value.map (·.values)).getD []
        parens := arguments.value.any (·.parens) }
    arguments.andMaybe (attach expr blocks call)

def primary (expr : Expr) (blocks : Bool) : Reader Tree := fun c =>
  match c.next? with
  | none => c.fail .expression
  | some first =>
    let token := first.value
    match token.kind with
    | .identifier => first.andMaybe (identifier expr blocks token)
    | .alias => .ok (first.map reference)
    | .moduleSelf => .ok (first.map moduleSelf)
    | .atom => .ok (first.map fun t => leaf .atom t t.value)
    | .kwTrue | .kwFalse | .kwNil => .ok (first.map fun t => leaf .atom t t.lexeme)
    | .integer | .char => .ok (first.map fun t => leaf .integer t t.value)
    | .float => .ok (first.map fun t => leaf .float t t.value)
    | .string | .charlist | .sigil => .ok (first.map plainText)
    | .interpStart => first.andThen (interpolated expr token)
    | .lparen => first.andThen (parenthesised expr token.span)
    | .lbracket => first.andThen (container expr .list .rbracket token.span)
    | .lbrace => first.andThen (container expr .tuple .rbrace token.span)
    | .binOpen => first.andThen (container expr .bitstring .binClose token.span)
    | .percent => first.andThen (mapOrStruct expr token.span)
    | .kwFn => first.andThen (fn expr token)
    | .keywordKey => keywordList expr blocks c
    | .error => c.fail .validToken
    | _ => c.fail .expression

def moduleAttribute (expr : Expr) (blocks : Bool) (start : Span) : Reader Tree := fun c => do
  let name ← Cursor.expect .identifier .attributeName c
  let named : Tree :=
    { form := .attribute, span := start.to name.value.span, name := name.value.value }
  if startsArgument name.rest then
    return (← name.andThen (expr 0 blocks)).map named.append
  else name.andMaybe (suffixes expr blocks named)

def unary (start : Span) (name : Bytes) (operand : Tree) : Tree :=
  { form := .unaryOp, span := start.to operand.span, name, children := [operand] }

/-- The capture `&+/2` of an operator, read up to the operator. -/
def operatorCapture (start : Span) (op : Token) : Reader Tree := fun c => do
  let slash ← Cursor.expect .operator .captureArity c
  let arity ← slash.andThen (Cursor.expect .integer .captureArity)
  return arity.map fun arity =>
    unary start (text "&")
      { form := .binaryOp
        span := op.span.to arity.span
        name := slash.value.lexeme
        children := [leaf .var op op.lexeme, leaf .integer arity arity.value] }

/-- The capture whose `&` has been read: a numbered argument, which takes suffixes of its own, an
operator with its arity, or an expression. -/
def capture (expr : Expr) (blocks : Bool) (start : Span) : Reader Tree := fun c =>
  let captured := unary start (text "&")
  match if c.peek.spaceBefore then none else c.take? .integer with
  | some number =>
    let argument := leaf .integer number.value number.value.value
    number.andMaybe (suffixes expr blocks (captured argument))
  | none =>
    match if namesFunction c.peek && (c.peekAt 1).isOp "/" then c.next? else none with
    | some op => op.andThen (operatorCapture start op.value)
    | none => (expr Operator.captureLevel blocks c).map (·.map captured)

def unaryName? (t : Token) : Option Bytes :=
  if t.kind = .kwNot then some (text "not")
  else if ["-", "+", "!", "^"].any t.isOp then some t.lexeme
  else none

def operand (expr : Expr) (blocks : Bool) : Reader Tree := fun c =>
  match c.next? with
  | none => c.fail .expression
  | some first =>
    let token := first.value
    if token.kind = .at then first.andThen (moduleAttribute expr blocks token.span)
    else if token.isOp "&" then first.andThen (capture expr blocks token.span)
    else if token.isOp "..." then .ok (first.map fun t => leaf .var t t.lexeme)
    else
      match unaryName? token with
      | some name => do
        let value ← first.andThen (expr Operator.unaryLevel blocks)
        return value.map (unary token.span name)
      | none => do
        let left ← primary expr blocks c
        left.andMaybe (suffixes expr blocks left.value)

def expression (expr : Expr) : Expr := fun level blocks c => do
  let left ← operand expr blocks c
  left.andMaybe (climb expr level blocks left.value)

/-- Reads an expression nested at most `depth` levels deep. -/
def expressionAt : (depth : Nat) → Expr
  | 0 => fun _ _ c => c.fail .lessNesting
  | depth + 1 => expression (expressionAt depth)

def maxNesting : Nat := 512

/-- The first expression of a token list; what follows it is not looked at. -/
def parseExpression (tokens : List Token) : Except SyntaxError Tree := do
  return (← loosely (expressionAt maxNesting 0 true) (.ofTokens tokens)).value

def parseTokens (tokens : List Token) : Except SyntaxError Tree := do
  let file := (← block (expressionAt maxNesting) (.ofTokens tokens)).skipNewlines
  if file.rest.atEnd then return file.value else file.rest.fail .endOfFile

/-- The tree of a source text. Lexical errors are all reported, and otherwise the first error of
the expressions. -/
def parse (s : Source) : Except (List SyntaxError) Tree :=
  match tokenize s with
  | (tokens, []) => (parseTokens tokens).mapError ([·])
  | (_, errors) => .error (errors.map .lexical)

end CallAtlas.Grammar
