import CallAtlas.Token.Literal

/-! # One token

`scan` reads the token at the start of a non-empty text that starts with no blank, comment or line
break. It knows the literals that are open around it: a stack of frames, one for each embedded
expression being read, with the number of braces open inside it. A closing brace at depth zero
continues the literal of the innermost frame.
-/
namespace CallAtlas

/-- A token without its place: what it is, how many bytes it has, and the faults found in it, each
with the number of its bytes read when it was noticed. -/
structure Lexeme where
  kind : Kind
  width : Nat
  value : Bytes := []
  container : Container := .string
  sigilName : Bytes := []
  sigilModifiers : Bytes := []
  faults : List (LexicalFault × Nat) := []
  deriving DecidableEq, Repr

def Lexeme.failed (fault : LexicalFault) (width : Nat) : Lexeme :=
  { kind := .error, width, faults := [(fault, width)] }

/-- An embedded expression that is being read: the literal around it, and its open braces. -/
structure Frame where
  form : LiteralForm
  depth : Int := 0
  deriving DecidableEq, Repr

namespace Scan

/-! ### Character classes

Beyond the end of the text the next byte counts as zero, so a zero byte in the text looks like its
end to `isSpaceOrEnd`. -/

def peek (bs : Bytes) (index : Nat) : UInt8 := bs.getD index 0

def startsName (b : UInt8) : Bool := Bytes.isLower b || b == '_' || 0x80 ≤ b

def continuesName (b : UInt8) : Bool := startsName b || Bytes.isUpper b || Bytes.isDigit b

def isLetter (b : UInt8) : Bool := Bytes.isLower b || Bytes.isUpper b

def isSpaceOrEnd (b : UInt8) : Bool :=
  b == ' ' || b == '\t' || b == '\n' || b == '\r' || b == 0

def firstOf (choices : List Bytes) (bs : Bytes) : Option Bytes :=
  choices.find? fun choice => choice.isPrefixOf bs

/-! ### Names -/

/-- A name of `width` bytes: a keyword key if a colon and then a blank or the end follow it. -/
def named (bs : Bytes) (width : Nat) (kind : Bytes → Kind) : Lexeme :=
  let name := bs.take width
  if peek bs width == ':' && isSpaceOrEnd (peek bs (width + 1)) then
    { kind := .keywordKey, width := width + 1, value := name }
  else { kind := kind name, width, value := name }

/-- The width of a name and of the question or exclamation mark behind it. The mark of `!=` does not
belong to the name. -/
def markedWidth (bs : Bytes) : Nat :=
  let width := (bs.takeWhile continuesName).length
  let mark := peek bs width
  if mark == '?' || (mark == '!' && peek bs (width + 1) != '=') then width + 1 else width

def identifier (bs : Bytes) : Lexeme :=
  named bs (markedWidth bs) fun name =>
    if name == text "__MODULE__" then .moduleSelf else Kind.ofWord name

def aliasName (bs : Bytes) : Lexeme :=
  named bs (bs.takeWhile continuesName).length fun _ => .alias

/-! ### Literals -/

/-- The token of a literal's fragment. `opening` is the number of bytes before the fragment's body,
which are the delimiter of a literal that starts here or the brace that closes an expression. -/
def fragment (form : LiteralForm) (starts : Bool) (opening : Nat) (rest : Bytes)
    (frames : List Frame) : Lexeme × List Frame :=
  let body := form.body (form.heredoc && starts) rest
  let width := opening + body.width
  let faults := shiftFaults opening body.faults
  match body.ending with
  | .unterminated =>
    let fault := if form.heredoc then .unterminatedHeredoc else .unterminatedLiteral
    ({ Lexeme.failed fault width with faults := faults ++ [(fault, width)] },
      if starts then frames else frames.tail)
  | .opened =>
    ({ kind := if starts then .interpStart else .interpMiddle, width, value := body.value,
       container := form.container, sigilName := form.sigilName, faults },
      if starts then { form } :: frames else frames)
  | .closed =>
    let modifiers : Bytes :=
      if form.container = .sigil then (rest.drop body.width).takeWhile isLetter else []
    ({ kind := if starts then form.container.kind else .interpEnd,
       width := width + modifiers.length, value := body.value, container := form.container,
       sigilName := form.sigilName, sigilModifiers := modifiers, faults },
      if starts then frames else frames.tail)

def isMargin (b : UInt8) : Bool := b == ' ' || b == '\t' || b == '\r'

/-- The literal whose opening delimiter starts `rest`, behind `before` bytes of the token. Three
quotes open a heredoc, which must start on a new line. -/
def heredoc (form : LiteralForm) (fault : LexicalFault) (before : Nat) (rest : Bytes)
    (frames : List Frame) : Lexeme × List Frame :=
  let width := 3 + ((rest.drop 3).takeWhile isMargin).length
  if peek rest width == '\n' then
    fragment { form with closer := rest.take 3, heredoc := true } true (before + width + 1)
      (rest.drop (width + 1)) frames
  else (.failed fault (before + width), frames)

def opensHeredoc (bs : Bytes) : Bool :=
  (firstOf [text "\"\"\"", text "'''"] bs).isSome

/-- A string or charlist. A quoted text with a colon behind it is a keyword key. -/
def quoted (container : Container) (bs : Bytes) (frames : List Frame) : Lexeme × List Frame :=
  let form : LiteralForm := { container, closer := bs.take 1 }
  if opensHeredoc bs then heredoc form .heredocOpening 0 bs frames
  else
    let (lexeme, frames') := fragment form true 1 (bs.drop 1) frames
    if lexeme.kind == .string && peek bs lexeme.width == ':' &&
        isSpaceOrEnd (peek bs (lexeme.width + 1)) then
      ({ kind := .keywordKey, width := lexeme.width + 1, value := lexeme.value,
         faults := lexeme.faults }, frames')
    else (lexeme, frames')

def delimiters : List (UInt8 × UInt8) :=
  [('(', ')'), ('[', ']'), ('\x7b', '\x7d'), ('<', '>'), ('/', '/'), ('|', '|'), ('"', '"'),
    ('\'', '\'')]

/-- A sigil. Upper-case ones keep their text as it is written. -/
def sigil (bs : Bytes) (frames : List Frame) : Lexeme × List Frame :=
  let name :=
    if Bytes.isUpper (peek bs 1) then
      (bs.drop 1).takeWhile fun b => Bytes.isUpper b || Bytes.isDigit b
    else (bs.drop 1).take 1
  let decoded := !Bytes.isUpper (peek bs 1)
  let form : LiteralForm :=
    { container := .sigil, closer := [], interpolates := decoded, escapes := decoded,
      sigilName := name }
  let before := 1 + name.length
  let rest := bs.drop before
  if opensHeredoc rest then heredoc form .sigilHeredocOpening before rest frames
  else
    match delimiters.lookup (peek rest 0) with
    | none => (.failed .sigilDelimiter before, frames)
    | some close => fragment { form with closer := [close] } true (before + 1) (rest.drop 1) frames

/-! ### Atoms and characters -/

def operatorAtoms : List Bytes :=
  [text "<<>>", text "===", text "!==", text "<<<", text ">>>", text "&&&", text "|||", text "^^^",
    text "...", text "%\x7b\x7d", text "<>", text "==", text "!=", text "<=", text ">=", text "&&",
    text "||", text "++", text "--", text "..", text "|>", text "=~", text "**", text "->",
    text "\x7b\x7d", text "//", text "+", text "-", text "*", text "/", text "<", text ">",
    text "!", text "^", text "&", text "|", text "=", text "%", text "@", text "."]

/-- What a colon starts: an atom, or the operator `::`. -/
def colon (bs : Bytes) (frames : List Frame) : Lexeme × List Frame :=
  let next := peek bs 1
  if next == ':' then ({ kind := .operator, width := 2 }, frames)
  else if next == '"' || next == '\'' then
    fragment { container := .atom, closer := [next], interpolates := false } true 2 (bs.drop 2)
      frames
  else if startsName next || Bytes.isUpper next then
    let plain := ((bs.drop 1).takeWhile fun b => continuesName b || b == '@').length
    let mark := peek bs (1 + plain)
    let width := if mark == '?' || mark == '!' then plain + 1 else plain
    ({ kind := .atom, width := 1 + width, value := (bs.drop 1).take width }, frames)
  else
    match firstOf operatorAtoms (bs.drop 1) with
    | some op => ({ kind := .atom, width := 1 + op.length, value := op }, frames)
    | none => (.failed .strayColon 1, frames)

def continuationBytes (lead : UInt8) : Nat :=
  if 0xF0 ≤ lead then 3 else if 0xE0 ≤ lead then 2 else if 0xC0 ≤ lead then 1 else 0

def codePoint (lead : UInt8) (tail : Bytes) : Nat :=
  let extra := continuationBytes lead
  if extra = 0 then lead.toNat
  else tail.foldl (fun n b => n * 64 + b.toNat % 64) (lead.toNat % (64 >>> extra))

/-- A character literal, whose value is the code point in decimal. An escape counts with its first
byte. -/
def character (bs : Bytes) : Lexeme :=
  match bs.drop 1 with
  | [] => .failed .missingCharacter 1
  | b :: more =>
    if isSpaceOrEnd b then .failed .missingCharacter 1
    else if b = '\\' then
      let escape := Escape.decode more
      let width := 2 + escape.width
      { kind := .char, width, value := Bytes.decimal (escape.value.headD 0).toNat,
        faults := (escape.fault.map fun f => (f, width)).toList }
    else
      let tail := more.take (continuationBytes b)
      { kind := .char, width := 2 + tail.length, value := Bytes.decimal (codePoint b tail) }

/-! ### Numbers -/

/-- The width of a run of decimal digits with single underscores between digits. -/
def decimalRun : Bytes → Nat
  | [] => 0
  | b :: bs =>
    if Bytes.isDigit b || (b == '_' && Bytes.isDigit (peek bs 0)) then 1 + decimalRun bs else 0

/-- The digits of the base that a letter behind a zero names. -/
def baseDigit? (letter : UInt8) : Option (UInt8 → Bool) :=
  if letter = 'x' then some fun b => (Bytes.hexDigit? b).isSome
  else if letter = 'b' then some fun b => b == '0' || b == '1'
  else if letter = 'o' then some fun b => '0' ≤ b && b ≤ '7'
  else none

def exponentRun (bs : Bytes) : Nat :=
  if peek bs 0 == 'e' || peek bs 0 == 'E' then
    if Bytes.isDigit (peek bs 1) then 1 + decimalRun (bs.drop 1)
    else if (peek bs 1 == '+' || peek bs 1 == '-') && Bytes.isDigit (peek bs 2) then
      2 + decimalRun (bs.drop 2)
    else 0
  else 0

/-- The width of a fraction with its point, zero if no digit follows a point. -/
def fractionRun (bs : Bytes) : Nat :=
  if peek bs 0 == '.' && Bytes.isDigit (peek bs 1) then 1 + decimalRun (bs.drop 1) else 0

def digitsOnly (bs : Bytes) : Bytes := bs.filter fun b => b != '_'

def basedNumber (isDigit : UInt8 → Bool) (bs : Bytes) : Lexeme :=
  let width := 2 + ((bs.drop 2).takeWhile fun b => isDigit b || b == '_').length
  let digits := digitsOnly (bs.take width)
  if digits.length = 2 then .failed .missingDigits width
  else { kind := .integer, width, value := digits }

def decimalNumber (bs : Bytes) : Lexeme :=
  let whole := decimalRun bs
  let fraction := fractionRun (bs.drop whole)
  if fraction = 0 then { kind := .integer, width := whole, value := digitsOnly (bs.take whole) }
  else
    let width := whole + fraction + exponentRun (bs.drop (whole + fraction))
    { kind := .float, width, value := digitsOnly (bs.take width) }

def number (bs : Bytes) : Lexeme :=
  match if peek bs 0 == '0' then baseDigit? (peek bs 1) else none with
  | some isDigit => basedNumber isDigit bs
  | none => decimalNumber bs

/-! ### Operators -/

def longOperators : List (Bytes × Kind) :=
  let operators (ops : List String) : List (Bytes × Kind) := ops.map fun op => (text op, .operator)
  operators ["===", "!==", "<<<", ">>>", "&&&", "|||", "^^^", "~>>", "<<~", "<~>", "...", "+++",
    "---", "<|>"] ++
  [(text ">>", .binClose)] ++
  operators ["|>", "<>", "++", "--", "..", "//", "::", "<-", "=>", "\\\\", "==", "!=", "=~", "<=",
    ">=", "&&", "||", "**", "~>", "<~"] ++
  [(text "->", .arrow), (text "<<", .binOpen)]

def shortOperators : List (UInt8 × Kind) :=
  [('(', .lparen), (')', .rparen), ('[', .lbracket), (']', .rbracket), ('\x7b', .lbrace),
    ('\x7d', .rbrace), (',', .comma), ('.', .dot), ('%', .percent), ('@', .at), ('+', .operator),
    ('-', .operator), ('*', .operator), ('/', .operator), ('=', .operator), ('<', .operator),
    ('>', .operator), ('!', .operator), ('^', .operator), ('&', .operator), ('|', .operator)]

/-- An operator or delimiter; the longest one wins. -/
def operator (bs : Bytes) : Lexeme :=
  match longOperators.find? fun op => op.1.isPrefixOf bs with
  | some (op, kind) => { kind, width := op.length }
  | none =>
    match shortOperators.lookup (peek bs 0) with
    | some kind => { kind, width := 1 }
    | none => .failed (.unexpectedByte (peek bs 0)) 1

/-- The frames behind a token: braces count in the innermost embedded expression. -/
def countBrace (kind : Kind) : List Frame → List Frame
  | [] => []
  | frame :: frames =>
    match kind with
    | .lbrace => { frame with depth := frame.depth + 1 } :: frames
    | .rbrace => { frame with depth := frame.depth - 1 } :: frames
    | _ => frame :: frames

def operatorIn (bs : Bytes) (frames : List Frame) : Lexeme × List Frame :=
  let lexeme := operator bs
  (lexeme, countBrace lexeme.kind frames)

end Scan

open Scan in
def scan (bs : Bytes) (frames : List Frame) : Lexeme × List Frame :=
  let b := peek bs 0
  if b == ';' then ({ kind := .newline, width := 1 }, frames)
  else if startsName b then (identifier bs, frames)
  else if Bytes.isUpper b then (aliasName bs, frames)
  else if Bytes.isDigit b then (number bs, frames)
  else if b == '"' then quoted .string bs frames
  else if b == '\'' then quoted .charlist bs frames
  else if b == ':' then colon bs frames
  else if b == '?' then (character bs, frames)
  else if b == '~' && isLetter (peek bs 1) then sigil bs frames
  else if b == '\x7d' then
    match frames with
    | { form, depth := 0 } :: _ => fragment form false 1 (bs.drop 1) frames
    | _ => operatorIn bs frames
  else operatorIn bs frames

end CallAtlas
