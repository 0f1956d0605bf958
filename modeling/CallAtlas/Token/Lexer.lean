import CallAtlas.Token.Scan

/-! # Cutting a source into tokens

Between tokens stand blanks, comments, joined lines and line breaks. A line break is a token of its
own only where it ends an expression: not behind a token that needs a continuation, and not before a
line that starts with a continuing operator. A fault never stops the lexer: the text it is about
becomes an error token, and reading goes on behind it.

The token list always ends with the one end-of-file token.
-/
namespace CallAtlas

namespace Lexer

/-! ### Gaps between tokens -/

def isBlank (b : UInt8) : Bool := b == ' ' || b == '\t' || b == '\r'

def commentWidth (bs : Bytes) : Nat := (bs.takeWhile fun (b : UInt8) => b != '\n').length

/-- The width of the blanks, comments and joined lines at the start of `bs`, and whether a blank or
a joined line is among them. -/
def blanks (bs : Bytes) : Nat × Bool :=
  match bs with
  | [] => (0, false)
  | b :: more =>
    if isBlank b then
      let (width, _) := blanks more
      (width + 1, true)
    else if b = '#' then
      let comment := commentWidth more
      let (width, spaced) := blanks (more.drop comment)
      (width + comment + 1, spaced)
    else if b = '\\' ∧ more.head? = some ('\n' : UInt8) then
      let (width, _) := blanks (more.drop 1)
      (width + 2, true)
    else (0, false)
termination_by bs.length

def blankLines (bs : Bytes) : Nat :=
  match bs with
  | [] => 0
  | b :: more =>
    if b = '\n' ∨ isBlank b then blankLines more + 1
    else if b = '#' then
      let comment := commentWidth more
      blankLines (more.drop comment) + comment + 1
    else 0
termination_by bs.length

def continuations : List Bytes :=
  [text "|>", text "<>", text "++", text "&&", text "||", text "when ", text "and ", text "or "]

/-- Whether the line at `bs` continues the line before it. A single dot does, a range does not. -/
def continuesPrevious (bs : Bytes) : Bool :=
  (Scan.firstOf continuations bs).isSome || (Scan.peek bs 0 == '.' && Scan.peek bs 1 != '.')

/-- What stands before a token: its width, and whether there is a blank or a line break in it. If
the line break there ends an expression it is a token itself, of width `ending`. -/
structure Gap where
  width : Nat := 0
  spaced : Bool := false
  broken : Bool := false
  ending : Option Nat := none
  deriving DecidableEq, Repr

def Gap.after (gap : Gap) (width : Nat) (spaced broken : Bool) : Gap :=
  { gap with
    width := width + gap.width
    spaced := spaced || gap.spaced
    broken := broken || gap.broken }

theorem length_lt_of_drop_eq {bs more : Bytes} {b : UInt8} {n : Nat} (h : bs.drop n = b :: more) :
    more.length < bs.length := by
  have := congrArg List.length h
  simp only [List.length_drop, List.length_cons] at this
  omega

def gap (last : Kind) (bs : Bytes) : Gap :=
  let (width, spaced) := blanks bs
  match h : bs.drop width with
  | b :: more =>
    if b = '\n' then
      let lines := blankLines more
      let rest := more.drop lines
      if rest.isEmpty || last.continuesLine || continuesPrevious rest then
        (gap last rest).after (width + 1 + lines) spaced true
      else { width, spaced, broken := true, ending := some (1 + lines) }
    else { width, spaced }
  | [] => { width, spaced }
termination_by bs.length
decreasing_by
  have := length_lt_of_drop_eq h
  simp only [List.length_drop]
  omega

/-! ### Tokens -/

/-- Places a lexeme of the text `bs` at an offset. The region of a token runs from its first byte to
its last. -/
def place (lines : LineTable) (offset : Nat) (bs : Bytes) (gap : Gap) (lexeme : Lexeme) : Token :=
  { kind := lexeme.kind
    span :=
      { start := { lines.location offset with length := lexeme.width % UInt32.size }
        stop := lines.location (offset + lexeme.width - 1) }
    lexeme := bs.take lexeme.width
    value := lexeme.value
    container := lexeme.container
    sigilName := lexeme.sigilName
    sigilModifiers := lexeme.sigilModifiers
    spaceBefore := gap.spaced || gap.broken
    newlineBefore := gap.broken }

/-- Places the faults of a lexeme at an offset. The region of a fault ends where reading stood when
it was noticed. -/
def placeFaults (lines : LineTable) (offset : Nat) (lexeme : Lexeme) : List LexicalError :=
  lexeme.faults.map fun f => ⟨f.1, lines.location offset, lines.location (offset + f.2)⟩

/-- The end of the tokens: an expression embedded in a literal cannot go on. -/
def finish (lines : LineTable) (offset : Nat) (gap : Gap) (frames : List Frame) :
    List Token × List LexicalError :=
  let eof (gap : Gap) : Token := place lines offset [] gap { kind := .eof, width := 0 }
  if frames.isEmpty then ([eof gap], [])
  else
    let cut := Lexeme.failed .unterminatedInterpolation 0
    ([place lines offset [] gap cut, eof {}], placeFaults lines offset cut)

def tokensFrom (lines : LineTable) (last : Kind) (frames : List Frame) (offset : Nat) (bs : Bytes) :
    List Token × List LexicalError :=
  let before := gap last bs
  let start := offset + before.width
  match h : bs.drop before.width with
  | [] => finish lines start before frames
  | b :: more =>
    have := length_lt_of_drop_eq h
    match before.ending with
    | some width =>
      let token := { place lines start (b :: more) before { kind := .newline, width } with
        lexeme := ['\n'] }
      let (tokens, errors) :=
        tokensFrom lines .newline frames (start + width) (more.drop (width - 1))
      (token :: tokens, errors)
    | none =>
      let (lexeme, frames') := scan (b :: more) frames
      let (tokens, errors) :=
        tokensFrom lines lexeme.kind frames' (start + lexeme.width) (more.drop (lexeme.width - 1))
      (place lines start (b :: more) before lexeme :: tokens,
        placeFaults lines start lexeme ++ errors)
termination_by bs.length

end Lexer

def tokenize (source : Source) : List Token × List LexicalError :=
  Lexer.tokensFrom source.lineTable .newline [] 0 source.text

end CallAtlas
