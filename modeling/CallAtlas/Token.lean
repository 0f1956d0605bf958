import CallAtlas.Source

/-! # Tokens

Most operators share one kind and are told apart by their lexeme; the ones with a structural meaning
have kinds of their own. A literal with embedded expressions, as in `"a #{x} b"`, is cut into an
opening fragment, the tokens of each expression, inner fragments and a closing fragment.
-/
namespace CallAtlas

inductive Kind where
  | eof | newline | error
  | identifier | alias | moduleSelf | keywordKey | atom
  | integer | float | char | string | charlist | sigil
  | interpStart | interpMiddle | interpEnd
  | kwDo | kwEnd | kwFn | kwElse | kwAfter | kwCatch | kwRescue
  | kwWhen | kwAnd | kwOr | kwNot | kwIn | kwTrue | kwFalse | kwNil
  | lparen | rparen | lbracket | rbracket | lbrace | rbrace | binOpen | binClose | comma
  | dot | arrow | percent | at | operator
  deriving DecidableEq, Repr, Inhabited

namespace Kind

def keywords : List (Bytes × Kind) :=
  [(text "do", .kwDo), (text "end", .kwEnd), (text "fn", .kwFn), (text "else", .kwElse),
    (text "after", .kwAfter), (text "catch", .kwCatch), (text "rescue", .kwRescue),
    (text "when", .kwWhen), (text "and", .kwAnd), (text "or", .kwOr), (text "not", .kwNot),
    (text "in", .kwIn), (text "true", .kwTrue), (text "false", .kwFalse), (text "nil", .kwNil)]

/-- The kind of a word: its own if it is reserved, else an identifier. -/
def ofWord (word : Bytes) : Kind := (keywords.lookup word).getD .identifier

/-- The words that start a further section of a `do` block. -/
def isSection : Kind → Bool
  | .kwElse | .kwAfter | .kwCatch | .kwRescue => true
  | _ => false

def name : Kind → Bytes
  | .eof => text "end of file"
  | .newline => text "newline"
  | .error => text "error"
  | .identifier => text "identifier"
  | .alias => text "alias"
  | .moduleSelf => text "__MODULE__"
  | .keywordKey => text "keyword key"
  | .atom => text "atom"
  | .integer => text "integer"
  | .float => text "float"
  | .char => text "char literal"
  | .string => text "string"
  | .charlist => text "charlist"
  | .sigil => text "sigil"
  | .interpStart => text "interpolated string start"
  | .interpMiddle => text "interpolated string fragment"
  | .interpEnd => text "interpolated string end"
  | .kwDo => text "do"
  | .kwEnd => text "end"
  | .kwFn => text "fn"
  | .kwElse => text "else"
  | .kwAfter => text "after"
  | .kwCatch => text "catch"
  | .kwRescue => text "rescue"
  | .kwWhen => text "when"
  | .kwAnd => text "and"
  | .kwOr => text "or"
  | .kwNot => text "not"
  | .kwIn => text "in"
  | .kwTrue => text "true"
  | .kwFalse => text "false"
  | .kwNil => text "nil"
  | .lparen => text "("
  | .rparen => text ")"
  | .lbracket => text "["
  | .rbracket => text "]"
  | .lbrace => text "\x7b"
  | .rbrace => text "\x7d"
  | .binOpen => text "<<"
  | .binClose => text ">>"
  | .comma => text ","
  | .dot => text "."
  | .arrow => text "->"
  | .percent => text "%"
  | .at => text "@"
  | .operator => text "operator"

/-- A line break behind such a token does not end the expression. -/
def continuesLine : Kind → Bool
  | .newline | .operator | .comma | .lparen | .lbracket | .lbrace | .binOpen | .arrow | .dot
  | .percent | .at | .keywordKey | .kwWhen | .kwAnd | .kwOr | .kwNot | .kwIn | .interpStart
  | .interpMiddle => true
  | _ => false

end Kind

inductive Container where
  | string | charlist | sigil | atom
  deriving DecidableEq, Repr, Inhabited

def Container.kind : Container → Kind
  | .string => .string
  | .charlist => .charlist
  | .sigil => .sigil
  | .atom => .atom

/-- Why a piece of text is no token. -/
inductive LexicalFault where
  | unterminatedInterpolation
  | unterminatedHeredoc
  | unterminatedLiteral
  | heredocOpening
  | sigilHeredocOpening
  | sigilDelimiter
  | missingDigits
  | strayColon
  | missingCharacter
  | openUnicodeEscape
  | invalidUnicodeEscape
  | unexpectedByte (b : UInt8)
  deriving DecidableEq, Repr

def LexicalFault.message : LexicalFault → Bytes
  | .unterminatedInterpolation => text "Unterminated string interpolation"
  | .unterminatedHeredoc => text "Unterminated heredoc"
  | .unterminatedLiteral => text "Unterminated literal"
  | .heredocOpening => text "Heredoc opening delimiter must be followed by a newline"
  | .sigilHeredocOpening => text "Heredoc sigil must start on a new line"
  | .sigilDelimiter => text "Invalid sigil delimiter"
  | .missingDigits => text "Expected digits after number prefix"
  | .strayColon => text "Unexpected ':'"
  | .missingCharacter => text "Expected character after '?'"
  | .openUnicodeEscape => text "Unterminated \\u\x7b...\x7d escape"
  | .invalidUnicodeEscape => text "Invalid \\u escape"
  | .unexpectedByte b => text "Unexpected character '" ++ [b] ++ text "'"

structure Token where
  kind : Kind := .eof
  span : Span := {}
  /-- The raw text; a line break shows a single line feed. -/
  lexeme : Bytes := []
  /-- The decoded text: the name, the unescaped fragment, or the digits without separators. -/
  value : Bytes := []
  container : Container := .string
  sigilName : Bytes := []
  sigilModifiers : Bytes := []
  spaceBefore : Bool := false
  newlineBefore : Bool := false
  deriving DecidableEq, Repr, Inhabited

def Token.isOp (t : Token) (op : String) : Bool := t.kind == .operator && t.lexeme == text op

/-- How a message shows a token that was not expected. -/
def Token.describe (t : Token) : Bytes :=
  match t.kind with
  | .eof | .newline => t.kind.name
  | _ => text "'" ++ t.lexeme ++ text "'"

structure LexicalError where
  fault : LexicalFault
  span : Span
  deriving DecidableEq, Repr

end CallAtlas
