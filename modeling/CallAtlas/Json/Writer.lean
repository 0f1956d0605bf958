import CallAtlas.Binary64
import CallAtlas.Json.Value

/-! # Writing JSON

A value is written in front of a given rest, `write v rest`, in a compact layout without blanks or
in a pretty one with a fixed indent per level. Scalars look the same in both. Bytes below 0x20, the
quote and the backslash are escaped and all other bytes are written as they are. Infinities and NaN
have no text in JSON and are written as `null`.
-/
namespace CallAtlas.Json

/-- The lower-case hexadecimal digit of a number below 16. -/
def hexDigit (n : Nat) : UInt8 := UInt8.ofNat (if n < 10 then 48 + n else 87 + n)

/-- How one byte is written inside a string. -/
def escape (b : UInt8) : Bytes :=
  if b = '"' then text "\\\""
  else if b = '\\' then text "\\\\"
  else if b = 8 then text "\\b"
  else if b = 12 then text "\\f"
  else if b = '\n' then text "\\n"
  else if b = '\r' then text "\\r"
  else if b = '\t' then text "\\t"
  else if b < 0x20 then text "\\u00" ++ [hexDigit (b.toNat / 16), hexDigit (b.toNat % 16)]
  else [b]

/-- A string in quotes, in front of `rest`. -/
def writeString (s rest : Bytes) : Bytes :=
  '"' :: s.foldr (fun b more => escape b ++ more) ('"' :: rest)

theorem writeString_append (s a b : Bytes) : writeString s (a ++ b) = writeString s a ++ b := by
  have key : s.foldr (fun b more => escape b ++ more) ('"' :: (a ++ b)) =
      s.foldr (fun b more => escape b ++ more) ('"' :: a) ++ b := by
    induction s with
    | nil => rfl
    | cons c s ih => simp [ih]
  simp [writeString, key]

def floatText (f : Float) : Bytes := (Binary64.toText? f).getD (text "null")

namespace Value

/-! ### Compact layout -/

mutual

def write : Value → Bytes → Bytes
  | .null, rest => text "null" ++ rest
  | .bool b, rest => text (if b then "true" else "false") ++ rest
  | .integer i, rest => Bytes.signedDecimal i.toInt ++ rest
  | .float f, rest => floatText f ++ rest
  | .string s, rest => writeString s rest
  | .array items, rest => '[' :: writeItems items (']' :: rest)
  | .object members, rest => '\x7b' :: writeMembers members ('\x7d' :: rest)

def writeItems : List Value → Bytes → Bytes
  | [], rest => rest
  | [v], rest => write v rest
  | v :: more, rest => write v (',' :: writeItems more rest)

def writeMembers : Table Value → Bytes → Bytes
  | [], rest => rest
  | [(key, v)], rest => writeString key (':' :: write v rest)
  | (key, v) :: more, rest => writeString key (':' :: write v (',' :: writeMembers more rest))

end

def compact (v : Value) : Bytes := v.write []

/-! ### Pretty layout -/

def newLine (indent level : Nat) (rest : Bytes) : Bytes :=
  '\n' :: (List.replicate (level * indent) (' ' : UInt8) ++ rest)

mutual

/-- The pretty text of a value that stands at a nesting level, in front of `rest`. -/
def writePretty (indent level : Nat) : Value → Bytes → Bytes
  | .array (v :: more), rest =>
    '[' :: prettyItems indent level (v :: more) (newLine indent level (']' :: rest))
  | .object (m :: more), rest =>
    '\x7b' :: prettyMembers indent level (m :: more) (newLine indent level ('\x7d' :: rest))
  | .array [], rest => '[' :: ']' :: rest
  | .object [], rest => '\x7b' :: '\x7d' :: rest
  | .null, rest => write .null rest
  | .bool b, rest => write (.bool b) rest
  | .integer i, rest => write (.integer i) rest
  | .float f, rest => write (.float f) rest
  | .string s, rest => write (.string s) rest

def prettyItems (indent level : Nat) : List Value → Bytes → Bytes
  | [], rest => rest
  | [v], rest => newLine indent (level + 1) (writePretty indent (level + 1) v rest)
  | v :: more, rest =>
    newLine indent (level + 1)
      (writePretty indent (level + 1) v (',' :: prettyItems indent level more rest))

def prettyMembers (indent level : Nat) : Table Value → Bytes → Bytes
  | [], rest => rest
  | [(key, v)], rest =>
    newLine indent (level + 1)
      (writeString key (':' :: ' ' :: writePretty indent (level + 1) v rest))
  | (key, v) :: more, rest =>
    newLine indent (level + 1) (writeString key
      (':' :: ' ' :: writePretty indent (level + 1) v
        (',' :: prettyMembers indent level more rest)))

end

/-- The text of a value with one entry a line, indented by `indent` blanks a level. -/
def pretty (indent : Nat) (v : Value) : Bytes := v.writePretty indent 0 []

end Value
end CallAtlas.Json
