import CallAtlas.Binary64
import CallAtlas.Json.Value

/-! # Reading JSON

A document is one value with blanks around it. Containers nest at most `maxDepth` deep: the reader
of a value has a budget, the readers of arrays and objects are given the reader with one less, and
an opening bracket met with no budget left is refused. Every read ends in a strictly shorter rest,
which is what ends the loops over items and members.

A cursor keeps the line and the byte column of the next byte, and an error carries the position that
the cursor had when the fault was noticed.
-/
namespace CallAtlas.Json

inductive Fault where
  | emptyInput
  | trailingContent
  | endOfInput
  | unexpected (b : UInt8)
  | tooDeep
  | expectedKey
  | expectedColon
  | expectedMemberEnd
  | expectedItemEnd
  | unterminatedString
  | controlCharacter
  | unterminatedEscape
  | invalidUnicodeEscape
  | invalidEscape (b : UInt8)
  | invalidNumber
  | expectedFraction
  | expectedExponent
  deriving DecidableEq, Repr

def Fault.message : Fault → Bytes
  | .emptyInput => text "Empty input"
  | .trailingContent => text "Unexpected content after JSON value"
  | .endOfInput => text "Unexpected end of input"
  | .unexpected b => text "Unexpected character '" ++ [b] ++ text "'"
  | .tooDeep => text "Maximum nesting depth exceeded"
  | .expectedKey => text "Expected string key in object"
  | .expectedColon => text "Expected ':' after object key"
  | .expectedMemberEnd => text "Expected ',' or '\x7d' in object"
  | .expectedItemEnd => text "Expected ',' or ']' in array"
  | .unterminatedString => text "Unterminated string"
  | .controlCharacter => text "Control character in string"
  | .unterminatedEscape => text "Unterminated escape sequence"
  | .invalidUnicodeEscape => text "Invalid \\u escape"
  | .invalidEscape b => text "Invalid escape '\\" ++ [b] ++ text "'"
  | .invalidNumber => text "Invalid number"
  | .expectedFraction => text "Expected digit after decimal point"
  | .expectedExponent => text "Expected digit in exponent"

/-- A message with the position it is about. Lines and columns count from 1; a zero means that the
position is unknown, and unknown parts are left out. -/
def located (message : Bytes) (line column : Nat) : Bytes :=
  if 0 < line ∧ 0 < column then
    text "line " ++ Bytes.decimal line ++ text ", column " ++ Bytes.decimal column ++ text ": " ++
      message
  else if 0 < line then text "line " ++ Bytes.decimal line ++ text ": " ++ message
  else message

structure Error where
  fault : Fault
  line : Nat
  column : Nat
  deriving DecidableEq, Repr

def Error.message (e : Error) : Bytes := located e.fault.message e.line e.column

/-! ### Cursors -/

structure Cursor where
  rest : Bytes
  line : Nat
  column : Nat

namespace Cursor

def start (bs : Bytes) : Cursor := ⟨bs, 1, 1⟩

def size (c : Cursor) : Nat := c.rest.length

def fail {α : Type} (c : Cursor) (fault : Fault) : Except Error α :=
  .error ⟨fault, c.line, c.column⟩

def past (c : Cursor) (b : UInt8) (rest : Bytes) : Cursor :=
  if b = '\n' then ⟨rest, c.line + 1, 1⟩ else ⟨rest, c.line, c.column + 1⟩

theorem rest_past (c : Cursor) (b : UInt8) (rest : Bytes) : (c.past b rest).rest = rest := by
  unfold past
  split <;> rfl

/-- The cursor `n` bytes on, none of which is a line feed. -/
def skip (c : Cursor) (n : Nat) : Cursor := ⟨c.rest.drop n, c.line, c.column + n⟩

theorem size_skip (c : Cursor) (n : Nat) : (c.skip n).size = c.size - n := by
  simp [skip, size]

end Cursor

/-- What a read gives: a value and the cursor behind it, nearer to the end than `bound` bytes. -/
structure Read (bound : Nat) (α : Type) where
  value : α
  rest : Cursor
  lt : rest.size < bound

/-- The same read with another value and a bound that is no tighter. -/
def Read.widen {m n : Nat} {α β : Type} (r : Read m α) (f : α → β) (h : m ≤ n) : Read n β :=
  ⟨f r.value, r.rest, Nat.lt_of_lt_of_le r.lt h⟩

namespace Cursor

def next? (c : Cursor) : Option (Read c.size UInt8) :=
  match h : c.rest with
  | [] => none
  | b :: bs => some ⟨b, c.past b bs, by simp [size, rest_past, h]⟩

def isBlank (b : UInt8) : Bool := b == ' ' || b == '\t' || b == '\n' || b == '\r'

def skipBlanks (c : Cursor) : Cursor :=
  match c.next? with
  | none => c
  | some ⟨b, c₁, _⟩ => if isBlank b then skipBlanks c₁ else c
termination_by c.size

theorem size_skipBlanks_le (c : Cursor) : c.skipBlanks.size ≤ c.size := by
  fun_induction skipBlanks c with
  | case1 => exact Nat.le_refl _
  | case2 c b c₁ h _ _ ih => omega
  | case3 => exact Nat.le_refl _

end Cursor

/-! ### Strings -/

def hexNumber : (digits value : Nat) → (c : Cursor) → Except Error (Read (c.size + 1) Nat)
  | 0, value, c => .ok ⟨value, c, Nat.lt_succ_self _⟩
  | digits + 1, value, c =>
    match c.next? with
    | none => c.fail .invalidUnicodeEscape
    | some ⟨b, c₁, _⟩ =>
      match Bytes.hexDigit? b with
      | none => c₁.fail .invalidUnicodeEscape
      | some d => (hexNumber digits (value * 16 + d) c₁).map (·.widen id (by omega))

def simpleEscape? (b : UInt8) : Option UInt8 :=
  if b = '"' || b = '\\' || b = '/' then some b
  else if b = 'b' then some 8
  else if b = 'f' then some 12
  else if b = 'n' then some '\n'
  else if b = 'r' then some '\r'
  else if b = 't' then some '\t'
  else none

/-- What a backslash that has been read and the bytes behind it stand for. Each `\u` unit is encoded
on its own. -/
def escaped (c : Cursor) : Except Error (Read c.size Bytes) :=
  match c.next? with
  | none => c.fail .unterminatedEscape
  | some ⟨b, c₁, h⟩ =>
    match simpleEscape? b with
    | some byte => .ok ⟨[byte], c₁, h⟩
    | none =>
      if b = 'u' then (hexNumber 4 0 c₁).map (·.widen Bytes.utf8 (by omega))
      else c₁.fail (.invalidEscape b)

/-- The rest of a string whose opening quote has been read. -/
def stringBody (c : Cursor) : Except Error (Read c.size Bytes) :=
  match c.next? with
  | none => c.fail .unterminatedString
  | some ⟨b, c₁, h⟩ =>
    if b = '"' then .ok ⟨[], c₁, h⟩
    else if b < 0x20 then c₁.fail .controlCharacter
    else if b = '\\' then
      match escaped c₁ with
      | .error e => .error e
      | .ok ⟨bytes, c₂, h'⟩ => (stringBody c₂).map (·.widen (bytes ++ ·) (by omega))
    else (stringBody c₁).map (·.widen (b :: ·) (by omega))
termination_by c.size

/-- A string, from its opening quote on; `fault` tells what was expected where there is none. -/
def quoted (fault : Fault) (c : Cursor) : Except Error (Read c.size Bytes) :=
  match c.next? with
  | none => c.fail fault
  | some ⟨b, c₁, _⟩ =>
    if b = '"' then (stringBody c₁).map (·.widen id (by omega)) else c.fail fault

/-! ### Numbers -/

/-- A number in its parts: whether it is negative, its digits before and behind the point, and its
exponent; the last two only if they are written. -/
structure Numeral where
  negative : Bool
  whole : Bytes
  fraction : Option Bytes
  exponent : Option Int

/-- An integer without point and exponent that fits 64 bits, and the nearest float of any other
number. -/
def Numeral.toValue (n : Numeral) : Value :=
  let asFloat : Value :=
    let fraction := n.fraction.getD []
    .float (Binary64.ofDecimal n.negative (Bytes.readDecimal (n.whole ++ fraction))
      (n.exponent.getD 0 - fraction.length))
  match n.fraction, n.exponent with
  | none, none =>
    let magnitude : Int := Bytes.readDecimal n.whole
    let i := if n.negative then -magnitude else magnitude
    if Int64.minValue.toInt ≤ i ∧ i ≤ Int64.maxValue.toInt then .integer (Int64.ofInt i)
    else asFloat
  | _, _ => asFloat

def digits (fault : Fault) (c : Cursor) : Except Error (Read c.size Bytes) :=
  let run := c.rest.takeWhile Bytes.isDigit
  if h : run = [] then c.fail fault
  else .ok ⟨run, c.skip run.length, by
    have hle : run.length ≤ c.rest.length := (List.takeWhile_prefix _).length_le
    have hpos : 0 < run.length := List.length_pos_iff.mpr h
    rw [Cursor.size_skip]
    have : c.size = c.rest.length := rfl
    omega⟩

def sees (c : Cursor) (choices : Bytes) : Bool := c.rest.head?.any choices.contains

/-- The cursor behind the next byte if it is one of `choices`, and the cursor itself otherwise. -/
def optional (c : Cursor) (choices : Bytes) : Cursor := if sees c choices then c.skip 1 else c

theorem size_optional_le (c : Cursor) (choices : Bytes) : (optional c choices).size ≤ c.size := by
  unfold optional
  split
  · rw [Cursor.size_skip]; omega
  · exact Nat.le_refl _

def fractionPart (c : Cursor) : Except Error (Read (c.size + 1) (Option Bytes)) :=
  if sees c ['.'] then
    (digits .expectedFraction (c.skip 1)).map
      (·.widen some (by rw [Cursor.size_skip]; omega))
  else .ok ⟨none, c, Nat.lt_succ_self _⟩

def exponentPart (c : Cursor) : Except Error (Read (c.size + 1) (Option Int)) :=
  if sees c ['e', 'E'] then
    let signed := c.skip 1
    let unsigned := optional signed ['+', '-']
    let toInt (run : Bytes) : Int :=
      if sees signed ['-'] then -(Bytes.readDecimal run) else Bytes.readDecimal run
    (digits .expectedExponent unsigned).map (·.widen (some ∘ toInt) (by
      have h₁ : unsigned.size ≤ signed.size := size_optional_le signed _
      have h₂ : signed.size = c.size - 1 := c.size_skip 1
      omega))
  else .ok ⟨none, c, Nat.lt_succ_self _⟩

def number (c : Cursor) : Except Error (Read c.size Value) :=
  match digits .invalidNumber (optional c ['-']) with
  | .error e => .error e
  | .ok ⟨whole, c₁, h₁⟩ =>
    match fractionPart c₁ with
    | .error e => .error e
    | .ok ⟨fraction, c₂, h₂⟩ =>
      (exponentPart c₂).map (·.widen (fun exponent =>
        Numeral.toValue ⟨sees c ['-'], whole, fraction, exponent⟩) (by
          have := size_optional_le c ['-']
          omega))

/-! ### Values -/

abbrev ValueReader := (c : Cursor) → Except Error (Read c.size Value)

/-- One or more entries with commas between them, and the closing bracket. -/
def entries {α : Type} (entry : (c : Cursor) → Except Error (Read c.size α)) (close : UInt8)
    (fault : Fault) (c : Cursor) : Except Error (Read c.size (List α)) :=
  match entry c with
  | .error e => .error e
  | .ok ⟨first, c₁, h₁⟩ =>
    have hb := c₁.size_skipBlanks_le
    match c₁.skipBlanks.next? with
    | none => c₁.skipBlanks.fail fault
    | some ⟨b, c₂, h₂⟩ =>
      if b = ',' then
        (entries entry close fault c₂).map (·.widen (first :: ·) (by omega))
      else if b = close then .ok ⟨[first], c₂, by omega⟩
      else c₁.skipBlanks.fail fault
termination_by c.size

/-- The inside of a container whose opening bracket has been read: no entry, or one or more. -/
def container {α : Type} (entry : (c : Cursor) → Except Error (Read c.size α)) (close : UInt8)
    (fault : Fault) (c : Cursor) : Except Error (Read c.size (List α)) :=
  have hb := c.size_skipBlanks_le
  match c.skipBlanks.next? with
  | none => (entries entry close fault c.skipBlanks).map (·.widen id hb)
  | some ⟨b, c₁, h₁⟩ =>
    if b = close then .ok ⟨[], c₁, by omega⟩
    else (entries entry close fault c.skipBlanks).map (·.widen id hb)

def member (value : ValueReader) (c : Cursor) : Except Error (Read c.size (Bytes × Value)) :=
  match quoted .expectedKey c.skipBlanks with
  | .error e => .error e
  | .ok ⟨key, c₁, h₁⟩ =>
    match c₁.skipBlanks.next? with
    | none => c₁.skipBlanks.fail .expectedColon
    | some ⟨b, c₂, h₂⟩ =>
      if b = ':' then
        (value c₂).map (·.widen (Prod.mk key) (by
          have := c.size_skipBlanks_le
          have := c₁.size_skipBlanks_le
          omega))
      else c₁.skipBlanks.fail .expectedColon

def words : List (UInt8 × Bytes × Value) :=
  [('t', text "rue", .bool true), ('f', text "alse", .bool false), ('n', text "ull", .null)]

def word (c : Cursor) (b : UInt8) (c₁ : Cursor) (h : c₁.size < c.size) :
    Except Error (Read c.size Value) :=
  match words.find? fun w => w.1 == b && w.2.1.isPrefixOf c₁.rest with
  | none => c.fail (.unexpected b)
  | some (_, tail, v) => .ok ⟨v, c₁.skip tail.length, by rw [Cursor.size_skip]; omega⟩

/-- A value whose first byte is next; `nested` reads the values inside a container, and there is
none at the depth limit. -/
def valueHere (nested : Option ValueReader) (c : Cursor) : Except Error (Read c.size Value) :=
  match c.next? with
  | none => c.fail .endOfInput
  | some ⟨b, c₁, h₁⟩ =>
    if b = '\x7b' then
      match nested with
      | none => c.fail .tooDeep
      | some value =>
        (container (member value) '\x7d' .expectedMemberEnd c₁).map
          (·.widen .ofMembers (by omega))
    else if b = '[' then
      match nested with
      | none => c.fail .tooDeep
      | some value =>
        (container value ']' .expectedItemEnd c₁).map (·.widen .array (by omega))
    else if b = '"' then (quoted (.unexpected b) c).map (·.widen .string (Nat.le_refl _))
    else if b = '-' || Bytes.isDigit b then number c
    else word c b c₁ h₁

def valueWithin (nested : Option ValueReader) (c : Cursor) : Except Error (Read c.size Value) :=
  (valueHere nested c.skipBlanks).map (·.widen id c.size_skipBlanks_le)

/-- A value in which containers nest at most `depth` deep. -/
def value : (depth : Nat) → ValueReader
  | 0 => valueWithin none
  | depth + 1 => valueWithin (some (value depth))

def maxDepth : Nat := 512

def parse (bs : Bytes) : Except Error Value :=
  let c := (Cursor.start bs).skipBlanks
  if c.rest.isEmpty then c.fail .emptyInput
  else
    match value maxDepth c with
    | .error e => .error e
    | .ok ⟨v, c₁, _⟩ =>
      let c₂ := c₁.skipBlanks
      if c₂.rest.isEmpty then .ok v else c₂.fail .trailingContent

end CallAtlas.Json
