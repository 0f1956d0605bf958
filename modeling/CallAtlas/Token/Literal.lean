import CallAtlas.Token

/-! # Text-like literals

The body of a string, charlist, sigil or quoted atom. `LiteralForm` says how a body ends and which
marks inside it have a meaning; `LiteralForm.body` reads up to the closing delimiter or the next
embedded expression. All widths count bytes.
-/
namespace CallAtlas

structure LiteralForm where
  container : Container
  closer : Bytes
  /-- The closer stands first on its line, with only blanks before it. -/
  heredoc : Bool := false
  /-- `#{` starts an embedded expression. -/
  interpolates : Bool := true
  /-- Backslash escapes are decoded; otherwise a backslash only protects the closer. -/
  escapes : Bool := true
  sigilName : Bytes := []
  deriving DecidableEq, Repr

/-! ### Escapes -/

structure Escape where
  value : Bytes
  width : Nat
  fault : Option LexicalFault := none

namespace Escape

/-- Hexadecimal digits as a number of 32 bits; further digits push the first ones out. -/
def hexNumber (digits : Bytes) : Nat :=
  digits.foldl (fun n d => (n * 16 + (Bytes.hexDigit? d).getD 0) % UInt32.size) 0

def isHexDigit (b : UInt8) : Bool := (Bytes.hexDigit? b).isSome

/-- The bytes that follow `\x`: up to two digits, or any number of them in braces. The value is the
low byte of the number, and a missing closing brace is forgiven. -/
def byteNumber (bs : Bytes) : Escape :=
  let lowByte (digits : Bytes) : Bytes := [UInt8.ofNat (hexNumber digits)]
  match bs with
  | b :: more =>
    if b = '\x7b' then
      let digits := more.takeWhile isHexDigit
      let closed := (more.drop digits.length).head? == some ('\x7d' : UInt8)
      ⟨lowByte digits, 2 + digits.length + closed.toNat, none⟩
    else
      let digits := (bs.take 2).takeWhile isHexDigit
      ⟨lowByte digits, 1 + digits.length, none⟩
  | [] => ⟨lowByte [], 1, none⟩

/-- The bytes that follow `\u`: exactly four digits, or any number of them in braces. The value is
the code point in UTF-8, also when digits or the closing brace are missing, which is a fault. -/
def codePoint (bs : Bytes) : Escape :=
  match bs with
  | b :: more =>
    if b = '\x7b' then
      let digits := more.takeWhile isHexDigit
      let closed := (more.drop digits.length).head? == some ('\x7d' : UInt8)
      ⟨Bytes.utf8 (hexNumber digits), 2 + digits.length + closed.toNat,
        if closed then none else some .openUnicodeEscape⟩
    else
      let digits := (bs.take 4).takeWhile isHexDigit
      ⟨Bytes.utf8 (hexNumber digits), 1 + digits.length,
        if digits.length = 4 then none else some .invalidUnicodeEscape⟩
  | [] => ⟨Bytes.utf8 0, 1, some .invalidUnicodeEscape⟩

def letters : List (UInt8 × UInt8) :=
  [('n', '\n'), ('t', '\t'), ('r', '\r'), ('s', ' '), ('e', 0x1B), ('0', 0), ('a', 7), ('b', 8),
    ('f', 12), ('v', 11)]

/-- The escape whose backslash stands before `bs`. An escaped line break joins two lines, and any
byte without a meaning of its own stands for itself. -/
def decode (bs : Bytes) : Escape :=
  match bs with
  | [] => ⟨[], 0, none⟩
  | b :: more =>
    match letters.lookup b with
    | some byte => ⟨[byte], 1, none⟩
    | none =>
      if b = '\n' then ⟨[], 1, none⟩
      else if b = 'x' then byteNumber more
      else if b = 'u' then codePoint more
      else ⟨[b], 1, none⟩

end Escape

/-! ### Bodies -/

inductive BodyEnd where
  | closed
  /-- At an embedded expression. -/
  | opened
  | unterminated
  deriving DecidableEq, Repr

/-- A body: its decoded text, its width with the closer or the `#{`, and the faults inside it, each
with the width read when it was noticed. -/
structure Body where
  value : Bytes
  width : Nat
  ending : BodyEnd
  faults : List (LexicalFault × Nat) := []
  deriving DecidableEq, Repr

def shiftFaults (width : Nat) (faults : List (LexicalFault × Nat)) : List (LexicalFault × Nat) :=
  faults.map fun f => (f.1, f.2 + width)

/-- The body that starts `width` bytes earlier with the decoded text `value`. -/
def Body.after (body : Body) (value : Bytes) (width : Nat) (fault : Option LexicalFault := none) :
    Body :=
  { value := value ++ body.value
    width := width + body.width
    ending := body.ending
    faults := (fault.map fun f => (f, width)).toList ++ shiftFaults width body.faults }

def isIndent (b : UInt8) : Bool := b == ' ' || b == '\t'

namespace LiteralForm

def closes? (form : LiteralForm) (lineStart : Bool) (bs : Bytes) : Option Nat :=
  if form.heredoc then
    let indent := (bs.takeWhile isIndent).length
    if lineStart && form.closer.isPrefixOf (bs.drop indent) then some (indent + form.closer.length)
    else none
  else if form.closer.isPrefixOf bs then some form.closer.length
  else none

/-- Reads a body. `lineStart` tells that `bs` starts a line of a heredoc. -/
def body (form : LiteralForm) (lineStart : Bool) (bs : Bytes) : Body :=
  match bs with
  | [] => { value := [], width := 0, ending := .unterminated }
  | b :: more =>
    match form.closes? lineStart (b :: more) with
    | some width => { value := [], width, ending := .closed }
    | none =>
      if form.interpolates && b == '#' && more.head? == some ('\x7b' : UInt8) then
        { value := [], width := 2, ending := .opened }
      else if b = '\\' then
        if form.escapes then
          let escape := Escape.decode more
          (form.body false (more.drop escape.width)).after escape.value (1 + escape.width)
            escape.fault
        else if form.closer.isPrefixOf more then
          (form.body false (more.drop form.closer.length)).after form.closer
            (1 + form.closer.length)
        else (form.body false more).after ['\\'] 1
      else (form.body (b == '\n') more).after [b] 1
termination_by bs.length

end LiteralForm
end CallAtlas
