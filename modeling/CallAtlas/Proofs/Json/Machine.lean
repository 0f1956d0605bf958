import CallAtlas.Json.Reader

/-! # Reading JSON byte by byte

A reader over a text keeps the offset, the line and the byte column of the next byte, and the number
of containers that are open. Here it is a machine that takes at most one byte in each step, with
what the open containers hold so far on a stack. Looking at the next byte is always allowed and
shows zero at the end; taking a byte where there is none is what must never happen, and has an
outcome of its own.
-/
namespace CallAtlas.Json.Machine

/-- Where the machine stands: the offset of the next byte, its line and its column. -/
structure Place where
  offset : Nat := 0
  line : Nat := 1
  column : Nat := 1

namespace Place

def peek (t : Bytes) (p : Place) : UInt8 := t.getD p.offset 0

def atEnd (t : Bytes) (p : Place) : Bool := t.length ≤ p.offset

def past (p : Place) (b : UInt8) : Place :=
  if b = '\n' then ⟨p.offset + 1, p.line + 1, 1⟩ else ⟨p.offset + 1, p.line, p.column + 1⟩

end Place

inductive Container where
  | array (items : List Value)
  | object (members : List (Bytes × Value))

namespace Container

def close : Container → UInt8
  | array _ => ']'
  | object _ => '\x7d'

/-- A closing bracket is told from the end of the text. -/
theorem close_ne_zero (container : Container) : container.close ≠ 0 := by
  cases container with
  | array items => exact (by decide : (']' : UInt8) ≠ 0)
  | object members => exact (by decide : ('\x7d' : UInt8) ≠ 0)

/-- What is wrong where an entry is followed by neither a comma nor the closing bracket. -/
def fault : Container → Fault
  | array _ => .expectedItemEnd
  | object _ => .expectedMemberEnd

def value : Container → Value
  | array items => .array items
  | object members => .ofMembers members

end Container

inductive Context where
  | item (items : List Value)
  | member (members : List (Bytes × Value)) (key : Bytes)

/-- The container with the value that was read. -/
def Context.put : Context → Value → Container
  | item items, v => .array (items ++ [v])
  | member members key, v => .object (members ++ [(key, v)])

inductive Role where
  | value
  | key (members : List (Bytes × Value))

inductive Task where
  /-- The blanks before the document. -/
  | start
  /-- A value, or blanks before it. -/
  | value
  /-- The opening bracket of a container that has been counted. -/
  | opened (container : Container)
  /-- What follows an opening bracket. -/
  | first (container : Container)
  /-- A key, or blanks before it. -/
  | key (members : List (Bytes × Value))
  /-- The colon behind a key. -/
  | colon (members : List (Bytes × Value)) (key : Bytes)
  /-- What follows an entry. -/
  | next (container : Container)
  | string (role : Role) (bytes : Bytes)
  /-- What follows a backslash in a string. -/
  | escape (role : Role) (bytes : Bytes)
  /-- So many more digits of a `\u` escape. -/
  | unicode (role : Role) (bytes : Bytes) (digits value : Nat)
  /-- The rest of a word, which is known to be there. -/
  | word (rest : Bytes) (v : Value)
  | whole (negative : Bool) (run : Bytes)
  | fraction (n : Numeral) (run : Bytes)
  /-- The mark of an exponent, if there is one. -/
  | mark (n : Numeral)
  | sign (n : Numeral)
  | exponent (n : Numeral) (negative : Bool) (run : Bytes)
  /-- The blanks behind the document. -/
  | done (v : Value)

structure State where
  place : Place := {}
  depth : Nat := 0
  outer : List Context := []
  task : Task := .start

inductive Outcome where
  | on (s : State)
  | finished (v : Value)
  | failed (e : Error)
  /-- A byte was taken at the end of the text. -/
  | overrun

namespace State

variable (s : State)

def goTo (task : Task) : Outcome := .on { s with task }

def fail (fault : Fault) : Outcome := .failed ⟨fault, s.place.line, s.place.column⟩

def take (t : Bytes) (next : UInt8 → State → Outcome) : Outcome :=
  match t[s.place.offset]? with
  | none => .overrun
  | some b => next b { s with place := s.place.past b }

def takeTo (t : Bytes) (task : Task) : Outcome := s.take t fun _ s => s.goTo task

/-- Hands a value over to the container around it, or to the end of the document. -/
def deliver (v : Value) : Outcome :=
  match s.outer with
  | [] => s.goTo (.done v)
  | context :: outer => { s with outer }.goTo (.next (context.put v))

def enter (container : Container) : Outcome :=
  { s with depth := s.depth + 1 }.goTo (.opened container)

def entry : Container → Outcome
  | .array items => { s with outer := .item items :: s.outer }.goTo .value
  | .object members => s.goTo (.key members)

def leave (container : Container) : Outcome :=
  { s with depth := s.depth - 1 }.deliver container.value

/-- Hands over a string whose closing quote has been taken. -/
def endString (bytes : Bytes) : Role → Outcome
  | .value => s.deliver (.string bytes)
  | .key members => s.goTo (.colon members bytes)

end State

def word? (rest : Bytes) : Option (Bytes × Value) :=
  (words.map fun w => (w.1 :: w.2.1, w.2.2)).find? fun w => w.1.isPrefixOf rest

def step (t : Bytes) (s : State) : Outcome :=
  let b := s.place.peek t
  match s.task with
  | .start =>
    if Cursor.isBlank b then s.takeTo t .start
    else if s.place.atEnd t then s.fail .emptyInput
    else s.goTo .value
  | .value =>
    if Cursor.isBlank b then s.takeTo t .value
    else if s.place.atEnd t then s.fail .endOfInput
    else if b = '\x7b' then s.enter (.object [])
    else if b = '[' then s.enter (.array [])
    else if b = '"' then s.takeTo t (.string .value [])
    else if b = '-' then s.takeTo t (.whole true [])
    else if Bytes.isDigit b then s.goTo (.whole false [])
    else
      match word? (t.drop s.place.offset) with
      | some (word, v) => s.goTo (.word word v)
      | none => s.fail (.unexpected b)
  | .opened container =>
    if maxDepth < s.depth then s.fail .tooDeep else s.takeTo t (.first container)
  | .first container =>
    if Cursor.isBlank b then s.takeTo t (.first container)
    else if b = container.close then s.take t fun _ s => s.leave container
    else s.entry container
  | .key members =>
    if Cursor.isBlank b then s.takeTo t (.key members)
    else if b = '"' then s.takeTo t (.string (.key members) [])
    else s.fail .expectedKey
  | .colon members key =>
    if Cursor.isBlank b then s.takeTo t (.colon members key)
    else if b = ':' then
      s.take t fun _ s => { s with outer := .member members key :: s.outer }.goTo .value
    else s.fail .expectedColon
  | .next container =>
    if Cursor.isBlank b then s.takeTo t (.next container)
    else if b = ',' then s.take t fun _ s => s.entry container
    else if b = container.close then s.take t fun _ s => s.leave container
    else s.fail container.fault
  | .string role bytes =>
    if s.place.atEnd t then s.fail .unterminatedString
    else
      s.take t fun b s =>
        if b = '"' then s.endString bytes role
        else if b < 0x20 then s.fail .controlCharacter
        else if b = '\\' then s.goTo (.escape role bytes)
        else s.goTo (.string role (bytes ++ [b]))
  | .escape role bytes =>
    if s.place.atEnd t then s.fail .unterminatedEscape
    else
      s.take t fun b s =>
        match simpleEscape? b with
        | some byte => s.goTo (.string role (bytes ++ [byte]))
        | none =>
          if b = 'u' then s.goTo (.unicode role bytes 4 0) else s.fail (.invalidEscape b)
  | .unicode role bytes 0 value => s.goTo (.string role (bytes ++ Bytes.utf8 value))
  | .unicode role bytes (digits + 1) value =>
    if s.place.atEnd t then s.fail .invalidUnicodeEscape
    else
      s.take t fun b s =>
        match Bytes.hexDigit? b with
        | none => s.fail .invalidUnicodeEscape
        | some d => s.goTo (.unicode role bytes digits (value * 16 + d))
  | .word [] v => s.deliver v
  | .word (_ :: rest) v => s.takeTo t (.word rest v)
  | .whole negative run =>
    if Bytes.isDigit b then s.takeTo t (.whole negative (run ++ [b]))
    else if run = [] then s.fail .invalidNumber
    else if b = '.' then s.takeTo t (.fraction ⟨negative, run, none, none⟩ [])
    else s.goTo (.mark ⟨negative, run, none, none⟩)
  | .fraction n run =>
    if Bytes.isDigit b then s.takeTo t (.fraction n (run ++ [b]))
    else if run = [] then s.fail .expectedFraction
    else s.goTo (.mark { n with fraction := some run })
  | .mark n =>
    if b = 'e' ∨ b = 'E' then s.takeTo t (.sign n) else s.deliver n.toValue
  | .sign n =>
    if b = '+' ∨ b = '-' then s.takeTo t (.exponent n (b = '-') [])
    else s.goTo (.exponent n false [])
  | .exponent n negative run =>
    if Bytes.isDigit b then s.takeTo t (.exponent n negative (run ++ [b]))
    else if run = [] then s.fail .expectedExponent
    else
      let magnitude : Int := Bytes.readDecimal run
      s.deliver { n with exponent := some (if negative then -magnitude else magnitude) }.toValue
  | .done v =>
    if Cursor.isBlank b then s.takeTo t (.done v)
    else if s.place.atEnd t then .finished v
    else s.fail .trailingContent

/-- The states that the machine comes to in a text. -/
inductive Reached (t : Bytes) : State → Prop
  | start : Reached t {}
  | step {s s'} : Reached t s → step t s = .on s' → Reached t s'

/-- The outcome of at most `n` steps. -/
def run (t : Bytes) : Nat → State → Outcome
  | 0, s => .on s
  | n + 1, s =>
    match step t s with
    | .on s' => run t n s'
    | outcome => outcome

end CallAtlas.Json.Machine
