import CallAtlas.Grammar.Error

/-! # Reading a token list

A cursor stands before the rest of a token list. The last token is an end-of-file token, which a
list that lacks one is given; it is what is seen at and beyond the end, and no step goes past it.

A read gives a value and the cursor behind it, with the fact that this one is nearer to the end, or
no farther from it. Reads are put one behind the other with `andThen` and `andMaybe`, and repeated
with `many` and `iterate`, so the facts are put together here and nowhere else.
-/
namespace CallAtlas.Grammar

structure Cursor where
  rest : List Token
  /-- The token that is seen when the rest is empty. -/
  last : Token
  /-- The token read last, or the first token before any is read. -/
  previous : Token

def Cursor.size (c : Cursor) : Nat := c.rest.length

/-- What a read of one or more tokens gives. -/
structure Parsed (c : Cursor) (α : Type) where
  value : α
  rest : Cursor
  size_lt : rest.size < c.size

/-- What a read gives that may take no token. -/
structure MaybeParsed (c : Cursor) (α : Type) where
  value : α
  rest : Cursor
  size_le : rest.size ≤ c.size

abbrev Attempt := Except SyntaxError

abbrev Reader (α : Type) := (c : Cursor) → Attempt (Parsed c α)

abbrev MaybeReader (α : Type) := (c : Cursor) → Attempt (MaybeParsed c α)

abbrev OptionReader (α : Type) := (c : Cursor) → Attempt (Option (Parsed c α))

/-- Reads one expression. Its binary operators bind at least as tight as a level, and a flag tells
whether a `do` block may attach to a call in it: it may not in the arguments of a call without
parentheses, where it belongs to the outermost such call. -/
abbrev Expr := (level : Nat) → (blocks : Bool) → Reader Tree

/-! ### One read behind another -/

namespace Parsed

variable {c : Cursor} {α β : Type}

def map (p : Parsed c α) (f : α → β) : Parsed c β := ⟨f p.value, p.rest, p.size_lt⟩

def maybe (p : Parsed c α) : MaybeParsed c α := ⟨p.value, p.rest, Nat.le_of_lt p.size_lt⟩

/-- The read `q` behind `p`, seen from where `p` started. -/
def followedBy (p : Parsed c α) (q : Parsed p.rest β) : Parsed c β :=
  ⟨q.value, q.rest, Nat.lt_trans q.size_lt p.size_lt⟩

def andThen (p : Parsed c α) (read : Reader β) : Attempt (Parsed c β) :=
  (read p.rest).map p.followedBy

def andMaybe (p : Parsed c α) (read : MaybeReader β) : Attempt (Parsed c β) :=
  (read p.rest).map fun q => ⟨q.value, q.rest, Nat.lt_of_le_of_lt q.size_le p.size_lt⟩

end Parsed

namespace MaybeParsed

variable {c : Cursor} {α β : Type}

def map (p : MaybeParsed c α) (f : α → β) : MaybeParsed c β := ⟨f p.value, p.rest, p.size_le⟩

/-- The read `q` behind `p`, seen from where `p` started. -/
def followedBy (p : MaybeParsed c α) (q : MaybeParsed p.rest β) : MaybeParsed c β :=
  ⟨q.value, q.rest, Nat.le_trans q.size_le p.size_le⟩

def andThen (p : MaybeParsed c α) (read : Reader β) : Attempt (Parsed c β) :=
  (read p.rest).map fun q => ⟨q.value, q.rest, Nat.lt_of_lt_of_le q.size_lt p.size_le⟩

def andMaybe (p : MaybeParsed c α) (read : MaybeReader β) : Attempt (MaybeParsed c β) :=
  (read p.rest).map p.followedBy

end MaybeParsed

/-! ### Tokens -/

namespace Cursor

def ofTokens (tokens : List Token) : Cursor :=
  match tokens.getLast? with
  | some last =>
    if last.kind = .eof then ⟨tokens.dropLast, last, tokens.headD last⟩
    else ⟨tokens, {}, tokens.headD {}⟩
  | none => ⟨[], {}, {}⟩

def peek (c : Cursor) : Token := c.rest.headD c.last

/-- The token `index` places behind the next one. -/
def peekAt (c : Cursor) (index : Nat) : Token := c.rest.getD index c.last

def sees (c : Cursor) (kind : Kind) : Bool := c.peek.kind == kind

def atEnd (c : Cursor) : Bool := c.sees .eof

/-- Whether a block ends here: at `end`, at a further section or at the end of the file. -/
def atBlockEnd (c : Cursor) : Bool := c.atEnd || c.sees .kwEnd || c.peek.kind.isSection

/-- A value that takes no token. -/
def stay {α : Type} (c : Cursor) (value : α) : MaybeParsed c α := ⟨value, c, Nat.le_refl _⟩

def fail {α : Type} (c : Cursor) (needed : Expectation) : Attempt α :=
  .error (.unexpected needed c.peek)

/-- The next token and the cursor behind it; `none` at an end-of-file token. -/
def next? (c : Cursor) : Option (Parsed c Token) :=
  match h : c.rest with
  | [] => none
  | token :: rest =>
    if token.kind = .eof then none
    else some ⟨token, { c with rest, previous := token }, by simp [size, h]⟩

/-- The next token if its kind satisfies `p`. -/
def takeIf? (c : Cursor) (p : Kind → Bool) : Option (Parsed c Token) :=
  if p c.peek.kind then c.next? else none

def take? (c : Cursor) (kind : Kind) : Option (Parsed c Token) := c.takeIf? (· == kind)

/-- The next token, which must be of a kind. -/
def expect (kind : Kind) (needed : Expectation) : Reader Token := fun c =>
  match c.take? kind with
  | some p => .ok p
  | none => c.fail needed

end Cursor

/-! ### Line breaks -/

namespace Cursor

def skipNewlines (c : Cursor) : Cursor :=
  match c.take? .newline with
  | some ⟨_, c₁, _⟩ => skipNewlines c₁
  | none => c
termination_by c.size

theorem size_skipNewlines_le (c : Cursor) : c.skipNewlines.size ≤ c.size := by
  fun_induction skipNewlines c with
  | case1 c _ c₁ h _ ih => exact Nat.le_trans ih (Nat.le_of_lt h)
  | case2 => exact Nat.le_refl _

def newlines (c : Cursor) : MaybeParsed c Unit := ⟨(), c.skipNewlines, c.size_skipNewlines_le⟩

/-- The next token if it is of a kind, with the line breaks before it. -/
def takeLoose? (c : Cursor) (kind : Kind) : Option (Parsed c Token) :=
  (c.skipNewlines.take? kind).map fun p =>
    ⟨p.value, p.rest, Nat.lt_of_lt_of_le p.size_lt c.size_skipNewlines_le⟩

end Cursor

/-- The same read with the line breaks behind it. -/
def MaybeParsed.skipNewlines {c : Cursor} {α : Type} (p : MaybeParsed c α) : MaybeParsed c α :=
  (p.followedBy p.rest.newlines).map fun _ => p.value

def loosely {α : Type} (read : Reader α) : Reader α := fun c => c.newlines.andThen read

/-! ### Repetition -/

/-- Reads what stands behind a token, if the token was there. -/
def behind {c : Cursor} {α : Type} (opening : Option (Parsed c Token)) (read : Reader α) :
    Attempt (Option (Parsed c α)) :=
  match opening with
  | some p => (p.andThen read).map some
  | none => .ok none

/-- Reads as long as there is something to read. -/
def many {α : Type} (read : OptionReader α) : MaybeReader (List α) := fun c =>
  match read c with
  | .error e => .error e
  | .ok none => .ok (c.stay [])
  | .ok (some p) =>
    match many read p.rest with
    | .error e => .error e
    | .ok q => .ok (p.maybe.followedBy (q.map (p.value :: ·)))
termination_by c => c.size
decreasing_by exact p.size_lt

/-- Reads on with the value so far as long as there is something to read. -/
def iterate {α : Type} (read : α → OptionReader α) (value : α) : MaybeReader α := fun c =>
  match read value c with
  | .error e => .error e
  | .ok none => .ok (c.stay value)
  | .ok (some p) => (iterate read p.value p.rest).map p.maybe.followedBy
termination_by c => c.size
decreasing_by exact p.size_lt

end CallAtlas.Grammar
