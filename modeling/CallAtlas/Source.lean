import CallAtlas.Bytes

/-! # Source texts and positions

A source is a named text. Positions are byte offsets, shown as a line and a byte column that both
count from 1. A line feed still belongs to the line that it ends. `LineTable` holds the offsets of
all line feeds, so that a position is found by bisection.
-/
namespace CallAtlas

/-- A place in a text: line, byte column, byte offset, and the length of what starts there. The
default value, all zeros, is no place of any text. -/
structure Location where
  line : Nat := 0
  column : Nat := 0
  offset : Nat := 0
  length : Nat := 0
  deriving DecidableEq, Repr, Inhabited

structure Span where
  start : Location := {}
  stop : Location := {}
  deriving DecidableEq, Repr, Inhabited

def Span.to (a b : Span) : Span := ⟨a.start, b.stop⟩

/-- The offsets of the line feeds of a text that starts at `offset`. -/
def lineFeeds (offset : Nat) : Bytes → List Nat
  | [] => []
  | b :: bs =>
    if b = '\n' then offset :: lineFeeds (offset + 1) bs else lineFeeds (offset + 1) bs

theorem lineFeeds_length (offset : Nat) (bs : Bytes) :
    (lineFeeds offset bs).length = bs.countP (· = '\n'.toUInt8) := by
  induction bs generalizing offset with
  | nil => rfl
  | cons b bs ih =>
    by_cases h : b = '\n'.toUInt8 <;> simp [lineFeeds, h, ih]

structure LineTable where
  feeds : Array Nat

namespace LineTable

def ofText (bs : Bytes) : LineTable := ⟨(lineFeeds 0 bs).toArray⟩

/-- Bisection between `lo` and `hi` for the number of line feeds before an offset. -/
def feedsBefore (t : LineTable) (offset lo hi : Nat) : Nat :=
  if lo < hi then
    let mid := (lo + hi) / 2
    if t.feeds.getD mid 0 < offset then t.feedsBefore offset (mid + 1) hi
    else t.feedsBefore offset lo mid
  else lo
termination_by hi - lo

/-- The place of a byte offset, one byte long. An offset beyond the text counts as if the last line
went on. Lines, columns and offsets are numbers of 32 bits and start again from zero above. -/
def location (t : LineTable) (offset : Nat) : Location :=
  let before := t.feedsBefore offset 0 t.feeds.size % UInt32.size
  let lineStart := if before = 0 then 0 else t.feeds.getD (before - 1) 0 + 1
  { line := (before + 1) % UInt32.size
    column := (offset - lineStart + 1) % UInt32.size
    offset := offset % UInt32.size
    length := 1 }

end LineTable

structure Source where
  name : Bytes
  text : Bytes

namespace Source

def defaultName : Bytes := CallAtlas.text "<input>"

def byteAt (s : Source) (offset : Nat) : UInt8 := s.text.getD offset 0

def slice (s : Source) (start stop : Nat) : Bytes := (s.text.drop start).take (stop - start)

def lineTable (s : Source) : LineTable := .ofText s.text

end Source
end CallAtlas
