import CallAtlas.Bytes

/-! # Log entries

What a part of the program has to say while it works is an entry: a level, the tag of that part and
a message. Entries are values. A computation returns them beside its result, in order, and whoever
runs it decides where they go.
-/
namespace CallAtlas.Log

/-- How grave an entry is. As a threshold, `off` keeps out every other level. -/
inductive Level where
  | trace | debug | info | warn | error | fatal | off
  deriving DecidableEq, Repr, Inhabited

namespace Level

def rank : Level → Nat
  | .trace => 0
  | .debug => 1
  | .info => 2
  | .warn => 3
  | .error => 4
  | .fatal => 5
  | .off => 6

/-- Whether an entry of this level passes a threshold. -/
def reaches (level threshold : Level) : Bool := threshold.rank ≤ level.rank

def name : Level → Bytes
  | .trace => text "TRACE"
  | .debug => text "DEBUG"
  | .info => text "INFO"
  | .warn => text "WARN"
  | .error => text "ERROR"
  | .fatal => text "FATAL"
  | .off => text "OFF"

def all : List Level := [.trace, .debug, .info, .warn, .error, .fatal, .off]

/-- A name in capitals with its letters made small. -/
def lowerName (level : Level) : Bytes := level.name.map (· + 32)

/-- Reads a level name that is all in small letters or all in capitals. Any other text means
`info`. -/
def parse (t : Bytes) : Level :=
  (all.find? fun level => t == level.name || t == level.lowerName).getD .info

theorem parse_name (level : Level) : parse level.name = level := by
  cases level <;> rfl

end Level

structure Entry where
  level : Level
  tag : Bytes
  message : Bytes
  deriving DecidableEq, Repr, Inhabited

/-- A result and what was said on the way to it. -/
structure Logged (α : Type) where
  value : α
  entries : List Entry := []

namespace Logged
variable {α β : Type}

instance : Monad Logged where
  pure value := ⟨value, []⟩
  bind m f :=
    let next := f m.value
    ⟨next.value, m.entries ++ next.entries⟩

end Logged

/-- Says one thing. -/
def say (level : Level) (tag : String) (message : Bytes) : Logged Unit :=
  ⟨(), [⟨level, text tag, message⟩]⟩

end CallAtlas.Log
