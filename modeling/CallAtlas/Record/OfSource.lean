import CallAtlas.Grammar.Expression
import CallAtlas.Record

/-! # The records of a source text
-/
namespace CallAtlas

inductive SourceError where
  | unreadable (path : Bytes)
  | malformed (file : Bytes) (errors : List Grammar.SyntaxError)

/-- Of several errors in a text only the first is shown, with its place. -/
def SourceError.message : SourceError → Bytes
  | .unreadable path => text "Failed to open file: " ++ path
  | .malformed file [] => file ++ text ": parse failed"
  | .malformed file (e :: _) =>
    file ++ text ":" ++ Bytes.decimal e.span.start.line ++ text ":" ++
      Bytes.decimal e.span.start.column ++ text ": " ++ e.message

def Record.ofSource (s : Source) : Log.Logged (Except SourceError (List Record)) :=
  match Grammar.parse s with
  | .error errors => pure (.error (.malformed s.name errors))
  | .ok root => do
    Log.say .trace "parse" (s.name ++ text ":\n" ++ root.dump)
    return .ok (← records s.name root)

end CallAtlas
