import CallAtlas.Log.Level

/-! # Lines of a log

An entry is shown as a line of text, `12:30:00.125 WARN  [parse] message`, with the level in colour
on a terminal, or as a line that holds a JSON object.
-/
namespace CallAtlas.Log

inductive LineFormat where
  | text | json
  deriving DecidableEq, Repr, Inhabited

/-- A point in time: the local time of day as it is shown, and the milliseconds since 1970. -/
structure Moment where
  timeOfDay : Bytes
  millis : Int64

/-- The name of a level, filled up with blanks to five bytes. -/
def Level.column (level : Level) : Bytes :=
  level.name ++ List.replicate (5 - level.name.length) (' ' : UInt8)

/-- What stands behind the level. -/
def Entry.tail (e : Entry) : Bytes :=
  text " [" ++ e.tag ++ text "] " ++ e.message ++ text "\n"

def Entry.textLine (e : Entry) (timeOfDay : Bytes) : Bytes :=
  timeOfDay ++ text " " ++ e.level.column ++ e.tail

/-- The terminal code that starts the colour of a level. -/
def Level.color : Level → Bytes
  | .trace => text "\x1b[90m"
  | .debug => text "\x1b[36m"
  | .info => text "\x1b[32m"
  | .warn => text "\x1b[33m"
  | .error => text "\x1b[31m"
  | .fatal => text "\x1b[1;31m"
  | .off => []

def Entry.colorLine (e : Entry) (timeOfDay : Bytes) : Bytes :=
  timeOfDay ++ text " " ++ e.level.color ++ e.level.column ++ text "\x1b[0m" ++
    e.tail

/-- A byte inside a quoted text. Control bytes other than the usual three are written as they
are. -/
def escapeByte (b : UInt8) : Bytes :=
  if b = '"' then text "\\\""
  else if b = '\\' then text "\\\\"
  else if b = '\n' then text "\\n"
  else if b = '\r' then text "\\r"
  else if b = '\t' then text "\\t"
  else [b]

def Entry.jsonLine (e : Entry) (millis : Int64) : Bytes :=
  text "\x7b\"ts\":" ++ Bytes.signedDecimal millis.toInt ++
    text ",\"level\":\"" ++ e.level.name ++
    text "\",\"module\":\"" ++ e.tag.flatMap escapeByte ++
    text "\",\"msg\":\"" ++ e.message.flatMap escapeByte ++
    text "\"\x7d\n"

/-- The line of an entry in a format, without colour. -/
def Entry.line (e : Entry) (format : LineFormat) (now : Moment) : Bytes :=
  match format with
  | .text => e.textLine now.timeOfDay
  | .json => e.jsonLine now.millis

end CallAtlas.Log
