import CallAtlas.FileTree.Lookup
import CallAtlas.Log.Config
import CallAtlas.Log.Filter

/-! # Where log entries go

A session holds the file tree, what was written to the two output streams, and the log with its
gate and its sinks. Entries for a file are held back until the file is flushed or closed; an entry
at the level `error` or above flushes its file at once.
-/
namespace CallAtlas

namespace Log

structure LogFile where
  place : List Bytes
  format : LineFormat
  /-- Where the next byte goes; `none` stands for the end of the file, wherever that is. -/
  position : Option Nat := none
  pending : Bytes := []

inductive Sink where
  | console (colors : Bool) (format : LineFormat)
  | file (f : LogFile)
  | memory
  | discard

/-- `content` with `added` written over it from a position on; a gap is filled with zeros. -/
def overwrite (content : Bytes) (position : Nat) (added : Bytes) : Bytes :=
  content.take position ++ List.replicate (position - content.length) 0 ++ added ++
    content.drop (position + added.length)

def LogFile.flush (f : LogFile) (t : FileTree) : LogFile × FileTree :=
  if f.pending.isEmpty then (f, t)
  else
    let content := t.contentAt f.place
    match f.position with
    | none => ({ f with pending := [] }, t.set f.place (.file (content ++ f.pending)))
    | some position =>
      ({ f with pending := [], position := some (position + f.pending.length) },
        t.set f.place (.file (overwrite content position f.pending)))

end Log

open Log

structure Session where
  files : FileTree
  out : Bytes := []
  err : Bytes := []
  /-- What the memory sinks were given. -/
  remembered : List Entry := []
  gate : Gate := {}
  sinks : List Sink := []
  now : Moment

namespace Session

def print (s : Session) (t : Bytes) : Session := { s with out := s.out ++ t }

def printError (s : Session) (t : Bytes) : Session := { s with err := s.err ++ t }

def addSink (s : Session) (sink : Sink) : Session := { s with sinks := s.sinks ++ [sink] }

/-- Hands an entry to one sink, which stands behind those already served. -/
def deliver (e : Entry) (moment : Moment) (s : Session) (sink : Sink) : Session :=
  match sink with
  | .console colors format =>
    let line :=
      if colors && format == .text then e.colorLine moment.timeOfDay else e.line format moment
    (s.printError line).addSink sink
  | .file f =>
    let f := { f with pending := f.pending ++ e.line f.format moment }
    if e.level.reaches .error then
      let (f, files) := f.flush s.files
      { s with files }.addSink (.file f)
    else s.addSink (.file f)
  | .memory => { s with remembered := s.remembered ++ [e] }.addSink sink
  | .discard => s.addSink sink

/-- Hands an entry to all sinks, whatever the gate says. -/
def record (s : Session) (e : Entry) (moment : Moment) : Session :=
  s.sinks.foldl (deliver e moment) { s with sinks := [] }

def log (s : Session) (e : Entry) : Session := if s.gate.admits e then s.record e s.now else s

def absorb {α : Type} (s : Session) (l : Logged α) : α × Session := (l.value, l.entries.foldl log s)

/-- Flushes one sink, which stands behind those already served. -/
def flushSink (s : Session) (sink : Sink) : Session :=
  match sink with
  | .file f =>
    let (f, files) := f.flush s.files
    { s with files }.addSink (.file f)
  | _ => s.addSink sink

def flush (s : Session) : Session := s.sinks.foldl flushSink { s with sinks := [] }

def clearSinks (s : Session) : Session := { s.flush with sinks := [] }

/-- Opens a log file, kept or made empty; `none` if it cannot be opened. -/
def addFile? (s : Session) (path : Bytes) (keep : Bool) (format : LineFormat) : Option Session :=
  (s.files.writable? path).map fun place =>
    let content := if keep then s.files.contentAt place else []
    let f : LogFile := { place, format, position := if keep then none else some 0 }
    { s with files := s.files.set place (.file content) }.addSink (.file f)

/-- Sets the log up anew. Nothing is shown in colour unless the console is a terminal. -/
def configure (s : Session) (c : Log.Config) (terminal : Bool) : Session :=
  let s := { s.clearSinks with gate := Gate.make c.level c.filter }
  let s := if c.console then s.addSink (.console (c.colors && terminal) c.format) else s
  if c.file.isEmpty then s
  else
    match s.addFile? c.file true c.format with
    | some s => s
    | none => s.printError (text "warning: could not open log file: " ++ c.file ++ text "\n")

end Session
end CallAtlas
