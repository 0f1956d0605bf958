import CallAtlas.Run
import Std.Time

/-! # The program

Loads what a run may look at into a file tree, runs, and then writes what the run has changed.
-/
namespace CallAtlas.Program

def toString? (t : Bytes) : Option String := String.fromUTF8? ⟨t.toArray⟩

def pathOf (place : List Bytes) : String :=
  (toString? (text "/" ++ Bytes.join '/' place)).getD ""

/-- What is at a place outside; the content of a file is read only if it is asked for. -/
def inspect (place : List Bytes) (content : Bool) : IO (Option Node) := do
  try
    let path := (← IO.currentDir) / pathOf place
    match (← path.metadata).type with
    | .dir => return some .directory
    | .file =>
      if content then return some (.file (← IO.FS.readBinFile path).data.toList)
      else return some (.file [])
    | _ => return none
  catch _ => return none

def observe (t : FileTree) (p : Bytes) : IO FileTree := do
  let mut t := t
  let mut place := if Path.isAbsolute p then [] else t.working
  for name in Path.names p do
    if name == text ".." then place := place.dropLast
    else if name != text "." then place := place ++ [name]
    if (t.at? place).isNone then
      if let some node ← inspect place true then t := t.set place node
  return t

/-- Adds the sources below a place. -/
partial def observeBelow (t : FileTree) (place : List Bytes) : IO FileTree := do
  let mut t := t
  let path := (← IO.currentDir) / pathOf place
  for entry in (← path.readDir) do
    let name := text entry.fileName
    let inner := place ++ [name]
    match ← inspect inner (Project.isSource true name) with
    | some .directory =>
      t := t.set inner .directory
      if !Project.isHidden name then t ← observeBelow t inner
    | some node => t := t.set inner node
    | none => pure ()
  return t

/-- The part of the file system that a command line can reach. -/
def snapshot (arguments : List Bytes) : IO FileTree := do
  let working := Path.names (text (← IO.currentDir).toString)
  let start : FileTree := { working }
  let mut t ← observe start start.workingPath
  let log := Log.Config.ofArguments arguments []
  if !log.file.isEmpty then t ← observe t log.file
  if let .ok c := CommandLine.parse arguments then
    for p in [c.projectPath, c.fromJson, c.configPath, c.outputDir.getD []] do
      t ← observe t p
    let root := Config.rootOf t (if c.fromJson.isEmpty then c.projectPath else [])
    t ← observe t (Path.join root Config.fileName)
    if !c.projectPath.isEmpty && t.isDirectory c.projectPath then
      if let .ok spot := t.find c.projectPath then t ← observeBelow t spot.place
    let o := (Options.resolve t c).value
    t ← observe t o.outputDir
    if let some name := outputName? o.format o.graph then
      t ← observe t (Path.join o.outputDir name)
  return t

def commit (before after : FileTree) : IO Unit := do
  for (place, node) in after.entries do
    if before.at? place != some node then
      match node with
      | .directory => IO.FS.createDirAll (pathOf place)
      | .file content => IO.FS.writeBinFile (pathOf place) ⟨content.toArray⟩

def padded (width n : Nat) : Bytes :=
  let digits := Bytes.decimal n
  List.replicate (width - digits.length) ('0' : UInt8) ++ digits

def now : IO Log.Moment := do
  let stamp ← Std.Time.Timestamp.now
  let t ← Std.Time.PlainTime.now
  let part (width : Nat) (n : Int) : Bytes := padded width n.toNat
  return {
    timeOfDay :=
      part 2 t.hour.val ++ text ":" ++ part 2 t.minute.val ++ text ":" ++ part 2 t.second.val ++
        text "." ++ part 3 t.millisecond.val
    millis := Int64.ofInt stamp.toMillisecondsSinceUnixEpoch.val }

/-- Whether errors are shown on a terminal that knows colours. -/
def onTerminal : IO Bool := do
  if !(← (← IO.getStderr).isTty) then return false
  match ← IO.getEnv "TERM" with
  | some term => return term != "dumb"
  | none => return false

def start (arguments : List String) : IO UInt32 := do
  let arguments := arguments.map text
  let environment := text ((← IO.getEnv "EXVIZ_LOG").getD "")
  let files ← snapshot arguments
  let session : Session := { files, now := ← now }
  let (code, session) := Run.run session arguments environment (← onTerminal)
  let session := session.clearSinks
  commit files session.files
  (← IO.getStdout).write ⟨session.out.toArray⟩
  (← IO.getStderr).write ⟨session.err.toArray⟩
  return UInt32.ofNat code

end CallAtlas.Program

def main (arguments : List String) : IO UInt32 := CallAtlas.Program.start arguments
