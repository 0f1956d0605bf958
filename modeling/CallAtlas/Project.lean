import CallAtlas.Atlas
import CallAtlas.FileTree.Lookup
import CallAtlas.Record.OfSource

/-! # Projects

The sources of a project are the files below its root that end in `.ex` or `.exs`, except tests
where these are not asked for and except what lies in hidden directories. A source that cannot be
read or is malformed is reported and passed over.
-/
namespace CallAtlas.Project

def isSource (includeTests : Bool) (p : Bytes) : Bool :=
  let extension := Path.extension p
  extension == text ".ex" ||
    (extension == text ".exs" &&
      (includeTests || !(text "_test.exs").isSuffixOf (Path.fileName p)))

def isHidden (name : Bytes) : Bool := 1 < name.length && (text ".").isPrefixOf name

/-- The sources below a directory, as paths that start with the path of the directory, in order. -/
def sourcesBelow (t : FileTree) (includeTests : Bool) (root : Bytes) : List Bytes :=
  let found := (t.filesBelow root).filter (!·.dropLast.any isHidden)
  let paths := (found.map (·.foldl Path.join root)).filter (isSource includeTests)
  paths.mergeSort fun a b => Bytes.order a b != .gt

/-- The sources of a project. The root may be a single file. -/
def scan (t : FileTree) (includeTests : Bool) (root : Bytes) : Log.Logged (List Bytes) := do
  match t.status? root with
  | none =>
    Log.say .debug "scan" (text "Path does not exist: " ++ root)
    return []
  | some (.file _) => return if isSource includeTests root then [root] else []
  | some .directory =>
    let found := sourcesBelow t includeTests root
    Log.say .debug "scan" <|
      text "Found " ++ Bytes.decimal found.length ++ text " source files under " ++ root
    return found

def fileRecords (t : FileTree) (path : Bytes) : Log.Logged (Except SourceError (List Record)) :=
  match t.read? path with
  | none => pure (.error (.unreadable path))
  | some content => Record.ofSource ⟨path, content⟩

/-- The records of each file that has any, `none` for a file that is passed over. -/
def readAll (t : FileTree) : List Bytes → Log.Logged (List (Option (List Record)))
  | [] => pure []
  | path :: rest => do
    match ← fileRecords t path with
    | .error e =>
      Log.say .warn "parse" (text "Skipping " ++ e.message)
      return none :: (← readAll t rest)
    | .ok records =>
      Log.say .debug "extract" (path ++ text ": " ++ Atlas.count records.length " modules")
      return some records :: (← readAll t rest)

def collect (t : FileTree) (paths : List Bytes) : Log.Logged (List Record) := do
  let results ← readAll t paths
  let records := results.flatMap (·.getD [])
  let skipped := results.countP (·.isNone)
  Log.say .info "extract" <|
    Atlas.count records.length " modules from " ++ Bytes.decimal (paths.length - skipped) ++
      text " files (" ++ Atlas.count skipped " skipped)"
  return records

def records (t : FileTree) (includeTests : Bool) (root : Bytes) : Log.Logged (List Record) := do
  collect t (← scan t includeTests root)

def atlas (t : FileTree) (includeTests internalOnly : Bool) (root : Bytes) : Log.Logged Atlas := do
  Atlas.survey internalOnly (← records t includeTests root)

end CallAtlas.Project
