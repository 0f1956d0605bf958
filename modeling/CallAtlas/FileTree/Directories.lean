import CallAtlas.FileTree.Lookup

/-! # Making directories

A directory is made with all that are missing on the way to it, from the outermost on. What has been
made stays when a later one cannot be made.
-/
namespace CallAtlas

inductive DirectoryError where
  | emptyPath
  | notADirectory
  | fileExists
  | noSuchDirectory
  | nameTooLong
  deriving DecidableEq, Repr

namespace DirectoryError

def message : DirectoryError → Bytes
  | .emptyPath => text "Invalid argument"
  | .notADirectory => text "Not a directory"
  | .fileExists => text "File exists"
  | .noSuchDirectory => text "No such file or directory"
  | .nameTooLong => text "File name too long"

def ofPathError : PathError → DirectoryError
  | .missing => .noSuchDirectory
  | .notDirectory => .notADirectory
  | .tooLong => .nameTooLong

end DirectoryError

namespace FileTree

/-- The most directories that are made at once. -/
def maxMade : Nat := 1000

def makeDirectory (t : FileTree) (p : Bytes) : Except DirectoryError FileTree :=
  match t.find p with
  | .error e => .error (.ofPathError e)
  | .ok ⟨_, some (.directory _)⟩ => .ok t
  | .ok ⟨_, some (.file _)⟩ => .error .fileExists
  | .ok ⟨place, none⟩ => .ok (t.set place .directory)

/-- The paths to make on the way to a missing directory, the shortest first, in front of those found
already. The names are given from the last to the first. The way up ends at the first directory
that is there. -/
def missingOnTheWay (t : FileTree) (absolute : Bool) (found : List Bytes) :
    List Bytes → Except DirectoryError (List Bytes)
  | [] => .ok found
  | name :: above =>
    let found :=
      if name = text "." || name = text ".." then found
      else Path.ofNames absolute (name :: above).reverse :: found
    if maxMade < found.length then .error .nameTooLong
    else if above.isEmpty && !absolute then .ok found
    else
      match t.find (Path.ofNames absolute above.reverse) with
      | .ok ⟨_, some (.directory _)⟩ => .ok found
      | .ok ⟨_, some (.file _)⟩ => .error .notADirectory
      | .error .tooLong => .error .nameTooLong
      | _ => t.missingOnTheWay absolute found above

/-- Makes directories one after the other, up to the first that cannot be made. -/
def makeEach (t : FileTree) : List Bytes → FileTree × Option DirectoryError
  | [] => (t, none)
  | p :: more =>
    match t.makeDirectory p with
    | .ok t => t.makeEach more
    | .error e => (t, some e)

def makeDirectories (t : FileTree) (p : Bytes) : FileTree × Option DirectoryError :=
  if p.isEmpty then (t, some .emptyPath)
  else
    match t.find p with
    | .ok ⟨_, some (.directory _)⟩ => (t, none)
    | .ok ⟨_, some (.file _)⟩ => (t, some .notADirectory)
    | .error .tooLong => (t, some .nameTooLong)
    | _ =>
      match t.missingOnTheWay (Path.isAbsolute p) [] (Path.names p).reverse with
      | .ok missing => t.makeEach missing
      | .error e => (t, some e)

end FileTree
end CallAtlas
