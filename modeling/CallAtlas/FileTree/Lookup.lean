import CallAtlas.FileTree

/-! # What a path leads to

A path is followed from the root or, if it is relative, from the working directory. Each name but
the last has to lead to a directory, `.` stays and `..` goes up. A zero byte ends a path. Names and
paths are limited in length, and the first fault on the way decides.
-/
namespace CallAtlas

inductive PathError where
  | missing
  | notDirectory
  | tooLong
  deriving DecidableEq, Repr

namespace FileTree

def maxName : Nat := 255

def maxPath : Nat := 4095

/-- Where a path leads: a place, and the item that is there. -/
structure Spot where
  place : List Bytes
  item : Option Item

/-- Follows names from an item, which is entered by the names in `above`, the last one first, each
from the directory beside it. -/
def walk (here : Option Item) (above : List (Bytes × Item)) :
    List Bytes → Except PathError Spot
  | [] => .ok ⟨(above.map (·.1)).reverse, here⟩
  | name :: names =>
    match here with
    | none => .error .missing
    | some (.file _) => .error .notDirectory
    | some (.directory items) =>
      if name = text "." then walk here above names
      else if name = text ".." then
        match above with
        | [] => walk here [] names
        | (_, parent) :: further => walk (some parent) further names
      else if maxName < name.length then .error .tooLong
      else walk (Table.find? name items) ((name, .directory items) :: above) names

/-- Where a path leads. A path that ends with a slash does not lead to a file. -/
def find (t : FileTree) (p : Bytes) : Except PathError Spot :=
  let p := p.takeWhile (· != 0)
  if p.isEmpty then .error .missing
  else if maxPath < p.length then .error .tooLong
  else do
    let start := if Path.isAbsolute p then [] else t.working
    let spot ← walk (some t.root) [] (start ++ Path.names p)
    match spot.item with
    | some (.file _) => if Path.endsWithSlash p then throw .notDirectory else return spot
    | _ => return spot

def item? (t : FileTree) (p : Bytes) : Option Item :=
  match t.find p with
  | .ok spot => spot.item
  | .error _ => none

def status? (t : FileTree) (p : Bytes) : Option Node := (t.item? p).map Item.node

def isDirectory (t : FileTree) (p : Bytes) : Bool := t.status? p == some .directory

/-- The content of a file; a directory can be opened and has none. -/
def read? (t : FileTree) (p : Bytes) : Option Bytes :=
  (t.item? p).map fun
    | .file content => content
    | .directory _ => []

def filesBelow (t : FileTree) (p : Bytes) : List (List Bytes) :=
  match t.item? p with
  | some item => (item.entries.filter (·.2 != .directory)).map (·.1)
  | none => []

/-- The place where a file can be opened for writing: there is a file, or nothing in a
directory. -/
def writable? (t : FileTree) (p : Bytes) : Option (List Bytes) :=
  match t.find p with
  | .ok ⟨_, some (.directory _)⟩ | .error _ => none
  | .ok spot => if Path.endsWithSlash (p.takeWhile (· != 0)) then none else some spot.place

def write? (t : FileTree) (p content : Bytes) : Option FileTree :=
  (t.writable? p).map fun place => t.set place (.file content)

end FileTree
end CallAtlas
