import CallAtlas.Path
import CallAtlas.Table

/-! # File trees

A file tree holds directories and files. A place is given by the names on the way down from the
root.
-/
namespace CallAtlas

inductive Item where
  | file (content : Bytes)
  | directory (items : List (Bytes × Item))

/-- What an item is by itself, whatever is in it. -/
inductive Node where
  | directory
  | file (content : Bytes)
  deriving DecidableEq, Repr

namespace Item

def node : Item → Node
  | .file content => .file content
  | .directory _ => .directory

def items : Item → Table Item
  | .file _ => []
  | .directory items => items

def at? : Item → List Bytes → Option Item
  | item, [] => some item
  | item, name :: names => (Table.find? name item.items).bind (·.at? names)

def set (node : Node) : List Bytes → Item → Item
  | [], item =>
    match node with
    | .file content => .file content
    | .directory => .directory item.items
  | name :: names, item =>
    let inner := (Table.find? name item.items).getD (.directory [])
    .directory (Table.insert name (set node names inner) item.items)

theorem node_at?_set (node : Node) (place : List Bytes) (item : Item) :
    ((item.set node place).at? place).map Item.node = some node := by
  induction place generalizing item with
  | nil => cases node <;> simp [set, at?, Item.node]
  | cons name names ih => simp [set, at?, items, ih]

mutual

def entries : Item → List (List Bytes × Node)
  | .file content => [([], .file content)]
  | .directory items => ([], .directory) :: tableEntries items

def tableEntries : Table Item → List (List Bytes × Node)
  | [] => []
  | (name, item) :: more =>
    (entries item).map (fun (place, node) => (name :: place, node)) ++ tableEntries more

end

end Item

structure FileTree where
  /-- What is in the root, which is a directory. -/
  items : Table Item := []
  /-- The place of the working directory. -/
  working : List Bytes := []

namespace FileTree

def root (t : FileTree) : Item := .directory t.items

def at? (t : FileTree) (place : List Bytes) : Option Node := (t.root.at? place).map Item.node

/-- Puts something at a place, in place of what is there. -/
def set (t : FileTree) (place : List Bytes) (node : Node) : FileTree :=
  { t with items := (t.root.set node place).items }

/-- Every place below the root with what is there. -/
def entries (t : FileTree) : List (List Bytes × Node) := Item.tableEntries t.items

def contentAt (t : FileTree) (place : List Bytes) : Bytes :=
  match t.at? place with
  | some (.file content) => content
  | _ => []

def workingPath (t : FileTree) : Bytes := text "/" ++ Bytes.join '/' t.working

def absolute (t : FileTree) (p : Bytes) : Bytes := Path.join t.workingPath p

end FileTree
end CallAtlas
