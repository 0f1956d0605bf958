import CallAtlas.Token

/-! # Syntax trees

One node type serves every construct: a form, a name, a region of the source and the children in
order. What the children of each form are:

* `block`: expressions, or clauses where the block is made of `->` clauses;
* `call`, `construct`: the arguments, a `do` block counting as the last one;
* `remoteCall`: the receiver, then the arguments; `anonCall`: the function, then the arguments;
* `aliases`: the head of a module reference, then one `aliasSegment` per further segment;
* `multiAlias`: the base, then one node per entry in braces;
* `string`, `charlist`: the embedded expressions; `sigil`: its text as a `string`;
* `list`, `tuple`, `map`, `bitstring`: the elements; `struct`: its name and a `map`;
* `pair`, `binaryOp`, `access`, `clause`: two children; `unaryOp`, `fieldAccess`: one;
* `fn`: clauses; `attribute`: at most one value; `doBlock`: a pair of section name and body each.
-/
namespace CallAtlas

inductive Form where
  | block | call | remoteCall | anonCall | aliases | aliasSegment | moduleSelf | multiAlias
  | var | atom | string | charlist | integer | float | sigil | bitstring | list | tuple | map
  | struct | pair | binaryOp | unaryOp | access | fieldAccess | fn | clause | construct | attribute
  | doBlock
  deriving DecidableEq, Repr, Inhabited

def Form.name : Form → Bytes
  | .block => text "block"
  | .call => text "call"
  | .remoteCall => text "remote"
  | .anonCall => text "anon-call"
  | .aliases => text "aliases"
  | .aliasSegment => text "seg"
  | .moduleSelf => text "self"
  | .multiAlias => text "multi-alias"
  | .var => text "var"
  | .atom => text "atom"
  | .string => text "string"
  | .charlist => text "charlist"
  | .integer => text "int"
  | .float => text "float"
  | .sigil => text "sigil"
  | .bitstring => text "bitstring"
  | .list => text "list"
  | .tuple => text "tuple"
  | .map => text "map"
  | .struct => text "struct"
  | .pair => text "pair"
  | .binaryOp => text "op"
  | .unaryOp => text "unary"
  | .access => text "access"
  | .fieldAccess => text "field"
  | .fn => text "fn"
  | .clause => text "clause"
  | .construct => text "construct"
  | .attribute => text "attr"
  | .doBlock => text "do-block"

structure Tree where
  form : Form
  span : Span
  name : Bytes := []
  children : List Tree := []
  /-- A call written with parentheses. -/
  parens : Bool := false
  /-- A literal with embedded expressions. -/
  interpolated : Bool := false
  deriving Inhabited

namespace Tree

/-- The tree with one more child at the end, up to the end of which its region grows. -/
def append (t child : Tree) : Tree :=
  { t with span := t.span.to child.span, children := t.children ++ [child] }

mutual

/-- The tree as nested parentheses, as in `(call foo (var x) (int 1))`, in front of `rest`. -/
def writeDump : Tree → Bytes → Bytes
  | ⟨form, _, name, children, _, _⟩, rest =>
    let named : Bytes := if name.isEmpty then [] else ' ' :: name
    '(' :: (form.name ++ named ++ writeDumps children (')' :: rest))

def writeDumps : List Tree → Bytes → Bytes
  | [], rest => rest
  | t :: ts, rest => ' ' :: writeDump t (writeDumps ts rest)

end

def dump (t : Tree) : Bytes := t.writeDump []

mutual

/-- The nodes of a tree, each before its children. -/
def nodes : Tree → List Tree
  | ⟨form, span, name, children, parens, interpolated⟩ =>
    ⟨form, span, name, children, parens, interpolated⟩ :: nodesOf children

def nodesOf : List Tree → List Tree
  | [] => []
  | t :: ts => nodes t ++ nodesOf ts

end

/-- The body of the first section of a `do` block that has a name. -/
def findSection (name : Bytes) (t : Tree) : Option Tree :=
  if t.form = .doBlock then
    t.children.findSome? fun pair =>
      match pair.children with
      | [key, body] => if key.name = name then some body else none
      | _ => none
  else none

end Tree
end CallAtlas
