import CallAtlas.Name
import CallAtlas.Table
import CallAtlas.Tree

/-! # Alias tables

`alias MyApp.Repo` lets `Repo` stand for `MyApp.Repo`. A table maps the short names in force to
modules, and `resolve` finds the module that a reference stands for: only the first segment of a
reference is looked up. What a program computes at run time resolves to the unknown name.
-/
namespace CallAtlas

abbrev AliasTable := Table ModuleName

def segmentNames? : List Tree → Option (List Bytes)
  | [] => some []
  | t :: ts => if t.form = .aliasSegment then (segmentNames? ts).map (t.name :: ·) else none

def literalSegments? (t : Tree) : Option (List Bytes) :=
  if t.form = .aliases && !t.children.isEmpty then segmentNames? t.children else none

/-- The module behind an atom: `:"Elixir.MyApp.Repo"` is `MyApp.Repo`. -/
def ModuleName.ofAtom (atom : Bytes) : ModuleName :=
  let mark := text "Elixir."
  if mark.isPrefixOf atom && mark.length < atom.length then .parse (atom.drop mark.length)
  else .erlang atom

def resolve (current : ModuleName) (aliases : AliasTable) : Tree → ModuleName
  | ⟨.aliases, _, _, head :: more, _, _⟩ =>
    match segmentNames? more with
    | none => .unknown
    | some segments =>
      if head.form = .aliasSegment then
        match aliases.find? head.name with
        | some module => module.concat segments
        | none => .elixir head.name segments
      else (resolve current aliases head).concat segments
  | ⟨.moduleSelf, _, _, _, _, _⟩ => current
  | ⟨.atom, _, name, _, _, _⟩ => .ofAtom name
  | ⟨.call, _, name, [argument], _, _⟩ =>
    if name = text "unquote" then resolve current aliases argument else .unknown
  | _ => .unknown

namespace AliasTable

/-- `alias Base.{A, B}`: one entry per name in braces that is written out in full. -/
def addEntries (aliases : AliasTable) (base : ModuleName) (entries : List Tree) : AliasTable :=
  entries.foldl (fun aliases entry =>
    match literalSegments? entry with
    | none => aliases
    | some segments =>
      match base.concat segments, segments.getLast? with
      | .unknown, _ | _, none => aliases
      | module, some short => aliases.insert short module) aliases

def shortName? (options : Tree) : Option Bytes :=
  if options.form = .list then
    options.children.findSome? fun pair =>
      match pair.form, pair.children with
      | .pair, key :: value :: _ =>
        if key.name = text "as" then
          match literalSegments? value with
          | some [short] => some short
          | _ => none
        else none
      | _, _ => none
  else none

/-- The table after `alias target` or `alias target, options` inside the module `current`. The base
of a name with braces is not itself looked up in the table. -/
def update (aliases : AliasTable) (current : ModuleName) (target : Tree) (options : Option Tree) :
    AliasTable :=
  match target.form, target.children with
  | .multiAlias, base :: entries =>
    match resolve current [] base with
    | .unknown => aliases
    | module => aliases.addEntries module entries
  | form, children =>
    match resolve current aliases target with
    | .unknown => aliases
    | module =>
      match options.bind shortName? with
      | some short => aliases.insert short module
      | none =>
        match form, module.isErlang, children.getLast? with
        | .aliases, false, some last =>
          if last.form = .aliasSegment then aliases.insert last.name module else aliases
        | _, _, _ => aliases

end AliasTable
end CallAtlas
