import CallAtlas.Proofs.Grammar.Shape
import CallAtlas.Proofs.Record.Events
import Mathlib.Data.List.Basic

/-! # The walk finds every child it looks up

The walk over a module takes for granted that a call behind a dot has a receiver, that an option has
a key and a value, and that the name before braces is there. Here it looks up each such child by its
place and comes to no result where the child is missing, or where a call would have fewer than no
arguments. On trees that fit the table of shapes it always comes to a result, and the result is the
same.
-/
namespace CallAtlas
namespace Checked

/-! ### Looking up children -/

/-- The short name that the first usable `as:` among the pairs gives. -/
def shortName : List Tree → Option (Option Bytes)
  | [] => some none
  | pair :: more =>
    if pair.form = .pair then do
      let key ← pair.children[0]?
      if key.name = text "as" then
        let value ← pair.children[1]?
        match literalSegments? value with
        | some [short] => some (some short)
        | _ => shortName more
      else shortName more
    else shortName more

/-- The short name that the options of a directive give. -/
def givenName (options : Option Tree) : Option (Option Bytes) :=
  match options with
  | some t => if t.form = .list then shortName t.children else some none
  | none => some none

/-- The table after `alias target` or `alias target, options`. -/
def update (aliases : AliasTable) (current : ModuleName) (target : Tree) (options : Option Tree) :
    Option AliasTable :=
  if target.form = .multiAlias then do
    let base ← target.children[0]?
    match resolve current [] base with
    | .unknown => some aliases
    | module => some (aliases.addEntries module (target.children.drop 1))
  else
    match resolve current aliases target with
    | .unknown => some aliases
    | module => do
      match ← givenName options with
      | some short => some (aliases.insert short module)
      | none =>
        if target.form = .aliases && !module.isErlang then do
          let last ← target.children.getLast?
          some (if last.form = .aliasSegment then aliases.insert last.name module else aliases)
        else some aliases

def directive (s : Survey) (kind : DirectiveKind) (arguments : List Tree) : Option Survey :=
  match arguments with
  | [] => some s
  | target :: more => do
    let aliases ←
      if kind = .alias then update s.aliases s.module target more.head? else some s.aliases
    some { s with
      directives := ⟨kind, resolve s.module s.aliases target⟩ :: s.directives
      aliases }

/-- The number of arguments of a call whose receiver is among its children. -/
def remoteArity (children : Nat) : Option UInt32 :=
  if 1 ≤ children then some (UInt32.ofNat (children - 1)) else none

/-- What an expression in the body of a function adds by itself, and whether what stands inside it
is walked too. -/
def visit (s : Survey) (caller : FunctionName) (t : Tree) : Option (Survey × Bool) :=
  match t.form with
  | .call =>
    if t.name = text "defmodule" || t.name = text "require" then some (s, false)
    else
      match DirectiveKind.parse? t.name with
      | some kind => (directive s kind t.children).map (·, false)
      | none => some (s.visit caller t)
  | .remoteCall => do
    let receiver ← t.children[0]?
    let arity ← remoteArity t.children.length
    some (s.call ⟨.remote, caller, ⟨resolve s.module s.aliases receiver, t.name, arity⟩⟩, true)
  | _ => some (s.visit caller t)

/-! ### Walking -/

mutual

def body (caller : FunctionName) : Tree → Survey → Option Survey
  | ⟨form, span, name, children, parens, interpolated⟩, s => do
    let (s, inside) ← visit s caller ⟨form, span, name, children, parens, interpolated⟩
    if inside then bodyOf caller children s else some s

def bodyOf (caller : FunctionName) : List Tree → Survey → Option Survey
  | [], s => some s
  | t :: ts, s => do bodyOf caller ts (← body caller t s)

end

def definition (s : Survey) (t : Tree) : Option Survey :=
  match t.children with
  | [] => some s
  | head :: _ =>
    match definedBy? (unguarded head) with
    | none => some { s with skipped := t.span.start.line :: s.skipped }
    | some signature =>
      bodyOf ⟨s.module, signature.name, signature.arity⟩ (bodies t)
        { s with functions := Ordered.insert Signature.order signature s.functions }

mutual

def moduleLevel : Tree → Survey → Option Survey
  | ⟨form, span, name, children, parens, interpolated⟩, s =>
    match form with
    | .block => moduleLevelOf children s
    | .call =>
      if definitionWords.contains name then
        definition s ⟨.call, span, name, children, parens, interpolated⟩
      else
        match DirectiveKind.parse? name with
        | some kind => directive s kind children
        | none => some s
    | _ => some s

def moduleLevelOf : List Tree → Survey → Option Survey
  | [], s => some s
  | t :: ts, s => do moduleLevelOf ts (← moduleLevel t s)

end

/-- The record of a module definition that stands inside the module `enclosing`. -/
def extract (file : Bytes) (enclosing : ModuleName) (definition : Tree) : Option Record := do
  let name ← definition.children[0]?
  let survey ←
    moduleLevelOf (bodies definition) { module := resolve enclosing [] name }
  some (survey.record file)

mutual

/-- The records of all modules that a tree inside `enclosing` defines. -/
def recordsIn (file : Bytes) (enclosing : ModuleName) : Tree → Option (List Record)
  | ⟨form, span, name, children, parens, interpolated⟩ =>
    let t : Tree := ⟨form, span, name, children, parens, interpolated⟩
    if definesModule t then do
      let record ← extract file enclosing t
      let nested ← recordsInAll file record.name children
      some (record :: nested)
    else recordsInAll file enclosing children

def recordsInAll (file : Bytes) (enclosing : ModuleName) : List Tree → Option (List Record)
  | [] => some []
  | t :: ts => do
    let first ← recordsIn file enclosing t
    let more ← recordsInAll file enclosing ts
    some (first ++ more)

end

/-- The records of a file. -/
def records (file : Bytes) (root : Tree) : Option (List Record) := recordsIn file .unknown root

/-! ### Nothing is missing -/

/-- The short name that one option gives. -/
def optionName? (pair : Tree) : Option Bytes :=
  match pair.form, pair.children with
  | .pair, key :: value :: _ =>
    if key.name = text "as" then
      match literalSegments? value with
      | some [short] => some short
      | _ => none
    else none
  | _, _ => none

theorem shortName_eq {ts : List Tree} (h : ∀ t ∈ ts, t.AllFit) :
    shortName ts = some (ts.findSome? optionName?) := by
  induction ts with
  | nil => rfl
  | cons pair more ih =>
    have rest := ih fun t ht => h t (List.mem_cons_of_mem pair ht)
    obtain ⟨⟨admits, -⟩, -⟩ := Tree.allFit_iff.mp (h pair List.mem_cons_self)
    rw [shortName, List.findSome?_cons]
    by_cases hp : pair.form = .pair
    · rw [hp] at admits
      obtain ⟨key, value, hc⟩ := List.length_eq_two.mp admits
      by_cases hkey : key.name = text "as"
      · simp [optionName?, hp, hc, hkey]
        split <;> simp_all
      · simp [optionName?, hp, hc, hkey, rest]
    · have none : optionName? pair = none := by
        unfold optionName?
        split <;> simp_all
      simp [hp, none, rest]

theorem givenName_eq {options : Option Tree} (h : ∀ t ∈ options, t.AllFit) :
    givenName options = some (options.bind AliasTable.shortName?) := by
  cases options with
  | none => rfl
  | some t =>
    have children := (Tree.allFit_iff.mp (h t rfl)).2
    have short : AliasTable.shortName? t =
      if t.form = .list then t.children.findSome? optionName? else none := rfl
    rw [Option.bind_some, short, givenName]
    split
    · exact shortName_eq children
    · rfl

theorem update_eq (aliases : AliasTable) (current : ModuleName) {target : Tree}
    {options : Option Tree} (ht : target.AllFit) (ho : ∀ t ∈ options, t.AllFit) :
    update aliases current target options = some (aliases.update current target options) := by
  obtain ⟨⟨admits, -⟩, -⟩ := Tree.allFit_iff.mp ht
  have short := givenName_eq ho
  obtain ⟨form, span, name, children, parens, interpolated⟩ := target
  cases form with
  | multiAlias =>
    obtain ⟨base, entries, rfl⟩ := List.exists_cons_of_ne_nil admits
    simp only [update, AliasTable.update, if_true, List.getElem?_cons_zero, Option.bind_eq_bind,
      Option.bind_some]
    cases resolve current [] base <;> rfl
  | aliases =>
    obtain ⟨head, segments, rfl⟩ := List.exists_cons_of_ne_nil admits.1
    simp only [update, AliasTable.update, short]
    generalize resolve current aliases _ = module
    cases module <;> cases options.bind AliasTable.shortName? <;> rfl
  | _ =>
    simp only [update, AliasTable.update, short]
    generalize resolve current aliases _ = module
    cases module <;> cases options.bind AliasTable.shortName? <;> rfl

theorem directive_eq (s : Survey) (kind : DirectiveKind) {arguments : List Tree}
    (h : ∀ t ∈ arguments, t.AllFit) :
    directive s kind arguments = some (s.directive kind arguments) := by
  cases arguments with
  | nil => rfl
  | cons target more =>
    have options : ∀ t ∈ more.head?, t.AllFit := fun t ht =>
      h t (List.mem_cons_of_mem target (List.mem_of_mem_head? ht))
    have updated := update_eq s.aliases s.module (h target List.mem_cons_self) options
    simp only [directive, Survey.directive]
    by_cases hk : kind = .alias
    · simp [hk, updated]
    · simp [hk]

theorem visit_eq (s : Survey) (caller : FunctionName) {t : Tree} (h : t.AllFit) :
    visit s caller t = some (s.visit caller t) := by
  obtain ⟨⟨admits, -⟩, inside⟩ := Tree.allFit_iff.mp h
  obtain ⟨form, span, name, children, parens, interpolated⟩ := t
  cases form with
  | call =>
    simp only [visit, Survey.visit]
    split
    · rfl
    · cases DirectiveKind.parse? name with
      | some kind => simp only [directive_eq s kind inside, Option.map_some]
      | none => rfl
  | remoteCall =>
    obtain ⟨receiver, arguments, rfl⟩ := List.exists_cons_of_ne_nil admits
    simp [visit, Survey.visit, remoteArity]
  | _ => rfl

mutual

theorem body_eq (caller : FunctionName) {t : Tree} (s : Survey) (h : t.AllFit) :
    body caller t s = some (Survey.body caller t s) := by
  have here := visit_eq s caller h
  have inside := (Tree.allFit_iff.mp h).2
  obtain ⟨form, span, name, children, parens, interpolated⟩ := t
  rw [body, here, Survey.body]
  simp only [Option.bind_eq_bind, Option.bind_some]
  split
  · exact bodyOf_eq caller _ inside
  · rfl

theorem bodyOf_eq (caller : FunctionName) {ts : List Tree} (s : Survey)
    (h : ∀ t ∈ ts, t.AllFit) : bodyOf caller ts s = some (Survey.bodyOf caller ts s) := by
  cases ts with
  | nil => rfl
  | cons t ts =>
    obtain ⟨first, more⟩ := List.forall_mem_cons.mp h
    rw [bodyOf, body_eq caller s first, Survey.bodyOf]
    exact bodyOf_eq caller _ more

end

/-- The bodies of a definition are nodes of it. -/
theorem allFit_bodies {t : Tree} (h : t.AllFit) : ∀ b ∈ bodies t, b.AllFit :=
  forall_mem_bodies (fun _ ht => (Tree.allFit_iff.mp ht).2) h

theorem definition_eq (s : Survey) {t : Tree} (h : t.AllFit) :
    definition s t = some (s.definition t) := by
  unfold definition Survey.definition
  cases t.children with
  | nil => rfl
  | cons head more =>
    dsimp only
    cases definedBy? (unguarded head) with
    | none => rfl
    | some f => exact bodyOf_eq _ _ (allFit_bodies h)

mutual

theorem moduleLevel_eq {t : Tree} (s : Survey) (h : t.AllFit) :
    moduleLevel t s = some (Survey.moduleLevel t s) := by
  have inside := (Tree.allFit_iff.mp h).2
  obtain ⟨form, span, name, children, parens, interpolated⟩ := t
  cases form with
  | block => exact moduleLevelOf_eq s inside
  | call =>
    simp only [moduleLevel, Survey.moduleLevel]
    split
    · exact definition_eq s h
    · cases DirectiveKind.parse? name with
      | none => rfl
      | some kind => exact directive_eq s kind inside
  | _ => rfl

theorem moduleLevelOf_eq {ts : List Tree} (s : Survey) (h : ∀ t ∈ ts, t.AllFit) :
    moduleLevelOf ts s = some (Survey.moduleLevelOf ts s) := by
  cases ts with
  | nil => rfl
  | cons t ts =>
    obtain ⟨first, more⟩ := List.forall_mem_cons.mp h
    rw [moduleLevelOf, moduleLevel_eq s first, Survey.moduleLevelOf]
    exact moduleLevelOf_eq _ more

end

theorem extract_eq (file : Bytes) (enclosing : ModuleName) {definition : Tree}
    (h : definition.AllFit) (hd : definesModule definition) :
    extract file enclosing definition =
      some (CallAtlas.extract file enclosing definition).value := by
  have length : 2 ≤ definition.children.length := by
    simp only [definesModule, Bool.and_eq_true, decide_eq_true_eq] at hd
    exact hd.2
  have bodies_fit := allFit_bodies h
  obtain ⟨name, more, hc⟩ : ∃ name more, definition.children = name :: more := by
    cases hc : definition.children with
    | nil => simp [hc] at length
    | cons name more => exact ⟨name, more, rfl⟩
  unfold extract
  rw [hc]
  simp only [List.getElem?_cons_zero, Option.bind_eq_bind, Option.bind_some,
    moduleLevelOf_eq _ bodies_fit]
  unfold CallAtlas.extract
  rw [hc]
  rfl

mutual

theorem recordsIn_eq (file : Bytes) (enclosing : ModuleName) {t : Tree} (h : t.AllFit) :
    recordsIn file enclosing t = some (CallAtlas.recordsIn file enclosing t).value := by
  have inside := (Tree.allFit_iff.mp h).2
  obtain ⟨form, span, name, children, parens, interpolated⟩ := t
  rw [recordsIn, CallAtlas.recordsIn]
  split
  · rename_i hd
    rw [extract_eq file enclosing h hd]
    simp only [Option.bind_eq_bind, Option.bind_some, recordsInAll_eq file _ inside]
    rfl
  · exact recordsInAll_eq file enclosing inside

theorem recordsInAll_eq (file : Bytes) (enclosing : ModuleName) {ts : List Tree}
    (h : ∀ t ∈ ts, t.AllFit) :
    recordsInAll file enclosing ts = some (CallAtlas.recordsInAll file enclosing ts).value := by
  cases ts with
  | nil => rfl
  | cons t ts =>
    obtain ⟨first, more⟩ := List.forall_mem_cons.mp h
    rw [recordsInAll, CallAtlas.recordsInAll, recordsIn_eq file enclosing first,
      recordsInAll_eq file enclosing more]
    rfl

end

end Checked

/-- Every tree that the grammar reads from a token list or from a source text fits the table of
shapes at every node, and the walk over it looks up no child that is missing and finds no call with
fewer than no arguments. -/
theorem parsed_trees_fit {t : Tree}
    (h : (∃ tokens, Grammar.parseTokens tokens = .ok t ∨ Grammar.parseExpression tokens = .ok t) ∨
      ∃ s, Grammar.parse s = .ok t) :
    t.WellShaped ∧ ∀ file, Checked.records file t = some (records file t).value := by
  have shape : t.WellShaped := by
    rcases h with ⟨tokens, h⟩ | ⟨s, h⟩
    · exact Grammar.wellShaped_parse h
    · exact Grammar.wellShaped_parse (.inl (Grammar.parseTokens_of_parse h).2)
  exact ⟨shape, fun file => Checked.recordsIn_eq file .unknown shape.2⟩

/-- A module with a directive for two names, an option, a guard, a remote call and a block. -/
def sampleModule : Source :=
  ⟨text "sample.ex", text
    ("defmodule A do\n  alias B.\x7bC, D\x7d\n  alias E.F, as: G\n" ++
      "  def f(x) when x > 1, do: C.g(x, fn y -> y end)\n" ++
      "  def h do\n    if G.ok?, do: :a\n  end\nend\n")⟩

theorem parsed_sampleModule_fits :
    ∃ t, Grammar.parse sampleModule = .ok t ∧ t.WellShaped ∧
      ∀ file, Checked.records file t = some (records file t).value := by
  have ok : (Grammar.parse sampleModule).toOption.isSome := by decide +kernel
  cases ht : Grammar.parse sampleModule with
  | error e => simp [ht, Except.toOption] at ok
  | ok t => exact ⟨t, rfl, parsed_trees_fit (.inr ⟨sampleModule, ht⟩)⟩

end CallAtlas
