import CallAtlas.Proofs.Record.Names

/-! # Modules are kept apart

Two walks go over one tree: one finds the module definitions, and one for each of them gathers its
record. They split the tree without overlap. What a nested module holds adds nothing to the module
around it, so a definition may be emptied of its nested modules without a change in its record. And
the record of a definition is made from the definition itself, the file and the name of the nearest
module around it; aliases, siblings and everything else around it have no part in it.
-/
namespace CallAtlas

/-- The forms whose children are statements: blocks, and pairs, whose value may be a body by
itself. -/
def Form.holdsStatements : Form → Bool
  | .block | .pair => true
  | _ => false

namespace Tree

/-! ### Emptying nested modules -/

def isNested (t : Tree) : Bool := t.form == .call && t.name == text "defmodule"

mutual

/-- The tree with nothing inside its nested modules: where a call of `defmodule` is a statement, its
children are left out. Places are left out everywhere, since a nested module of another length moves
all that follows it. -/
def hollow (statement : Bool) : Tree → Tree
  | ⟨form, span, name, children, parens, interpolated⟩ =>
    { form, span := default, name, parens, interpolated
      children :=
        if statement && isNested ⟨form, span, name, children, parens, interpolated⟩ then []
        else hollowAll form.holdsStatements children }

def hollowAll (statement : Bool) : List Tree → List Tree
  | [] => []
  | t :: ts => hollow statement t :: hollowAll statement ts

end

/-- What a module definition says by itself. -/
def own (definition : Tree) : Tree := definition.hollow false

theorem hollowAll_eq_map (statement : Bool) (ts : List Tree) :
    hollowAll statement ts = ts.map (hollow statement) := by
  induction ts with
  | nil => rfl
  | cons t ts ih => rw [hollowAll, ih, List.map_cons]

variable {t : Tree} {statement : Bool}

@[simp] theorem form_hollow : (t.hollow statement).form = t.form := by
  cases t
  rfl

@[simp] theorem name_hollow : (t.hollow statement).name = t.name := by
  cases t
  rfl

/-- Of a tree that is no nested module only the children are emptied. -/
theorem hollow_eq (h : t.isNested = false) :
    t.hollow statement =
      { t with span := default, children := t.children.map (hollow t.form.holdsStatements) } := by
  cases t
  rw [hollow, hollowAll_eq_map, h]
  simp

theorem children_hollow (h : t.isNested = false) :
    (t.hollow statement).children = t.children.map (hollow t.form.holdsStatements) := by
  rw [hollow_eq h]

theorem children_own : t.own.children = t.children.map (hollow t.form.holdsStatements) := by
  cases t
  rw [own, hollow, hollowAll_eq_map]
  rfl

theorem isNested_of_form (h : t.form ≠ .call) : t.isNested = false := by
  simp [isNested, h]

theorem isNested_of_name (h : t.name ≠ text "defmodule") : t.isNested = false := by
  simp [isNested, h]

end Tree

open CallAtlas.Tree

/-! ### References and directives -/

theorem segmentNames_map_hollow (statement : Bool) (ts : List Tree) :
    segmentNames? (ts.map (hollow statement)) = segmentNames? ts := by
  induction ts with
  | nil => rfl
  | cons t ts ih => simp only [List.map_cons, segmentNames?, form_hollow, name_hollow, ih]

theorem literalSegments_hollow (statement : Bool) (t : Tree) :
    literalSegments? (t.hollow statement) = literalSegments? t := by
  unfold literalSegments?
  by_cases h : t.form = .aliases
  · have plain := isNested_of_form (t := t) (by simp [h])
    simp [h, children_hollow plain, segmentNames_map_hollow]
  · simp [h]

theorem resolve_call {current : ModuleName} {aliases : AliasTable} {t : Tree} (h : t.form = .call)
    (other : t.name ≠ text "unquote") : resolve current aliases t = .unknown := by
  obtain ⟨form, span, name, children, parens, interpolated⟩ := t
  obtain rfl : form = .call := h
  match children with
  | [] => rfl
  | [argument] => rw [resolve, if_neg other]
  | _ :: _ :: _ => rfl

theorem unquote_ne : text "unquote" ≠ text "defmodule" := by decide

theorem resolve_hollow (current : ModuleName) (aliases : AliasTable) (statement : Bool) (t : Tree) :
    resolve current aliases (t.hollow statement) = resolve current aliases t := by
  fun_induction resolve current aliases t generalizing statement with
  | case1 _ _ _ _ _ _ hs =>
    rw [hollow_eq (isNested_of_form (by simp))]
    simp [resolve, segmentNames_map_hollow, hs]
  | case2 _ _ _ _ _ _ _ hs hf _ hl =>
    rw [hollow_eq (isNested_of_form (by simp))]
    simp [resolve, segmentNames_map_hollow, hs, hf, hl]
  | case3 _ _ _ _ _ _ _ hs hf hl =>
    rw [hollow_eq (isNested_of_form (by simp))]
    simp [resolve, segmentNames_map_hollow, hs, hf, hl]
  | case4 _ _ _ _ _ _ _ hs hf ih =>
    rw [hollow_eq (isNested_of_form (by simp))]
    simp [resolve, segmentNames_map_hollow, hs, hf, ih]
  | case5 => rfl
  | case6 => rfl
  | case7 _ argument _ _ ih =>
    rw [hollow_eq (isNested_of_name unquote_ne)]
    simp [resolve, ih]
  | case8 _ name _ _ _ other => exact resolve_call rfl other
  | case9 t noReference noSelf noAtom noCall =>
    obtain ⟨form, span, name, children, parens, interpolated⟩ := t
    cases form with
    | aliases =>
      cases children with
      | nil =>
        rw [hollow_eq (isNested_of_form (by simp))]
        rfl
      | cons head more => exact absurd rfl (noReference _ _ _ _ _ _)
    | moduleSelf => exact absurd rfl (noSelf _ _ _ _ _)
    | atom => exact absurd rfl (noAtom _ _ _ _ _)
    | call =>
      by_cases hname : name = text "unquote"
      · subst hname
        rw [hollow_eq (isNested_of_name unquote_ne)]
        cases children with
        | nil => rfl
        | cons argument more =>
          cases more with
          | nil => exact absurd rfl (noCall _ _ _ _ _)
          | cons second more => rfl
      · exact resolve_call rfl hname
    | _ => rfl

theorem shortName_hollow (statement : Bool) (options : Tree) :
    AliasTable.shortName? (options.hollow statement) = AliasTable.shortName? options := by
  unfold AliasTable.shortName?
  by_cases h : options.form = .list
  · rw [form_hollow, if_pos h, if_pos h, children_hollow (isNested_of_form (by simp [h])),
      List.findSome?_map]
    congr 1
    funext pair
    rw [Function.comp_apply, form_hollow]
    by_cases hp : pair.form = .pair
    · rw [children_hollow (isNested_of_form (by simp [hp])), hp]
      match pair.children with
      | [] => rfl
      | [key] => rfl
      | key :: value :: more => simp [literalSegments_hollow]
    · simp [hp]
  · rw [form_hollow, if_neg h, if_neg h]

theorem addEntries_hollow (statement : Bool) (aliases : AliasTable) (base : ModuleName)
    (entries : List Tree) :
    aliases.addEntries base (entries.map (hollow statement)) = aliases.addEntries base entries := by
  simp only [AliasTable.addEntries, List.foldl_map, literalSegments_hollow]

theorem update_hollow (aliases : AliasTable) (current : ModuleName) (target : Tree)
    (options : Option Tree) :
    aliases.update current (target.hollow false) (options.map (hollow false)) =
      aliases.update current target options := by
  have named : (options.map (hollow false)).bind AliasTable.shortName? =
      options.bind AliasTable.shortName? := by
    cases options with
    | none => rfl
    | some t => exact shortName_hollow false t
  unfold AliasTable.update
  rw [form_hollow, named, resolve_hollow]
  by_cases call : target.form = .call
  · simp only [call]
  · rw [children_hollow (isNested_of_form call)]
    cases target.form with
    | multiAlias =>
      cases target.children with
      | nil => rfl
      | cons base entries =>
        simp only [List.map_cons, resolve_hollow, addEntries_hollow]
    | aliases =>
      dsimp only
      rw [List.getLast?_map]
      cases target.children.getLast? with
      | none => rfl
      | some last =>
        cases resolve current aliases target with
        | unknown => rfl
        | erlang atom => rfl
        | elixir head more => simp [ModuleName.isErlang]
    | _ => rfl

/-! ### Definitions -/

/-- The bodies of a definition whose arguments are emptied. -/
theorem bodies_hollow {t u : Tree} {statement : Bool}
    (h : u.children = t.children.map (hollow statement)) :
    bodies u = (bodies t).map (hollow true) := by
  unfold bodies
  rw [h, List.getLast?_map]
  cases t.children.getLast? with
  | none => rfl
  | some last =>
    simp only [Option.map_some, form_hollow]
    split
    · rename_i blockOrList
      have plain : last.isNested = false := isNested_of_form (by intro hf; simp [hf] at blockOrList)
      rw [children_hollow plain, List.filterMap_map, List.map_filterMap]
      congr 1
      funext pair
      rw [Function.comp_apply, form_hollow]
      by_cases hp : pair.form = .pair
      · rw [children_hollow (isNested_of_form (by simp [hp])), hp]
        match pair.children with
        | [] => rfl
        | [_] => rfl
        | [key, body] =>
          simp only [List.map_cons, List.map_nil, form_hollow, Form.holdsStatements]
          split <;> rfl
        | _ :: _ :: _ :: _ => rfl
      · simp [hp]
    · rfl

theorem unguarded_hollow (head : Tree) :
    unguarded (head.hollow false) = (unguarded head).hollow false := by
  fun_induction unguarded head with
  | case1 _ head guard _ _ ih =>
    rw [hollow_eq (isNested_of_form (by simp))]
    simp only [List.map_cons, List.map_nil, unguarded, if_true]
    exact ih
  | case2 _ _ head guard _ _ other =>
    rw [hollow_eq (isNested_of_form (by simp))]
    simp [unguarded, other]
  | case3 t bare =>
    obtain ⟨form, span, name, children, parens, interpolated⟩ := t
    cases form with
    | binaryOp =>
      rw [hollow_eq (isNested_of_form (by simp))]
      match children with
      | [] => rfl
      | [_] => rfl
      | [head, guard] => exact absurd rfl (bare _ _ _ _ _ _)
      | _ :: _ :: _ :: _ => rfl
    | _ => rfl

theorem definedBy_hollow (head : Tree) : definedBy? (head.hollow false) = definedBy? head := by
  unfold definedBy?
  rw [form_hollow, name_hollow, ← own, children_own, List.length_map]

/-! ### Events -/

namespace Event

/-- The event with its references emptied. -/
def hollow : Event → Event
  | .definition f => .definition f
  | .directive kind target options =>
    .directive kind (target.hollow false) (options.map (Tree.hollow false))
  | .sameModuleCall name arity => .sameModuleCall name arity
  | .remoteCall receiver name arity => .remoteCall (receiver.hollow false) name arity

theorem directive_hollow (kind : DirectiveKind) (arguments : List Tree) :
    directive? kind (arguments.map (Tree.hollow false)) =
      (directive? kind arguments).map hollow := by
  cases arguments with
  | nil => rfl
  | cons target more => simp [directive?, hollow, List.head?_map]

theorem inBody_hollow (statement : Bool) (t : Tree) :
    inBody? (t.hollow statement) = (inBody? t).map hollow := by
  unfold inBody?
  rw [form_hollow, name_hollow]
  cases hf : t.form with
  | call =>
    by_cases out : t.name ∈ leftOut
    · simp only [out, if_true]
      rfl
    · have plain : t.isNested = false := isNested_of_name fun h => out (by simp [leftOut, h])
      rw [children_hollow plain, hf, List.length_map]
      simp only [out, if_false]
      cases DirectiveKind.parse? t.name with
      | some kind => exact directive_hollow kind t.children
      | none =>
        dsimp only
        split <;> rfl
  | remoteCall =>
    rw [children_hollow (isNested_of_form (by simp [hf])), hf]
    cases t.children with
    | nil => rfl
    | cons receiver arguments => simp [hollow, Form.holdsStatements]
  | _ => rfl

theorem entersInBody_hollow (statement : Bool) (t : Tree) :
    entersInBody (t.hollow statement) = entersInBody t := by
  unfold entersInBody
  rw [form_hollow, name_hollow]

/-- A node that the walk over a body goes into is no nested module. -/
theorem isNested_of_enters {t : Tree} (h : entersInBody t) : t.isNested = false := by
  by_cases hf : t.form = .call
  · simp only [entersInBody, hf, Bool.and_eq_true, decide_eq_true_eq] at h
    exact isNested_of_name fun hname => h.1 (by simp [leftOut, hname])
  · exact isNested_of_form hf

mutual

theorem ofBody_hollow (statement : Bool) (t : Tree) :
    ofBody (t.hollow statement) = (ofBody t).map hollow := by
  rw [ofBody_eq, ofBody_eq, inBody_hollow, entersInBody_hollow, List.map_append]
  congr 1
  · cases inBody? t <;> rfl
  · by_cases h : entersInBody t
    · rw [if_pos h, if_pos h, children_hollow (isNested_of_enters h)]
      obtain ⟨form, span, name, children, parens, interpolated⟩ := t
      exact flatMap_ofBody_hollow _ children
    · rw [if_neg h, if_neg h]
      rfl

theorem flatMap_ofBody_hollow (statement : Bool) (ts : List Tree) :
    (ts.map (Tree.hollow statement)).flatMap ofBody = (ts.flatMap ofBody).map hollow := by
  cases ts with
  | nil => rfl
  | cons t ts =>
    rw [List.map_cons, List.flatMap_cons, List.flatMap_cons, List.map_append, ofBody_hollow,
      flatMap_ofBody_hollow]

end

theorem ofDefinition_hollow (statement : Bool) {t : Tree} (hf : t.form = .call)
    (hn : t.isNested = false) :
    ofDefinition (t.hollow statement) = (ofDefinition t).map hollow := by
  have children : (t.hollow statement).children = t.children.map (Tree.hollow false) := by
    rw [children_hollow hn, hf]
    rfl
  unfold ofDefinition
  rw [children, List.head?_map, bodies_hollow children]
  cases t.children.head? with
  | none => rfl
  | some head =>
    simp only [Option.map_some, Option.bind_some]
    rw [unguarded_hollow, definedBy_hollow]
    cases definedBy? (unguarded head) with
    | none => rfl
    | some f => simp only [List.map_cons, flatMap_ofBody_hollow, hollow]

theorem atModuleLevel_hollow (statement : Bool) (t : Tree) :
    atModuleLevel (t.hollow statement) = (atModuleLevel t).map hollow := by
  unfold atModuleLevel
  rw [form_hollow, name_hollow]
  cases hf : t.form with
  | call =>
    by_cases hn : t.isNested
    · obtain ⟨-, hname⟩ : t.form = .call ∧ t.name = text "defmodule" := by
        simpa [isNested] using hn
      rw [hname]
      rfl
    · have hn : t.isNested = false := by simpa using hn
      rw [children_hollow hn, hf]
      dsimp only
      split
      · exact ofDefinition_hollow statement hf hn
      · cases DirectiveKind.parse? t.name with
        | none => rfl
        | some kind =>
          simp only [Option.bind_some, Form.holdsStatements, directive_hollow]
          cases directive? kind t.children <;> rfl
  | _ => rfl

mutual

theorem ofModuleLevel_hollow (statement : Bool) (t : Tree) :
    ofModuleLevel (t.hollow statement) = (ofModuleLevel t).map hollow := by
  rw [ofModuleLevel_eq, ofModuleLevel_eq, atModuleLevel_hollow, form_hollow, List.map_append]
  congr 1
  by_cases h : t.form = .block
  · rw [if_pos h, if_pos h, children_hollow (isNested_of_form (by simp [h]))]
    obtain ⟨form, span, name, children, parens, interpolated⟩ := t
    exact flatMap_ofModuleLevel_hollow _ children
  · rw [if_neg h, if_neg h]
    rfl

theorem flatMap_ofModuleLevel_hollow (statement : Bool) (ts : List Tree) :
    (ts.map (Tree.hollow statement)).flatMap ofModuleLevel =
      (ts.flatMap ofModuleLevel).map hollow := by
  cases ts with
  | nil => rfl
  | cons t ts =>
    rw [List.map_cons, List.flatMap_cons, List.flatMap_cons, List.map_append,
      ofModuleLevel_hollow, flatMap_ofModuleLevel_hollow]

end

/-- A module definition and its own part say the same, but for what their references hold. -/
theorem ofModule_own (definition : Tree) :
    ofModule definition.own = (ofModule definition).map hollow := by
  rw [ofModule, bodies_hollow children_own, flatMap_ofModuleLevel_hollow]
  rfl

end Event

namespace Reading

/-- Emptied references are resolved as before. -/
theorem step_hollow (module : ModuleName) (r : Reading) (e : Event) :
    r.step module e.hollow = r.step module e := by
  cases e with
  | definition f => rfl
  | directive kind target options =>
    simp only [Event.hollow, step, resolve_hollow, update_hollow]
  | sameModuleCall name arity => rfl
  | remoteCall receiver name arity => simp only [Event.hollow, step, resolve_hollow]

theorem ofEvents_hollow (module : ModuleName) (events : List Event) :
    ofEvents module (events.map Event.hollow) = ofEvents module events := by
  simp only [ofEvents, List.foldl_map, step_hollow]

end Reading

/-! ### Records -/

/-- Definitions that are read alike have one record. -/
theorem record_ofModule_eq {module : ModuleName} {d d' : Tree}
    (h : Reading.ofEvents module (Event.ofModule d) = Reading.ofEvents module (Event.ofModule d'))
    (file : Bytes) :
    (Survey.ofModule module d).record file = (Survey.ofModule module d').record file := by
  have left := Survey.agrees_ofModule module d
  have right := Survey.agrees_ofModule module d'
  rw [h] at left
  have functions : (Survey.ofModule module d).functions = (Survey.ofModule module d').functions :=
    left.increasing.eq_of_mem_iff right.increasing fun f =>
      (left.mem_functions f).trans (right.mem_functions f).symm
  unfold Survey.record
  rw [left.module, right.module, left.calls, right.calls, left.directives, right.directives,
    functions]

theorem definedName_own (enclosing : ModuleName) (d : Tree) :
    definedName enclosing d.own = definedName enclosing d := by
  unfold definedName
  rw [children_own, List.head?_map]
  cases d.children.head? with
  | none => rfl
  | some name => simp only [Option.map_some, resolve_hollow]

/-- A module definition has the record of its own part. -/
theorem extract_own (file : Bytes) (enclosing : ModuleName) (d : Tree) :
    (extract file enclosing d.own).value = (extract file enclosing d).value := by
  rw [extract_value, extract_value, definedName_own]
  refine record_ofModule_eq ?_ file
  rw [Event.ofModule_own, Reading.ofEvents_hollow]

/-! ### Places of definitions -/

namespace Tree

mutual

/-- The nodes of a tree, each before its children and with the nodes it stands in, the nearest
first. The tree itself stands in `above`. -/
def situated (above : List Tree) : Tree → List (List Tree × Tree)
  | ⟨form, span, name, children, parens, interpolated⟩ =>
    let t : Tree := ⟨form, span, name, children, parens, interpolated⟩
    (above, t) :: situatedAll (t :: above) children

def situatedAll (above : List Tree) : List Tree → List (List Tree × Tree)
  | [] => []
  | t :: ts => situated above t ++ situatedAll above ts

end

mutual

theorem map_snd_situated (above : List Tree) (t : Tree) :
    (t.situated above).map Prod.snd = t.nodes := by
  obtain ⟨form, span, name, children, parens, interpolated⟩ := t
  rw [situated, nodes, List.map_cons, map_snd_situatedAll]

theorem map_snd_situatedAll (above : List Tree) (ts : List Tree) :
    (situatedAll above ts).map Prod.snd = nodesOf ts := by
  cases ts with
  | nil => rfl
  | cons t ts =>
    rw [situatedAll, nodesOf, List.map_append, map_snd_situated, map_snd_situatedAll]

end

end Tree

/-- The name of the nearest module definition in a list of nodes that each stand in the next. -/
def moduleAbove : List Tree → ModuleName
  | [] => .unknown
  | t :: above => if definesModule t then definedName (moduleAbove above) t else moduleAbove above

/-- The module definitions among nodes, each with the name it defines. -/
def definitionsAmong (nodes : List (List Tree × Tree)) : List (ModuleName × Tree) :=
  (nodes.filter (definesModule ·.2)).map fun n => (definedName (moduleAbove n.1) n.2, n.2)

theorem definitionsAmong_append (nodes more : List (List Tree × Tree)) :
    definitionsAmong (nodes ++ more) = definitionsAmong nodes ++ definitionsAmong more := by
  rw [definitionsAmong, List.filter_append, List.map_append]
  rfl

mutual

theorem definitionsIn_eq (above : List Tree) (t : Tree) :
    definitionsIn (moduleAbove above) t = definitionsAmong (t.situated above) := by
  obtain ⟨form, span, name, children, parens, interpolated⟩ := t
  let t : Tree := ⟨form, span, name, children, parens, interpolated⟩
  have inside := definitionsInAll_eq (t :: above) children
  rw [definitionsIn, situated, definitionsAmong]
  by_cases h : definesModule t
  · rw [moduleAbove, if_pos h] at inside
    rw [if_pos h, inside, List.filter_cons, if_pos h]
    rfl
  · rw [moduleAbove, if_neg h] at inside
    rw [if_neg h, inside, List.filter_cons, if_neg h]
    rfl

theorem definitionsInAll_eq (above : List Tree) (ts : List Tree) :
    definitionsInAll (moduleAbove above) ts = definitionsAmong (situatedAll above ts) := by
  cases ts with
  | nil => rfl
  | cons t ts =>
    rw [definitionsInAll, situatedAll, definitionsAmong_append, definitionsIn_eq,
      definitionsInAll_eq]

end

/-- The records of a file are those of its module definitions in the order of its nodes, each made
inside the nearest module around it. -/
theorem records_eq_map (file : Bytes) (root : Tree) :
    (records file root).value =
      ((root.situated []).filter (definesModule ·.2)).map fun n =>
        (extract file (moduleAbove n.1) n.2).value := by
  have found := definitionsIn_eq [] root
  rw [moduleAbove] at found
  rw [records, recordsIn_eq_map, found, definitionsAmong, List.map_map]
  rfl

/-- Modules are kept apart. Definitions that are the same but for the insides of the modules nested
in their statements, at any depth, have the same record, so nothing of a nested module reaches the
module around it. And a file has one record for each node that defines a module, in the order of its
nodes, which is made from the node itself, the file and the name of the nearest module around it. -/
theorem modules_isolated (file : Bytes) :
    (∀ (enclosing : ModuleName) (d d' : Tree), d.own = d'.own →
      (extract file enclosing d).value = (extract file enclosing d').value) ∧
    ∀ root : Tree,
      (root.situated []).map Prod.snd = root.nodes ∧
      (records file root).value =
        ((root.situated []).filter (definesModule ·.2)).map fun n =>
          (extract file (moduleAbove n.1) n.2).value := by
  refine ⟨?_, fun root => ⟨map_snd_situated [] root, records_eq_map file root⟩⟩
  intro enclosing d d' same
  rw [← extract_own file enclosing d, same, extract_own]

/-- A module `Outer` whose function `run` calls `trace`, with a module `Inner` among the statements
of that function, of which `statements` are the body. -/
def hosting (statements : List Tree) : Tree :=
  let node (form : Form) (name : String) (children : List Tree) : Tree :=
    { form, span := default, name := text name, children }
  let body (statements : List Tree) :=
    node .doBlock "" [node .pair "" [node .atom "do" [], node .block "" statements]]
  let reference (name : String) := node .aliases "" [node .aliasSegment name []]
  let inner := node .call "defmodule" [reference "Inner", body statements]
  let run := node .call "def" [node .var "run" [], body [inner, node .call "trace" []]]
  node .call "defmodule" [reference "Outer", body [run]]

/-- Whether the nested module is empty or has an alias and a call, the module around it has the same
record, in which `trace` is called once and no directive stands. -/
theorem hosting_isolated :
    let inside : List Tree :=
      [{ form := .call, span := default, name := text "alias",
         children := [{ form := .atom, span := default, name := text "queue" }] },
       { form := .call, span := default, name := text "trace" }]
    hosting inside ≠ hosting [] ∧
    (hosting inside).own = (hosting []).own ∧
    (extract [] .unknown (hosting inside)).value = (extract [] .unknown (hosting [])).value ∧
    (extract [] .unknown (hosting [])).value.calls.length = 1 ∧
    (extract [] .unknown (hosting [])).value.directives = [] := by
  intro inside
  have differ : (hosting inside).nodes.length ≠ (hosting []).nodes.length := by decide
  refine ⟨fun same => differ (by rw [same]), rfl, ?_, rfl, rfl⟩
  exact (modules_isolated []).1 .unknown (hosting inside) (hosting []) rfl

end CallAtlas
