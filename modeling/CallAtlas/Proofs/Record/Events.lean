import CallAtlas.Record
import CallAtlas.Proofs.Order

/-! # The events of a module

The walk over a module's body gathers aliases, calls and directives while it goes. Here the same
record is made in two phases. The first lists what the walk meets, in the order of a depth-first
walk that sees each node before what it holds, and knows nothing of aliases. The second reads that
list from the left with one alias table: each alias directive changes the table, and each target is
resolved under the table that the events before it have left.

The two agree on every tree. So what an alias reaches is a matter of the order of events alone: it
is in force from its own place up to the end of the module, whatever functions lie between.
-/
namespace CallAtlas

/-! ### Listing -/

namespace Tree

mutual

/-- The nodes that a depth-first walk meets, each before what it holds, if the walk goes into the
nodes that satisfy `enters` only. -/
def met (enters : Tree → Bool) : Tree → List Tree
  | ⟨form, span, name, children, parens, interpolated⟩ =>
    let t : Tree := ⟨form, span, name, children, parens, interpolated⟩
    t :: if enters t then metIn enters children else []

def metIn (enters : Tree → Bool) : List Tree → List Tree
  | [] => []
  | t :: ts => met enters t ++ metIn enters ts

end

theorem metIn_eq_flatMap (enters : Tree → Bool) (ts : List Tree) :
    metIn enters ts = ts.flatMap (met enters) := by
  induction ts with
  | nil => rfl
  | cons t ts ih => rw [metIn, ih, List.flatMap_cons]

theorem met_eq (enters : Tree → Bool) (t : Tree) :
    t.met enters = t :: if enters t then t.children.flatMap (met enters) else [] := by
  cases t
  rw [met, metIn_eq_flatMap]

end Tree

/-- The bodies of a definition are the values of the pairs with an atom as key in its last child, if
that is a `do` block or a list. -/
theorem mem_bodies {t b : Tree} :
    b ∈ bodies t ↔ ∃ front last, t.children = front ++ [last] ∧
      (last.form = .doBlock ∨ last.form = .list) ∧
      ∃ pair ∈ last.children, pair.form = .pair ∧
        ∃ key, pair.children = [key, b] ∧ key.form = .atom := by
  constructor
  · intro h
    unfold bodies at h
    split at h
    · cases h
    rename_i last hlast
    obtain ⟨front, children⟩ := List.getLast?_eq_some_iff.mp hlast
    split at h
    · rename_i holds
      obtain ⟨pair, hpair, hb⟩ := List.mem_filterMap.mp h
      refine ⟨front, last, children, by simpa using holds, pair, hpair, ?_⟩
      split at hb
      · rename_i key body form found
        split at hb
        · rename_i atom
          cases hb
          exact ⟨form, key, found, atom⟩
        · cases hb
      · cases hb
    · cases h
  · rintro ⟨front, last, children, holds, pair, hpair, form, key, found, atom⟩
    have holds : last.form = .doBlock || last.form = .list := by simpa using holds
    rw [bodies, children, List.getLast?_concat]
    dsimp only
    rw [if_pos holds]
    exact List.mem_filterMap.mpr ⟨pair, hpair, by simp [form, found, atom]⟩

/-- What passes from each node to its children holds of the bodies of a definition. -/
theorem forall_mem_bodies {P : Tree → Prop} (down : ∀ t, P t → ∀ c ∈ t.children, P c) {t : Tree}
    (h : P t) : ∀ b ∈ bodies t, P b := by
  intro b hb
  obtain ⟨front, last, children, -, pair, hpair, -, key, found, -⟩ := mem_bodies.mp hb
  have inLast : P last := down t h last (by simp [children])
  exact down pair (down last inLast pair hpair) b (by simp [found])

inductive Event where
  /-- A function is defined; the calls that follow are its own, up to the next definition. -/
  | definition (f : Signature)
  | directive (kind : DirectiveKind) (target : Tree) (options : Option Tree)
  | sameModuleCall (name : Bytes) (arity : UInt32)
  | remoteCall (receiver : Tree) (name : Bytes) (arity : UInt32)

namespace Event

/-- A directive without a target says nothing. -/
def directive? (kind : DirectiveKind) : List Tree → Option Event
  | [] => none
  | target :: more => some (.directive kind target more.head?)

/-- Calls of these names are passed over in the body of a function. -/
def leftOut : List Bytes := [text "defmodule", text "require"]

/-- What a node in the body of a function says by itself. -/
def inBody? (t : Tree) : Option Event :=
  match t.form with
  | .call =>
    if t.name ∈ leftOut then none
    else
      match DirectiveKind.parse? t.name with
      | some kind => directive? kind t.children
      | none =>
        if t.name ∈ definitionWords then none
        else some (.sameModuleCall t.name (UInt32.ofNat t.children.length))
  | .remoteCall =>
    match t.children with
    | [] => none
    | receiver :: arguments =>
      some (.remoteCall receiver t.name (UInt32.ofNat arguments.length))
  | _ => none

def entersInBody (t : Tree) : Bool :=
  match t.form with
  | .var | .aliases => false
  | .call =>
    t.name ∉ leftOut && (DirectiveKind.parse? t.name).isNone
  | _ => true

def ofBody (t : Tree) : List Event := (t.met entersInBody).filterMap inBody?

theorem ofBody_eq (t : Tree) :
    ofBody t =
      (inBody? t).toList ++ if entersInBody t then t.children.flatMap ofBody else [] := by
  have first : [t].filterMap inBody? = (inBody? t).toList := by
    cases h : inBody? t <;> simp [h]
  rw [ofBody, Tree.met_eq, ← List.singleton_append, List.filterMap_append, first]
  split
  · rw [List.filterMap_flatMap]
    rfl
  · rfl

/-- The events of the definition of a function; there are none if its name is computed. -/
def ofDefinition (t : Tree) : List Event :=
  match t.children.head?.bind fun head => definedBy? (unguarded head) with
  | none => []
  | some f => .definition f :: (bodies t).flatMap ofBody

def atModuleLevel (t : Tree) : List Event :=
  match t.form with
  | .call =>
    if t.name ∈ definitionWords then ofDefinition t
    else ((DirectiveKind.parse? t.name).bind (directive? · t.children)).toList
  | _ => []

def ofModuleLevel (t : Tree) : List Event := (t.met (·.form = .block)).flatMap atModuleLevel

theorem ofModuleLevel_eq (t : Tree) :
    ofModuleLevel t =
      atModuleLevel t ++ if t.form = .block then t.children.flatMap ofModuleLevel else [] := by
  rw [ofModuleLevel, Tree.met_eq, List.flatMap_cons]
  simp only [decide_eq_true_eq]
  split
  · rw [List.flatMap_assoc]
    rfl
  · rfl

def ofModule (definition : Tree) : List Event := (bodies definition).flatMap ofModuleLevel

end Event

/-! ### Reading -/

structure Reading where
  aliases : AliasTable := []
  /-- The function whose definition was read last. -/
  enclosing : Option Signature := none
  functions : List Signature := []
  calls : List Call := []
  directives : List Directive := []

namespace Reading

def call (module : ModuleName) (r : Reading) (kind : CallKind) (callee : FunctionName) : Reading :=
  { r with calls :=
      r.calls ++ (r.enclosing.map fun f => ⟨kind, ⟨module, f.name, f.arity⟩, callee⟩).toList }

def step (module : ModuleName) (r : Reading) : Event → Reading
  | .definition f => { r with enclosing := some f, functions := r.functions ++ [f] }
  | .directive kind target options =>
    { r with
      directives := r.directives ++ [⟨kind, resolve module r.aliases target⟩]
      aliases := if kind = .alias then r.aliases.update module target options else r.aliases }
  | .sameModuleCall name arity => r.call module .sameModule ⟨module, name, arity⟩
  | .remoteCall receiver name arity =>
    r.call module .remote ⟨resolve module r.aliases receiver, name, arity⟩

def ofEvents (module : ModuleName) (events : List Event) : Reading :=
  events.foldl (step module) {}

/-- What has been read stays, whatever is read behind it. -/
theorem isPrefix_step (module : ModuleName) (r : Reading) (e : Event) :
    r.calls <+: (r.step module e).calls ∧ r.directives <+: (r.step module e).directives := by
  cases e with
  | definition f => exact ⟨List.prefix_rfl, List.prefix_rfl⟩
  | directive kind target options => exact ⟨List.prefix_rfl, List.prefix_append _ _⟩
  | sameModuleCall name arity => exact ⟨List.prefix_append _ _, List.prefix_rfl⟩
  | remoteCall receiver name arity => exact ⟨List.prefix_append _ _, List.prefix_rfl⟩

theorem isPrefix_foldl (module : ModuleName) (r : Reading) (events : List Event) :
    r.calls <+: (events.foldl (step module) r).calls ∧
      r.directives <+: (events.foldl (step module) r).directives := by
  induction events generalizing r with
  | nil => exact ⟨List.prefix_rfl, List.prefix_rfl⟩
  | cons e events ih =>
    have first := isPrefix_step module r e
    have more := ih (r.step module e)
    exact ⟨first.1.trans more.1, first.2.trans more.2⟩

/-- Reading a list up to some place gives the first calls and directives of the whole list. -/
theorem isPrefix_ofEvents (module : ModuleName) (events : List Event) (n : Nat) :
    (ofEvents module (events.take n)).calls <+: (ofEvents module events).calls ∧
      (ofEvents module (events.take n)).directives <+: (ofEvents module events).directives := by
  have parts : ofEvents module events =
      (events.drop n).foldl (step module) (ofEvents module (events.take n)) := by
    rw [ofEvents, ofEvents, ← List.foldl_append, List.take_append_drop]
  rw [parts]
  exact isPrefix_foldl module _ _

end Reading

/-! ### The walk reads the events -/

/-- A survey has gathered what a reading has read. -/
structure Survey.Agrees (module : ModuleName) (s : Survey) (r : Reading) : Prop where
  module : s.module = module
  aliases : s.aliases = r.aliases
  increasing : Ordered.Increasing Signature.order s.functions
  mem_functions : ∀ f, f ∈ s.functions ↔ f ∈ r.functions
  calls : s.calls.reverse = r.calls
  directives : s.directives.reverse = r.directives

/-- The same, inside the definition of the function `f`. -/
structure Survey.AgreesIn (module : ModuleName) (f : Signature) (s : Survey) (r : Reading) : Prop
    extends Survey.Agrees module s r where
  enclosing : r.enclosing = some f

namespace Survey

variable {module : ModuleName} {f : Signature} {s : Survey} {r : Reading}

theorem Agrees.directive (h : Agrees module s r) (kind : DirectiveKind) (arguments : List Tree) :
    Agrees module (s.directive kind arguments)
      ((Event.directive? kind arguments).toList.foldl (Reading.step module) r) := by
  cases arguments with
  | nil => exact h
  | cons target more =>
    refine { h with aliases := ?_, directives := ?_ }
    · simp [Survey.directive, Event.directive?, Reading.step, h.module, h.aliases]
    · simp [Survey.directive, Event.directive?, Reading.step, h.module, h.aliases, h.directives]

theorem AgreesIn.directive (h : AgreesIn module f s r) (kind : DirectiveKind)
    (arguments : List Tree) :
    AgreesIn module f (s.directive kind arguments)
      ((Event.directive? kind arguments).toList.foldl (Reading.step module) r) := by
  refine { h.toAgrees.directive kind arguments with enclosing := ?_ }
  cases arguments with
  | nil => exact h.enclosing
  | cons target more => exact h.enclosing

theorem AgreesIn.call (h : AgreesIn module f s r) (kind : CallKind) (callee : FunctionName) :
    AgreesIn module f (s.call ⟨kind, ⟨module, f.name, f.arity⟩, callee⟩)
      (r.call module kind callee) := by
  refine { h with calls := ?_ }
  simp [Survey.call, Reading.call, h.enclosing, h.calls]

/-- One node of a function's body: the survey takes up what the node says, and goes into it if the
walk does. -/
theorem AgreesIn.visit (h : AgreesIn module f s r) (t : Tree) :
    AgreesIn module f (s.visit ⟨module, f.name, f.arity⟩ t).1
        ((Event.inBody? t).toList.foldl (Reading.step module) r) ∧
      (s.visit ⟨module, f.name, f.arity⟩ t).2 = Event.entersInBody t := by
  obtain ⟨form, span, name, children, parens, interpolated⟩ := t
  cases form with
  | call =>
    simp only [Survey.visit, Event.inBody?, Event.entersInBody]
    have out : (name = text "defmodule" || name = text "require") =
        decide (name ∈ Event.leftOut) := by
      simp [Event.leftOut]
    rw [out]
    by_cases hout : name ∈ Event.leftOut
    · simp only [hout, decide_true, if_true]
      exact ⟨h, rfl⟩
    · simp only [hout, decide_false, Bool.false_eq_true, if_false]
      cases hkind : DirectiveKind.parse? name with
      | some kind => exact ⟨h.directive kind children, rfl⟩
      | none =>
        by_cases hword : name ∈ definitionWords
        · simp only [List.contains_eq_mem, hword, decide_true, if_true]
          exact ⟨h, rfl⟩
        · simp only [List.contains_eq_mem, hword, decide_false, Bool.false_eq_true, if_false]
          refine ⟨?_, rfl⟩
          have := h.call .sameModule ⟨module, name, UInt32.ofNat children.length⟩
          simpa [Reading.step, h.module] using this
  | remoteCall =>
    cases children with
    | nil => exact ⟨h, rfl⟩
    | cons receiver arguments =>
      refine ⟨?_, rfl⟩
      have := h.call .remote
        ⟨resolve module s.aliases receiver, name, UInt32.ofNat arguments.length⟩
      simpa [Survey.visit, Event.inBody?, Reading.step, h.module, ← h.aliases] using this
  | _ => exact ⟨h, rfl⟩

mutual

theorem AgreesIn.body {s : Survey} {r : Reading} (h : AgreesIn module f s r) (t : Tree) :
    AgreesIn module f (Survey.body ⟨module, f.name, f.arity⟩ t s)
      ((Event.ofBody t).foldl (Reading.step module) r) := by
  obtain ⟨form, span, name, children, parens, interpolated⟩ := t
  obtain ⟨here, enters⟩ := h.visit ⟨form, span, name, children, parens, interpolated⟩
  simp only [Survey.body, Event.ofBody_eq, enters, List.foldl_append]
  split
  · exact here.bodyOf children
  · exact here

theorem AgreesIn.bodyOf {s : Survey} {r : Reading} (h : AgreesIn module f s r) (ts : List Tree) :
    AgreesIn module f (Survey.bodyOf ⟨module, f.name, f.arity⟩ ts s)
      ((ts.flatMap Event.ofBody).foldl (Reading.step module) r) := by
  cases ts with
  | nil => exact h
  | cons t ts =>
    rw [Survey.bodyOf, List.flatMap_cons, List.foldl_append]
    exact (h.body t).bodyOf ts

end

theorem Agrees.definition (h : Agrees module s r) (t : Tree) :
    Agrees module (s.definition t) ((Event.ofDefinition t).foldl (Reading.step module) r) := by
  obtain rfl := h.module
  unfold Survey.definition Event.ofDefinition
  cases t.children with
  | nil => exact h
  | cons head more =>
    simp only [List.head?_cons, Option.bind_some]
    cases definedBy? (unguarded head) with
    | none => exact { h with }
    | some f =>
      have start : AgreesIn s.module f
          { s with functions := Ordered.insert Signature.order f s.functions }
          (r.step s.module (.definition f)) := by
        refine { h with increasing := h.increasing.insert f, mem_functions := ?_, enclosing := rfl }
        intro g
        rw [Ordered.mem_insert (fun _ _ => Signature.eq_of_order), h.mem_functions]
        simp [Reading.step, or_comm]
      exact (start.bodyOf (bodies t)).toAgrees

mutual

theorem Agrees.moduleLevel {s : Survey} {r : Reading} (h : Agrees module s r) (t : Tree) :
    Agrees module (Survey.moduleLevel t s)
      ((Event.ofModuleLevel t).foldl (Reading.step module) r) := by
  obtain ⟨form, span, name, children, parens, interpolated⟩ := t
  rw [Event.ofModuleLevel_eq, List.foldl_append]
  cases form with
  | block => exact h.moduleLevelOf children
  | call =>
    simp only [Survey.moduleLevel, Event.atModuleLevel, List.contains_eq_mem, decide_eq_true_eq,
      reduceCtorEq, if_false, List.foldl_nil]
    split
    · exact h.definition _
    · cases DirectiveKind.parse? name with
      | none => exact h
      | some kind => exact h.directive kind children
  | _ => exact h

theorem Agrees.moduleLevelOf {s : Survey} {r : Reading} (h : Agrees module s r)
    (ts : List Tree) :
    Agrees module (Survey.moduleLevelOf ts s)
      ((ts.flatMap Event.ofModuleLevel).foldl (Reading.step module) r) := by
  cases ts with
  | nil => exact h
  | cons t ts =>
    rw [Survey.moduleLevelOf, List.flatMap_cons, List.foldl_append]
    exact (h.moduleLevel t).moduleLevelOf ts

end

end Survey

/-! ### The record of a module -/

def Survey.ofModule (module : ModuleName) (definition : Tree) : Survey :=
  Survey.moduleLevelOf (bodies definition) { module }

theorem Survey.agrees_ofModule (module : ModuleName) (definition : Tree) :
    Survey.Agrees module (Survey.ofModule module definition)
      (Reading.ofEvents module (Event.ofModule definition)) := by
  have start : Survey.Agrees module { module } {} :=
    ⟨rfl, rfl, List.Pairwise.nil, by simp, rfl, rfl⟩
  exact start.moduleLevelOf (bodies definition)

/-- The record of a module definition is what the survey of its body has gathered, and that is what
reading the events of the body from the left gives: the aliases at the end, the directives and the
calls in order, and the set of functions, which the record lists in increasing order. Moreover what
is read up to any place of the events stays as it is, so an event bears on nothing before it. -/
theorem extract_reads_events (file : Bytes) (enclosing : ModuleName) (definition : Tree) :
    let record := (extract file enclosing definition).value
    let survey := Survey.ofModule record.name definition
    let events := Event.ofModule definition
    let reading := Reading.ofEvents record.name events
    record.name = (definition.children.head?.map (resolve enclosing [])).getD .unknown ∧
    record = survey.record file ∧
    survey.aliases = reading.aliases ∧
    record.directives = reading.directives ∧
    record.calls = reading.calls ∧
    Ordered.Increasing Signature.order record.functions ∧
    (∀ f, f ∈ record.functions ↔ f ∈ reading.functions) ∧
    ∀ n, (Reading.ofEvents record.name (events.take n)).calls <+: record.calls ∧
      (Reading.ofEvents record.name (events.take n)).directives <+: record.directives := by
  intro record survey events reading
  let name := (definition.children.head?.map (resolve enclosing [])).getD .unknown
  have agrees := Survey.agrees_ofModule name definition
  have named : record.name = name := agrees.module
  have same : survey = Survey.ofModule name definition := congrArg (Survey.ofModule · _) named
  have read : reading = Reading.ofEvents name events := congrArg (Reading.ofEvents · _) named
  have made : record = survey.record file := by rw [same]; rfl
  have calls : record.calls = reading.calls := by rw [read, ← agrees.calls]; rfl
  have directives : record.directives = reading.directives := by
    rw [read, ← agrees.directives]; rfl
  refine ⟨named, made, ?_, directives, calls, agrees.increasing, ?_, ?_⟩
  · rw [same, read]
    exact agrees.aliases
  · rw [read]
    exact agrees.mem_functions
  · intro n
    rw [calls, directives]
    exact Reading.isPrefix_ofEvents record.name events n

end CallAtlas
