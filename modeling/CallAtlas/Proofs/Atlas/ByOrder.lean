import CallAtlas.Proofs.Atlas.Contents
import Mathlib.Data.List.Basic

/-! # Atlases made by order alone

An atlas lists an edge once, and to that end compares it with all that is listed already. A search
tree can remember instead what has been listed. It never asks whether two elements are equal, but
which of them comes first, and takes for one what comes neither before nor after. Here an atlas is
made with such trees, and so is the part between its modules. Both are what they were, since the
orders are total and only equal names, functions and edges compare as equal.

The functions of an atlas are the elements of such a tree. So they are in the one order that there
is, whatever the order of the records they come from.
-/
namespace CallAtlas

open Std

/-! ### Edges in order -/

namespace EdgeKind

/-- Calls come first, then aliases, imports and uses. -/
def rank : EdgeKind → Nat
  | .call => 0
  | .directive .alias => 1
  | .directive .import => 2
  | .directive .use => 3

theorem rank_injective : rank.Injective := by
  rintro (_ | _ | _ | _) (_ | _ | _ | _) h <;> simp_all [rank]

end EdgeKind

namespace ModuleEdge

/-- By source, then by target, then by kind. -/
def order (a b : ModuleEdge) : Ordering :=
  (a.source.order b.source).then
    ((a.target.order b.target).then (compare a.kind.rank b.kind.rank))

instance : TransCmp order :=
  have := transCmp_pullback ModuleName.order source
  have := transCmp_pullback ModuleName.order target
  have := transCmp_pullback (compare : Nat → Nat → Ordering) fun e : ModuleEdge => e.kind.rank
  inferInstanceAs (TransCmp (compareLex _ (compareLex _ _)))

theorem eq_of_order {a b : ModuleEdge} (h : a.order b = .eq) : a = b := by
  obtain ⟨source, rest⟩ := Ordering.then_eq_eq.mp h
  have source : a.source = b.source := LawfulEqCmp.eq_of_compare source
  have rest : a.target = b.target ∧ a.kind.rank = b.kind.rank := eq_and_eq_of_then rest
  have kind : a.kind = b.kind := EdgeKind.rank_injective rest.2
  cases a
  cases b
  simp_all

instance : LawfulEqCmp order where
  compare_self := ReflCmp.compare_self
  eq_of_compare := eq_of_order

end ModuleEdge

namespace ModuleCall

/-- By caller and then by callee. -/
def order (a b : ModuleCall) : Ordering :=
  (a.caller.order b.caller).then (a.callee.order b.callee)

instance : TransCmp order :=
  have := transCmp_pullback ModuleName.order caller
  have := transCmp_pullback ModuleName.order callee
  inferInstanceAs (TransCmp (compareLex _ _))

theorem eq_of_order {a b : ModuleCall} (h : a.order b = .eq) : a = b := by
  have parts : a.caller = b.caller ∧ a.callee = b.callee := eq_and_eq_of_then h
  cases a
  cases b
  simp_all

instance : LawfulEqCmp order where
  compare_self := ReflCmp.compare_self
  eq_of_compare := eq_of_order

end ModuleCall

/-! ### Gathering -/

/-- A set that knows its elements by their order. -/
abbrev OrderedSet {α : Type} (order : α → α → Ordering) := TreeSet α order

/-- An atlas in the making, with sets of what is listed in it once. -/
structure Gathering where
  modules : List ModuleNode := []
  moduleEdges : List ModuleEdge := []
  calls : List Call := []
  moduleCalls : List ModuleCall := []
  seenEdges : OrderedSet ModuleEdge.order := ∅
  functions : OrderedSet FunctionName.order := ∅
  seenCalls : OrderedSet ModuleCall.order := ∅

namespace Gathering

def addModuleEdge (g : Gathering) (e : ModuleEdge) : Gathering :=
  if e.target.isUnknown || e.target = e.source || g.seenEdges.contains e then g
  else
    { g with
      moduleEdges := g.moduleEdges ++ [e]
      seenEdges := g.seenEdges.insert e }

def addFunction (g : Gathering) (f : FunctionName) : Gathering :=
  { g with functions := g.functions.insert f }

def addModuleCall (g : Gathering) (c : ModuleCall) : Gathering :=
  if g.seenCalls.contains c then g
  else
    { g with
      moduleCalls := g.moduleCalls ++ [c]
      seenCalls := g.seenCalls.insert c }

/-- Adds the call between modules that a call of the module `name` suggests, unless it stays there or
leads where an earlier call of the same record led. Those targets are kept beside. -/
def addTarget (name : ModuleName) (s : Gathering × OrderedSet ModuleName.order)
    (target : ModuleName) : Gathering × OrderedSet ModuleName.order :=
  if target = name || s.2.contains target then s
  else (s.1.addModuleCall ⟨name, target⟩, s.2.insert target)

def addRecord (g : Gathering) (r : Record) : Gathering :=
  let g := { g with modules := g.modules ++ [r.node] }
  let g := r.calls.foldl (fun g c => g.addModuleEdge (r.callEdge c)) g
  let g := r.directives.foldl (fun g d => g.addModuleEdge (r.directiveEdge d)) g
  let g := r.functions.foldl (fun g f => g.addFunction (r.function f)) g
  let g := (r.calls.foldl (fun s c => addTarget r.name s c.callee.module) (g, ∅)).1
  { g with calls := g.calls ++ r.calls }

def ofRecords (records : List Record) : Gathering := records.foldl addRecord {}

/-- The atlas that is gathered. Its functions come out of their set in order. -/
def atlas (g : Gathering) : Atlas where
  modules := g.modules
  moduleEdges := g.moduleEdges
  functions := g.functions.toList
  calls := g.calls
  moduleCalls := g.moduleCalls

end Gathering

/-- The part of an atlas between its own modules, found with a set of their names and one of the
functions at the ends of calls. -/
def Atlas.internalByOrder (a : Atlas) : Atlas :=
  let known : OrderedSet ModuleName.order := .ofList (a.modules.map (·.name)) _
  let calls := a.calls.filter fun c =>
    known.contains c.caller.module && known.contains c.callee.module
  let ends : OrderedSet FunctionName.order :=
    calls.foldl (fun s c => (s.insert c.caller).insert c.callee) ∅
  { modules := a.modules
    moduleEdges := a.moduleEdges.filter fun e => known.contains e.source && known.contains e.target
    functions := a.functions.filter fun f => ends.contains f
    calls
    moduleCalls := a.moduleCalls.filter fun c =>
      known.contains c.caller && known.contains c.callee }

/-! ### Sets and lists -/

section Mirrors

variable {α : Type} {order : α → α → Ordering} {s : OrderedSet order} {l : List α}

/-- A set has the elements that are listed. -/
def Mirrors (s : OrderedSet order) (l : List α) : Prop := ∀ x, x ∈ s ↔ x ∈ l

theorem mirrors_empty : Mirrors (∅ : OrderedSet order) [] := by
  intro x
  simp

/-- To look an element up by its order is to look for an equal one. -/
theorem Mirrors.contains [BEq α] [LawfulBEq α] (h : Mirrors s l) (x : α) :
    s.contains x = l.contains x := by
  rw [Bool.eq_iff_iff, TreeSet.contains_iff_mem, List.contains_iff_mem]
  exact h x

theorem Mirrors.concat [TransCmp order] [LawfulEqCmp order] (h : Mirrors s l) (a : α) :
    Mirrors (s.insert a) (l ++ [a]) := by
  intro x
  rw [TreeSet.mem_insert, LawfulEqCmp.compare_eq_iff_eq, h x, List.mem_append,
    List.mem_singleton, or_comm, eq_comm]

end Mirrors

/-! ### The same atlas -/

/-- A call that leaves its module is listed afterwards, whether it was listed before or not. -/
theorem Atlas.mem_addModuleCall {a : Atlas} {c x : ModuleCall} (leaves : c.callee ≠ c.caller) :
    x ∈ (a.addModuleCall c).moduleCalls ↔ x ∈ a.moduleCalls ∨ x = c := by
  unfold addModuleCall
  rw [decide_eq_false leaves, Bool.false_or]
  split_ifs with old
  · have old := List.contains_iff_mem.mp old
    constructor
    · exact .inl
    · rintro (h | rfl)
      · exact h
      · exact old
  · simp

namespace Gathering

/-- What is gathered is what an atlas lists, and the sets hold just that. -/
structure Agrees (g : Gathering) (a : Atlas) : Prop where
  modules : g.modules = a.modules
  moduleEdges : g.moduleEdges = a.moduleEdges
  calls : g.calls = a.calls
  moduleCalls : g.moduleCalls = a.moduleCalls
  seenEdges : Mirrors g.seenEdges a.moduleEdges
  functions : Mirrors g.functions a.functions
  seenCalls : Mirrors g.seenCalls a.moduleCalls

namespace Agrees

variable {g : Gathering} {a : Atlas}

theorem addModuleEdge (h : Agrees g a) (e : ModuleEdge) :
    Agrees (g.addModuleEdge e) (a.addModuleEdge e) := by
  unfold Gathering.addModuleEdge Atlas.addModuleEdge
  rw [h.seenEdges.contains]
  split_ifs
  · exact h
  · exact { h with
      moduleEdges := by rw [h.moduleEdges]
      seenEdges := h.seenEdges.concat e }

theorem addFunction (h : Agrees g a) (f : FunctionName) :
    Agrees (g.addFunction f) (a.addFunction f) := by
  refine { h with functions := fun x => ?_ }
  have listed := h.functions.concat f x
  rw [Gathering.addFunction, listed, Atlas.addFunction,
    Ordered.mem_insert fun _ _ => FunctionName.eq_of_order, List.mem_append, List.mem_singleton,
    or_comm]

theorem addModuleCall (h : Agrees g a) {c : ModuleCall} (leaves : c.callee ≠ c.caller) :
    Agrees (g.addModuleCall c) (a.addModuleCall c) := by
  unfold Gathering.addModuleCall Atlas.addModuleCall
  rw [h.seenCalls.contains, decide_eq_false leaves, Bool.false_or]
  split_ifs
  · exact h
  · exact { h with
      moduleCalls := by rw [h.moduleCalls]
      seenCalls := h.seenCalls.concat c }

/-- The targets that are kept beside decide nothing, since a call to one of them is listed. -/
theorem addTarget {s : Gathering × OrderedSet ModuleName.order} {name : ModuleName}
    (h : Agrees s.1 a ∧ ∀ t ∈ s.2, ⟨name, t⟩ ∈ a.moduleCalls) (target : ModuleName) :
    Agrees (Gathering.addTarget name s target).1 (a.addModuleCall ⟨name, target⟩) ∧
      ∀ t ∈ (Gathering.addTarget name s target).2,
        ⟨name, t⟩ ∈ (a.addModuleCall ⟨name, target⟩).moduleCalls := by
  obtain ⟨agrees, listed⟩ := h
  by_cases skipped : target = name ∨ target ∈ s.2
  · -- the atlas has no set of targets, but it finds the call among those it has listed
    have same : a.addModuleCall ⟨name, target⟩ = a := by
      rw [Atlas.addModuleCall, if_pos]
      rcases skipped with stays | met
      · simp [stays]
      · simp [listed target met]
    have skips : Gathering.addTarget name s target = s := by
      simp [Gathering.addTarget, skipped]
    rw [same, skips]
    exact ⟨agrees, listed⟩
  · obtain ⟨leaves, new⟩ := not_or.mp skipped
    have adds : Gathering.addTarget name s target =
        (s.1.addModuleCall ⟨name, target⟩, s.2.insert target) := by
      simp [Gathering.addTarget, leaves, new]
    rw [adds]
    refine ⟨agrees.addModuleCall leaves, fun t ht => (Atlas.mem_addModuleCall leaves).mpr ?_⟩
    rw [TreeSet.mem_insert, LawfulEqCmp.compare_eq_iff_eq] at ht
    rcases ht with rfl | old
    · exact .inr rfl
    · exact .inl (listed t old)

theorem addRecord (h : Agrees g a) (r : Record) : Agrees (g.addRecord r) (a.addRecord r) := by
  have h₁ : Agrees { g with modules := g.modules ++ [r.node] }
      { a with modules := a.modules ++ [r.node] } :=
    { h with modules := by rw [h.modules] }
  have h₂ := List.foldl_rel (l := r.calls) h₁
    fun c _ _ _ h => h.addModuleEdge (r.callEdge c)
  have h₃ := List.foldl_rel (l := r.directives) h₂
    fun d _ _ _ h => h.addModuleEdge (r.directiveEdge d)
  have h₄ := List.foldl_rel (l := r.functions) h₃
    fun f _ _ _ h => h.addFunction (r.function f)
  have h₅ := List.foldl_rel (l := r.calls)
    (r := fun s a => Agrees s.1 a ∧ ∀ t ∈ s.2, ⟨r.name, t⟩ ∈ a.moduleCalls)
    (a := (_, ∅)) ⟨h₄, by simp⟩ fun c _ _ _ h => addTarget h c.callee.module
  exact { h₅.1 with calls := congrArg (· ++ r.calls) h₅.1.calls }

end Agrees

theorem agrees_ofRecords (records : List Record) :
    Agrees (ofRecords records) (Atlas.ofRecords records) := by
  refine List.foldl_rel ?_ fun r _ _ _ h => h.addRecord r
  exact ⟨rfl, rfl, rfl, rfl, mirrors_empty, mirrors_empty, mirrors_empty⟩

/-- The set of functions and their list are in the same order, so they are the same list. -/
theorem atlas_ofRecords (records : List Record) :
    (ofRecords records).atlas = Atlas.ofRecords records := by
  have h := agrees_ofRecords records
  have functions : (ofRecords records).functions.toList = (Atlas.ofRecords records).functions := by
    refine Ordered.Increasing.eq_of_mem_iff TreeSet.ordered_toList
      (Atlas.reflects_ofRecords records).increasing fun f => ?_
    rw [TreeSet.mem_toList]
    exact h.functions f
  rw [atlas, h.modules, h.moduleEdges, functions, h.calls, h.moduleCalls]

end Gathering

namespace Atlas

/-! ### The same part between modules -/

theorem contains_names (a : Atlas) (name : ModuleName) :
    (TreeSet.ofList (a.modules.map (·.name)) ModuleName.order).contains name = a.defines name := by
  rw [TreeSet.contains_ofList, Bool.eq_iff_iff]
  simp [defines]

theorem mirrors_ends (calls : List Call) :
    Mirrors
      (calls.foldl (fun s c => (s.insert c.caller).insert c.callee)
        (∅ : OrderedSet FunctionName.order))
      (calls.flatMap fun c => [c.caller, c.callee]) := by
  refine foldl_keeps
    (fun done s => Mirrors s (done.flatMap fun c => [c.caller, c.callee])) ?_ mirrors_empty calls
  intro done s c h
  simpa using (h.concat c.caller).concat c.callee

theorem internalByOrder_eq (a : Atlas) : a.internalByOrder = a.internal := by
  have touched (calls : List Call) (f : FunctionName) :
      (calls.flatMap fun c => [c.caller, c.callee]).contains f =
        calls.any fun c => c.caller = f || c.callee = f := by
    rw [Bool.eq_iff_iff]
    simp [eq_comm (a := f)]
  unfold internalByOrder internal
  simp only [contains_names, (mirrors_ends _).contains, touched]

/-! ### Functions in order -/

theorem increasing_survey (internalOnly : Bool) (records : List Record) :
    Ordered.Increasing FunctionName.order (survey internalOnly records).value.functions := by
  have whole := (reflects_ofRecords records).increasing
  cases internalOnly with
  | false => exact whole
  | true => exact whole.filter _

theorem functions_ofRecords_perm {records others : List Record} (h : records.Perm others) :
    (ofRecords records).functions = (ofRecords others).functions := by
  have here := reflects_ofRecords records
  have there := reflects_ofRecords others
  refine here.increasing.eq_of_mem_iff there.increasing fun f => ?_
  rw [here.mem_functions, there.mem_functions]
  exact (h.flatMap_right _).mem_iff

/-- The functions of the part between the modules depend on the functions in their order, and on the
modules and calls in any. -/
theorem functions_internal_congr {a b : Atlas} (functions : a.functions = b.functions)
    (modules : a.modules.Perm b.modules) (calls : a.calls.Perm b.calls) :
    a.internal.functions = b.internal.functions := by
  have defined (name : ModuleName) : a.defines name = b.defines name := modules.any_eq
  simp only [internal, functions, defined]
  exact List.filter_congr fun f _ => (calls.filter _).any_eq

theorem functions_survey_perm (internalOnly : Bool) {records others : List Record}
    (h : records.Perm others) :
    (survey internalOnly records).value.functions =
      (survey internalOnly others).value.functions := by
  have functions := functions_ofRecords_perm h
  cases internalOnly with
  | false => exact functions
  | true =>
    have here := reflects_ofRecords records
    have there := reflects_ofRecords others
    have modules : (ofRecords records).modules.Perm (ofRecords others).modules := by
      rw [here.modules, there.modules]
      exact h.map _
    have calls : (ofRecords records).calls.Perm (ofRecords others).calls := by
      rw [here.calls, there.calls]
      exact h.flatMap_right _
    exact functions_internal_congr functions modules calls

/-- The orders of module names and of functions are strict and total, and tell all that differ apart.
The unknown name comes first, and a name comes before every longer one that starts with its
segments, so also before the one that further segments make of it. Therefore an atlas, and the part
between its modules, can be made with sets that know their elements by these orders alone. The
functions of a survey increase strictly, and do not depend on the order of the records. -/
theorem surveyed_by_order :
    Ordered.StrictTotal ModuleName.order ∧
    Ordered.StrictTotal FunctionName.order ∧
    (∀ n : ModuleName, n ≠ .unknown → ModuleName.unknown.order n = .lt) ∧
    (∀ (n longer : ModuleName) (more : List Bytes), more ≠ [] →
      longer.segments = n.segments ++ more → n.order longer = .lt) ∧
    (∀ (n : ModuleName) (more : List Bytes), more ≠ [] → n.concat more ≠ .unknown →
      n.order (n.concat more) = .lt) ∧
    (∀ records, (build records).value = (Gathering.ofRecords records).atlas) ∧
    (∀ a : Atlas, a.restrict.value = a.internalByOrder) ∧
    ∀ internalOnly records,
      Ordered.Increasing FunctionName.order (survey internalOnly records).value.functions ∧
      ∀ others, records.Perm others →
        (survey internalOnly records).value.functions =
          (survey internalOnly others).value.functions := by
  refine ⟨Ordered.strictTotal _, Ordered.strictTotal _, ?_, ?_, ?_, ?_, ?_, ?_⟩
  · exact fun n => ModuleName.unknown_order
  · exact fun n longer more => ModuleName.order_of_segments
  · exact fun n more => ModuleName.order_concat
  · exact fun records => (Gathering.atlas_ofRecords records).symm
  · exact fun a => a.internalByOrder_eq.symm
  · exact fun internalOnly records =>
      ⟨increasing_survey internalOnly records, fun _ => functions_survey_perm internalOnly⟩

/-- A record of `B`, which calls a function of `A`, and after it the record of `A`. -/
def unsortedRecords : List Record :=
  let f : FunctionName := ⟨.elixir (text "A") [], text "f", 1⟩
  let g : FunctionName := ⟨.elixir (text "B") [], text "g", 0⟩
  [{ name := g.module, functions := [g.signature], calls := [⟨.remote, g, f⟩] },
    { name := f.module, functions := [f.signature] }]

/-- Both functions are listed, whichever record is first. The name `A` comes before `A.B`, and so does
the atom `:A`. -/
theorem unsortedRecords_surveyed :
    let a : ModuleName := .elixir (text "A") []
    let atom : ModuleName := .erlang (text "A")
    ModuleName.unknown.order atom = .lt ∧
    atom.order (.elixir (text "A") [text "B"]) = .lt ∧
    a.order (a.concat [text "B"]) = .lt ∧
    unsortedRecords.Perm unsortedRecords.reverse ∧
    (survey true unsortedRecords).value.functions =
      (survey true unsortedRecords.reverse).value.functions ∧
    (survey true unsortedRecords).value.functions.length = 2 := by
  obtain ⟨-, -, unknown, segments, further, -, -, functions⟩ := surveyed_by_order
  have swapped : unsortedRecords.Perm unsortedRecords.reverse := (List.reverse_perm _).symm
  refine ⟨unknown _ (by decide), segments _ _ [text "B"] (by decide) rfl,
    further _ _ (by decide) (by decide), swapped, ?_, by decide⟩
  exact (functions true unsortedRecords).2 _ swapped

end Atlas
end CallAtlas
