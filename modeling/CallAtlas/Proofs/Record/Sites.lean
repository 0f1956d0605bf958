import CallAtlas.Proofs.Except
import CallAtlas.Proofs.Record.Checked
import CallAtlas.Proofs.Record.Places
import Mathlib.Data.List.Flatten

/-! # Call sites

The calls that the functions of a module make can be read off its tree: they are the nodes that are
calls, wherever they stand in the body of a function, unless a directive or a nested module holds
them. Here the walk is held against that list. It notes one call for each entry, in order, except
for those inside a module reference, into which it does not go.
-/
namespace CallAtlas

/-- What a call says without its aliases: who calls, and by which name with how many arguments. -/
structure Site where
  kind : CallKind
  caller : FunctionName
  name : Bytes
  arity : UInt32
  deriving DecidableEq, Repr

def Call.site (c : Call) : Site := ⟨c.kind, c.caller, c.callee.name, c.callee.arity⟩

namespace Tree

/-- Directives, `require` and nested modules. What they hold is no business of the function. -/
def isSetApart (t : Tree) : Bool :=
  t.form == .call && (Event.leftOut.contains t.name || (DirectiveKind.parse? t.name).isSome)

def isReference (t : Tree) : Bool := t.form == .aliases

/-- Whether a node calls a function. -/
def isCall (t : Tree) : Bool :=
  match t.form with
  | .call => !t.isSetApart && !definesFunction t
  | .remoteCall => true
  | _ => false

/-- The site of a call by `caller`. The receiver of a call is not among its arguments, and a `do`
block is one of them. -/
def site (caller : FunctionName) (t : Tree) : Site :=
  match t.form with
  | .remoteCall => ⟨.remote, caller, t.name, UInt32.ofNat (t.children.length - 1)⟩
  | _ => ⟨.sameModule, caller, t.name, UInt32.ofNat t.children.length⟩

/-- The calls in a part of a function's body, with their places. -/
def callPlaces (b : Tree) : List (Place × Tree) :=
  b.placed.filter fun n => n.2.isCall && !b.within isSetApart n.1

end Tree

open CallAtlas.Tree

/-- The sites of the calls in the bodies of a module's functions, of which `counts` selects some by
their places in the body. -/
def sites (module : ModuleName) (counts : Tree → Place → Bool) (d : Tree) : List Site :=
  (functionBodies d).flatMap fun (f, _, b) =>
    ((callPlaces b).filter fun n => counts b n.1).map fun n =>
      n.2.site ⟨module, f.name, f.arity⟩

/-- Outside of module references. -/
def unreferenced (b : Tree) (p : Place) : Bool := !b.within isReference p

/-- Not the head of a nested definition. -/
def noHead (b : Tree) (p : Place) : Bool := !(headPlaces b).contains p

/-! ### Events and sites -/

namespace Event

def site? (caller : FunctionName) : Event → Option Site
  | .definition _ | .directive _ _ _ => none
  | .sameModuleCall name arity => some ⟨.sameModule, caller, name, arity⟩
  | .remoteCall _ name arity => some ⟨.remote, caller, name, arity⟩

def isDefinition : Event → Bool
  | .definition _ => true
  | _ => false

theorem isDefinition_directive {kind : DirectiveKind} {arguments : List Tree} {e : Event}
    (h : directive? kind arguments = some e) : e.isDefinition = false := by
  cases arguments with
  | nil => cases h
  | cons target more =>
    cases h
    rfl

theorem isDefinition_inBody {t : Tree} {e : Event} (h : inBody? t = some e) :
    e.isDefinition = false := by
  unfold inBody? at h
  split at h
  · split at h
    · cases h
    · split at h
      · exact isDefinition_directive h
      · split at h
        · cases h
        · cases h
          rfl
  · split at h
    · cases h
    · cases h
      rfl
  · cases h

/-- The body of a function defines none. -/
theorem isDefinition_ofBody {b : Tree} {e : Event} (h : e ∈ ofBody b) :
    e.isDefinition = false := by
  obtain ⟨t, -, ht⟩ := List.mem_filterMap.mp h
  exact isDefinition_inBody ht

theorem isDefinition_bodies (bs : List Tree) : ∀ e ∈ bs.flatMap ofBody, e.isDefinition = false := by
  intro e he
  obtain ⟨b, -, hb⟩ := List.mem_flatMap.mp he
  exact isDefinition_ofBody hb

end Event

namespace Reading

variable {f : Signature} {r : Reading}

/-- Inside a function one event adds its site, if it has one. -/
theorem site_step (module : ModuleName) (hr : r.enclosing = some f) {e : Event}
    (he : e.isDefinition = false) :
    (r.step module e).enclosing = some f ∧
      (r.step module e).calls.map Call.site =
        r.calls.map Call.site ++ (e.site? ⟨module, f.name, f.arity⟩).toList := by
  cases e with
  | definition g => cases he
  | directive kind target options => exact ⟨hr, by simp [step, Event.site?]⟩
  | sameModuleCall name arity => exact ⟨hr, by simp [step, call, hr, Event.site?, Call.site]⟩
  | remoteCall receiver name arity => exact ⟨hr, by simp [step, call, hr, Event.site?, Call.site]⟩

theorem site_foldl (module : ModuleName) (hr : r.enclosing = some f) {events : List Event}
    (he : ∀ e ∈ events, e.isDefinition = false) :
    (events.foldl (step module) r).enclosing = some f ∧
      (events.foldl (step module) r).calls.map Call.site =
        r.calls.map Call.site ++ events.filterMap (Event.site? ⟨module, f.name, f.arity⟩) := by
  induction events generalizing r with
  | nil => exact ⟨hr, by simp⟩
  | cons e events ih =>
    obtain ⟨first, rest⟩ := List.forall_mem_cons.mp he
    obtain ⟨inside, here⟩ := site_step module hr first
    obtain ⟨inside', all⟩ := ih inside rest
    refine ⟨inside', ?_⟩
    rw [List.foldl_cons, all, here]
    cases h : e.site? ⟨module, f.name, f.arity⟩ <;> simp [h]

/-- A form at module level adds the sites in the bodies of the function it defines. -/
theorem site_atModuleLevel (module : ModuleName) (r : Reading) (t : Tree) :
    ((Event.atModuleLevel t).foldl (step module) r).calls.map Call.site =
      r.calls.map Call.site ++ (definedFunction? t).toList.flatMap fun f =>
        (bodies t).flatMap fun b =>
          (Event.ofBody b).filterMap (Event.site? ⟨module, f.name, f.arity⟩) := by
  unfold Event.atModuleLevel definedFunction? definesFunction
  cases t.form with
  | call =>
    by_cases word : t.name ∈ definitionWords
    · simp only [word, if_true, BEq.rfl, List.contains_eq_mem, decide_true, Bool.and_self]
      unfold Event.ofDefinition
      cases t.children.head?.bind fun head => definedBy? (unguarded head) with
      | none => simp
      | some f =>
        have all := (site_foldl (r := r.step module (.definition f)) module rfl
          (Event.isDefinition_bodies (bodies t))).2
        rw [List.filterMap_flatMap] at all
        simpa [step] using all
    · simp only [word, if_false, BEq.rfl, List.contains_eq_mem, decide_false, Bool.and_false]
      cases DirectiveKind.parse? t.name with
      | none => simp
      | some kind => cases t.children <;> simp [Event.directive?, step]
  | _ => simp

theorem site_forms (module : ModuleName) (r : Reading) (forms : List Tree) :
    ((forms.flatMap Event.atModuleLevel).foldl (step module) r).calls.map Call.site =
      r.calls.map Call.site ++ forms.flatMap fun t =>
        (definedFunction? t).toList.flatMap fun f =>
          (bodies t).flatMap fun b =>
            (Event.ofBody b).filterMap (Event.site? ⟨module, f.name, f.arity⟩) := by
  induction forms generalizing r with
  | nil => simp
  | cons t forms ih =>
    rw [List.flatMap_cons, List.foldl_append, ih, site_atModuleLevel, List.flatMap_cons,
      List.append_assoc]

end Reading

/-! ### Bodies of parsed functions -/

theorem Tree.AllFit.at {t n : Tree} {p : Place} (h : t.AllFit) (hn : t.at? p = some n) :
    n.AllFit := by
  induction p generalizing t with
  | nil =>
    cases hn
    exact h
  | cons i p ih =>
    obtain ⟨c, hc, hn⟩ := Option.bind_eq_some_iff.mp hn
    exact ih ((allFit_iff.mp h).2 c (List.mem_of_getElem? hc)) hn

theorem Tree.AllFit.node {t n : Tree} (h : t.AllFit) (hn : n ∈ t.nodes) : n.AllFit := by
  induction t using induction_children with
  | node t ih =>
    rw [nodes_eq, List.mem_cons, mem_nodesOf] at hn
    obtain rfl | ⟨child, hc, hn⟩ := hn
    · exact h
    · exact ih child hc ((allFit_iff.mp h).2 child hc) hn

namespace Event

/-- Of the nodes that hold others the walk leaves out what is set apart and module references. -/
theorem entersInBody_eq {t : Tree} (h : t.Fits) (holds : t.children ≠ []) :
    entersInBody t = !(t.isSetApart || t.isReference) := by
  have admits := h.1
  unfold entersInBody isSetApart isReference
  cases form : t.form with
  | var =>
    -- The walk does not go into variables either, but they hold nothing.
    rw [form] at admits
    exact absurd admits holds
  | call => cases DirectiveKind.parse? t.name <;> simp
  | _ => rfl

/-- A node has a site as an event exactly if it is a call. -/
theorem site_inBody (caller : FunctionName) {t : Tree} (h : t.Fits) :
    (inBody? t).bind (site? caller) = if t.isCall then some (t.site caller) else none := by
  have admits := h.1
  unfold inBody? isCall isSetApart definesFunction Tree.site
  cases form : t.form with
  | call =>
    by_cases out : t.name ∈ leftOut
    · simp [out]
    · cases DirectiveKind.parse? t.name with
      | some kind => cases t.children <;> simp [out, directive?, site?]
      | none =>
        by_cases word : t.name ∈ definitionWords
        · simp [out, word]
        · simp [out, word, site?]
  | remoteCall =>
    rw [form] at admits
    obtain ⟨receiver, arguments, children⟩ := List.exists_cons_of_ne_nil admits
    simp [children, site?]
  | _ => rfl

end Event

theorem within_not_entered {t n : Tree} {p : Place} (h : t.AllFit) (hn : t.at? p = some n) :
    t.within (fun m => !Event.entersInBody m) p =
      (t.within isSetApart p || t.within isReference p) := by
  induction p generalizing t with
  | nil => rfl
  | cons i p ih =>
    obtain ⟨c, hc, hn⟩ := Option.bind_eq_some_iff.mp hn
    obtain ⟨fits, inside⟩ := allFit_iff.mp h
    have child := List.mem_of_getElem? hc
    have here := Event.entersInBody_eq fits (List.ne_nil_of_mem child)
    simp only [within, hc, Option.any_some, here, ih (inside c child) hn, Bool.not_not]
    ac_rfl

theorem filterMap_eq_map_filter {α β : Type} {l : List α} {g : α → Option β} {P : α → Bool}
    {f : α → β} (h : ∀ a ∈ l, g a = if P a then some (f a) else none) :
    l.filterMap g = (l.filter P).map f := by
  rw [← List.filterMap_eq_map, List.filterMap_filter]
  exact List.filterMap_congr h

/-- The sites of the events in the body of a function are those of its calls outside of module
references. -/
theorem sites_ofBody (caller : FunctionName) {b : Tree} (h : b.AllFit) :
    (Event.ofBody b).filterMap (Event.site? caller) =
      ((callPlaces b).filter fun n => unreferenced b n.1).map fun n => n.2.site caller := by
  have here : ∀ n ∈ b.placed, ((Event.inBody? n.2).bind (Event.site? caller)) =
      if n.2.isCall then some (n.2.site caller) else none := by
    intro n hn
    exact Event.site_inBody caller (allFit_iff.mp (h.at (mem_placed.mp hn))).1
  have counted : ∀ n ∈ b.placed, (n.2.isCall && b.reaches Event.entersInBody n.1) =
      (unreferenced b n.1 && (n.2.isCall && !b.within isSetApart n.1)) := by
    intro n hn
    have found := mem_placed.mp hn
    rw [reaches_eq _ found, within_not_entered h found, unreferenced, Bool.not_or]
    ac_rfl
  let reached := b.placed.filter fun n => b.reaches Event.entersInBody n.1
  calc (Event.ofBody b).filterMap (Event.site? caller)
    _ = reached.filterMap fun n => (Event.inBody? n.2).bind (Event.site? caller) := by
      rw [Event.ofBody, List.filterMap_filterMap, met_eq_filter, List.filterMap_map]
      rfl
    _ = (reached.filter fun n => n.2.isCall).map fun n => n.2.site caller :=
      filterMap_eq_map_filter fun n hn => here n (List.mem_filter.mp hn).1
    _ = ((callPlaces b).filter fun n => unreferenced b n.1).map fun n => n.2.site caller := by
      rw [List.filter_filter, List.filter_congr counted, callPlaces, List.filter_filter]

/-! ### Calls of a module -/

theorem allFit_moduleForms {d t : Tree} {q : Place} (h : d.AllFit) (ht : (q, t) ∈ moduleForms d) :
    t.AllFit := by
  obtain ⟨q₁, s, q₂, hs, ht, -, -⟩ := mem_moduleForms ht
  have body : s ∈ bodies d := by
    rw [← map_snd_bodyPlaces]
    exact List.mem_map_of_mem hs
  exact (Checked.allFit_bodies h s body).at ht

/-- What is read of a module has one call for each call outside of module references. -/
theorem sites_ofEvents (module : ModuleName) {d : Tree} (h : d.AllFit) :
    (Reading.ofEvents module (Event.ofModule d)).calls.map Call.site =
      sites module unreferenced d := by
  have form : ∀ n ∈ moduleForms d,
      ((definedFunction? n.2).toList.flatMap fun f => (bodies n.2).flatMap fun b =>
        (Event.ofBody b).filterMap (Event.site? ⟨module, f.name, f.arity⟩)) =
      ((definedFunction? n.2).toList.flatMap fun f =>
        (bodyPlaces n.2).map fun b => (f, n.1 ++ b.1, b.2)).flatMap fun (f, _, b) =>
          ((callPlaces b).filter fun c => unreferenced b c.1).map fun c =>
            c.2.site ⟨module, f.name, f.arity⟩ := by
    intro n hn
    have fits := Checked.allFit_bodies (allFit_moduleForms h hn)
    rw [List.flatMap_assoc]
    congr 1
    funext f
    rw [List.flatMap_map, List.flatMap_congr fun b hb => sites_ofBody _ (fits b hb),
      ← map_snd_bodyPlaces, List.flatMap_map]
  rw [Event.ofModule_eq, Reading.ofEvents, ← List.flatMap_map Prod.snd Event.atModuleLevel,
    Reading.site_forms, List.flatMap_map, List.flatMap_congr form, sites, functionBodies,
    List.flatMap_assoc]
  rfl

theorem sublist_sites (module : ModuleName) {few many : Tree → Place → Bool}
    (h : ∀ b p, few b p → many b p) (d : Tree) :
    (sites module few d).Sublist (sites module many d) := by
  refine List.Sublist.flatMap_right _ fun body _ => List.Sublist.map _ ?_
  exact List.monotone_filter_right _ fun n hn => h body.2.2 n.1 hn

/-- The record of a module in a parsed tree has one call for each call in a body of one of its
functions, in the order of the nodes and with the name and the number of arguments of the node,
unless a directive, a `require`, a nested module or a module reference holds it. So every such call
that is not the head of a nested definition is recorded, in order. -/
theorem calls_outside_references {s : Source} {root d : Tree} (parsed : Grammar.parse s = .ok root)
    (hd : d ∈ root.nodes) (file : Bytes) (enclosing : ModuleName) :
    let r := (extract file enclosing d).value
    r.calls.map Call.site = sites r.name unreferenced d ∧
    (sites r.name (fun b p => noHead b p && unreferenced b p) d).Sublist
      (r.calls.map Call.site) := by
  intro r
  have fits : d.AllFit :=
    (Grammar.wellShaped_parse (.inl (Grammar.parseTokens_of_parse parsed).2)).2.node hd
  have recorded : r.calls.map Call.site = sites r.name unreferenced d := by
    have agrees := Survey.agrees_ofModule (definedName enclosing d) d
    have calls : r.calls = (Reading.ofEvents r.name (Event.ofModule d)).calls := by
      rw [show r.name = definedName enclosing d from agrees.module, ← agrees.calls]
      rfl
    rw [calls, sites_ofEvents r.name fits]
  refine ⟨recorded, ?_⟩
  rw [recorded]
  exact sublist_sites r.name (fun b p hp => (Bool.and_eq_true_iff.mp hp).2) d

/-- A function with calls in a string, in arguments, in a block and in a nested definition. -/
def callingSource : Source :=
  ⟨text "a.ex", text
    ("defmodule A do\n  def f(x) do\n    import m(x)\n" ++
      "    quote do\n      def g(y), do: h(y)\n    end\n" ++
      "    B.c(\"\x23\x7bk(x)\x7d\", fn -> l() end)\n  end\nend\n")⟩

/-- The argument of the directive adds no call. The head of the nested definition is recorded, but
nobody asks for it. -/
theorem callingSource_recorded :
    ∃ root d, Grammar.parse callingSource = .ok root ∧ d ∈ root.nodes ∧
      let r := (extract callingSource.name .unknown d).value
      r.calls.map (·.callee.name) = ["g", "h", "c", "k", "l"].map text ∧
      (sites r.name noHead d).map Site.name = ["h", "c", "k", "l"].map text ∧
      r.calls.map Call.site = sites r.name unreferenced d := by
  have found : (Grammar.parse callingSource).toOption.any fun root => root.nodes.any fun d =>
      let r := (extract callingSource.name .unknown d).value
      r.calls.map (·.callee.name) = ["g", "h", "c", "k", "l"].map text &&
      (sites r.name noHead d).map Site.name = ["h", "c", "k", "l"].map text := by
    decide +kernel
  obtain ⟨root, parsed, found⟩ := exists_ok_of_any found
  simp only [List.any_eq_true, Bool.and_eq_true, decide_eq_true_iff] at found
  obtain ⟨d, mem, calls, owed⟩ := found
  have recorded := calls_outside_references parsed mem callingSource.name .unknown
  exact ⟨root, d, parsed, mem, calls, owed, recorded.1⟩

/-- A call whose result is the first part of a module reference. -/
def referenceSource : Source :=
  ⟨text "a.ex", text "defmodule A do\n  def f(x), do: g(x).B.h()\nend\n"⟩

/-- The call of `g` is in no nested definition or directive, and still it is not recorded. -/
theorem referenceSource_loses_call :
    ∃ root d, Grammar.parse referenceSource = .ok root ∧ d ∈ root.nodes ∧
      let r := (extract referenceSource.name .unknown d).value
      let lost : Site := ⟨.sameModule, ⟨r.name, text "f", 1⟩, text "g", 1⟩
      lost ∈ sites r.name noHead d ∧ lost ∉ r.calls.map Call.site ∧
        ¬ (sites r.name noHead d).Sublist (r.calls.map Call.site) := by
  have found : (Grammar.parse referenceSource).toOption.any fun root => root.nodes.any fun d =>
      let r := (extract referenceSource.name .unknown d).value
      let lost : Site := ⟨.sameModule, ⟨r.name, text "f", 1⟩, text "g", 1⟩
      lost ∈ sites r.name noHead d && lost ∉ r.calls.map Call.site := by
    decide +kernel
  obtain ⟨root, parsed, found⟩ := exists_ok_of_any found
  simp only [List.any_eq_true, Bool.and_eq_true, decide_eq_true_iff] at found
  obtain ⟨d, mem, owed, lost⟩ := found
  exact ⟨root, d, parsed, mem, owed, lost, fun all => lost (all.subset owed)⟩

end CallAtlas
