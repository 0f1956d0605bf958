import CallAtlas.Proofs.Atlas.Callers
import Mathlib.Data.List.Basic

/-! # The lists of calls between modules agree

An atlas says three times which modules call each other: by its edges that come from calls, by its
calls between modules, and by its calls. The first two are listed side by side, each with its own
memory of what has been listed, and leave out different things. Here the pairs of modules at the
ends are compared as lists, in order. They still agree in the part between the modules of the atlas,
because dropping pairs and listing them once each can be done in either order.
-/
namespace CallAtlas

/-! ### Listing once each -/

section EraseDups

variable {α β : Type} [BEq α] [LawfulBEq α] [BEq β] [LawfulBEq β]

/-- What is listed once each can be picked and renamed before or after, if different entries get
different names. -/
theorem eraseDups_filterMap {f : α → Option β}
    (injective : ∀ x y b, f x = some b → f y = some b → x = y) (l : List α) :
    (l.filterMap f).eraseDups = l.eraseDups.filterMap f := by
  match l with
  | [] => rfl
  | a :: l =>
    have ih := eraseDups_filterMap injective (l.filter (!· == a))
    rw [List.eraseDups_cons]
    cases ha : f a with
    | none =>
      have others : (l.filter (!· == a)).filterMap f = l.filterMap f := by
        rw [List.filterMap_filter]
        refine List.filterMap_congr fun x _ => ?_
        by_cases hx : x = a
        · simp [hx, ha]
        · simp [hx]
      rw [List.filterMap_cons_none ha, List.filterMap_cons_none ha, ← ih, others]
    | some b =>
      have others : (l.filter (!· == a)).filterMap f = (l.filterMap f).filter (!· == b) := by
        rw [List.filterMap_filter, List.filter_filterMap]
        refine List.filterMap_congr fun x _ => ?_
        cases hx : f x with
        | none => simp
        | some c =>
          have same : x = a ↔ c = b := by
            constructor
            · rintro rfl
              exact Option.some.inj (hx.symm.trans ha)
            · rintro rfl
              exact injective x a c hx ha
          by_cases h : c = b <;> simp [same, h, Option.filter]
      rw [List.filterMap_cons_some ha, List.filterMap_cons_some ha, List.eraseDups_cons, ← ih,
        others]
termination_by l.length
decreasing_by exact Nat.lt_succ_of_le (List.length_filter_le _ _)

theorem eraseDups_filter (keep : α → Bool) (l : List α) :
    (l.filter keep).eraseDups = l.eraseDups.filter keep := by
  rw [← List.filterMap_eq_filter]
  refine eraseDups_filterMap ?_ l
  intro x y b hx hy
  simp only [Option.guard_eq_some_iff] at hx hy
  rw [hx.1, hy.1]

theorem eraseDups_map {f : α → β} (injective : f.Injective) (l : List α) :
    (l.map f).eraseDups = l.eraseDups.map f := by
  rw [← List.filterMap_eq_map]
  refine eraseDups_filterMap ?_ l
  intro x y b hx hy
  exact injective (Option.some.inj (hx.trans hy.symm))

end EraseDups

/-! ### Pairs of modules -/

def ModuleEdge.ends (e : ModuleEdge) : ModuleName × ModuleName := (e.source, e.target)

def ModuleCall.ends (c : ModuleCall) : ModuleName × ModuleName := (c.caller, c.callee)

/-- The modules of the two functions of a call. -/
def Call.ends (c : Call) : ModuleName × ModuleName := (c.caller.module, c.callee.module)

/-- The pairs that the calls of a record suggest. -/
def Record.callPairs (r : Record) : List (ModuleName × ModuleName) :=
  r.calls.map fun c => (r.name, c.callee.module)

/-- The calls of a record start in its module. -/
def Record.OwnsCalls (r : Record) : Prop := ∀ c ∈ r.calls, c.caller.module = r.name

namespace Atlas

/-- The ends of the edges that come from calls. -/
def callEdgeEnds (a : Atlas) : List (ModuleName × ModuleName) :=
  (a.moduleEdges.filter (·.kind = .call)).map (·.ends)

/-- The ends of the calls between modules. -/
def moduleCallEnds (a : Atlas) : List (ModuleName × ModuleName) := a.moduleCalls.map (·.ends)

/-- The ends of all calls. -/
def callEnds (a : Atlas) : List (ModuleName × ModuleName) := a.calls.map (·.ends)

/-- Whether both of two names are those of modules. -/
def joins (a : Atlas) (p : ModuleName × ModuleName) : Bool := a.defines p.1 && a.defines p.2

/-! ### Whole atlases -/

theorem moduleCallEnds_ofRecords (records : List Record) :
    (ofRecords records).moduleCallEnds =
      ((records.flatMap (·.callPairs)).filter fun p => p.1 ≠ p.2).eraseDups := by
  have injective : ModuleCall.ends.Injective := by
    rintro ⟨m, n⟩ ⟨m', n'⟩ h
    simpa [ModuleCall.ends] using h
  have pairs : (records.flatMap fun r => r.calls.map r.moduleCall).map (·.ends) =
      records.flatMap (·.callPairs) := by
    simp only [List.map_flatMap, List.map_map]
    rfl
  rw [moduleCallEnds, (reflects_ofRecords records).moduleCalls, ← eraseDups_map injective,
    Suggestions.ofRecords, ← pairs, List.filter_map]
  congr 2
  refine List.filter_congr fun c _ => ?_
  simp [ModuleCall.isDrawn, ModuleCall.ends, eq_comm]

/-- The ends of an edge that comes from a call. -/
def callEdgeEnds? (e : ModuleEdge) : Option (ModuleName × ModuleName) :=
  if e.kind = .call then some e.ends else none

theorem callEdgeEnds_eq_filterMap (a : Atlas) :
    a.callEdgeEnds = a.moduleEdges.filterMap callEdgeEnds? := by
  rw [callEdgeEnds, ← List.filterMap_eq_map, List.filterMap_filter]
  refine List.filterMap_congr fun e _ => ?_
  simp only [callEdgeEnds?, Function.comp_apply, decide_eq_true_iff]

/-- Of the edges that a record suggests, those of its directives come from no call. -/
theorem filterMap_callEdgeEnds_edges (r : Record) :
    (r.edges.filter (·.isDrawn)).filterMap callEdgeEnds? =
      r.callPairs.filter fun p => p.1 ≠ p.2 ∧ p.2 ≠ .unknown := by
  have calls : ((r.calls.map r.callEdge).filter (·.isDrawn)).filterMap callEdgeEnds? =
      r.callPairs.filter fun p => p.1 ≠ p.2 ∧ p.2 ≠ .unknown := by
    have ends : callEdgeEnds? ∘ r.callEdge = some ∘ fun c => (r.name, c.callee.module) := rfl
    rw [Record.callPairs, List.filter_map, List.filter_map, List.filterMap_map, ends,
      List.filterMap_eq_map]
    congr 1
    refine List.filter_congr fun c _ => ?_
    cases h : c.callee.module <;>
      simp [ModuleEdge.isDrawn, Record.callEdge, ModuleName.isUnknown, h, eq_comm]
  have directives :
      ((r.directives.map r.directiveEdge).filter (·.isDrawn)).filterMap callEdgeEnds? = [] := by
    rw [List.filterMap_eq_nil_iff]
    intro e he
    obtain ⟨d, -, rfl⟩ := List.mem_map.mp (List.mem_filter.mp he).1
    rfl
  rw [Record.edges, List.filter_append, List.filterMap_append, calls, directives, List.append_nil]

theorem callEdgeEnds_ofRecords (records : List Record) :
    (ofRecords records).callEdgeEnds =
      ((records.flatMap (·.callPairs)).filter fun p =>
        p.1 ≠ p.2 ∧ p.2 ≠ .unknown).eraseDups := by
  have injective : ∀ e e' p, callEdgeEnds? e = some p → callEdgeEnds? e' = some p → e = e' := by
    rintro ⟨m, n, k⟩ ⟨m', n', k'⟩ p h h'
    grind [callEdgeEnds?, ModuleEdge.ends]
  rw [callEdgeEnds_eq_filterMap, (reflects_ofRecords records).moduleEdges,
    ← eraseDups_filterMap injective, Suggestions.ofRecords, List.filter_flatMap,
    List.filterMap_flatMap, List.filter_flatMap]
  exact congrArg List.eraseDups (List.flatMap_congr fun r _ => filterMap_callEdgeEnds_edges r)

theorem callEnds_ofRecords {records : List Record} (owned : ∀ r ∈ records, r.OwnsCalls) :
    (ofRecords records).callEnds = records.flatMap (·.callPairs) := by
  rw [callEnds, (reflects_ofRecords records).calls, Suggestions.ofRecords, List.map_flatMap]
  refine List.flatMap_congr fun r hr => List.map_congr_left fun c hc => ?_
  rw [Call.ends, owned r hr c hc]

/-! ### Parts between modules -/

theorem callEdgeEnds_internal (a : Atlas) :
    a.internal.callEdgeEnds = a.callEdgeEnds.filter a.joins := by
  rw [callEdgeEnds, callEdgeEnds, List.filter_map, List.filter_comm]
  rfl

theorem moduleCallEnds_internal (a : Atlas) :
    a.internal.moduleCallEnds = a.moduleCallEnds.filter a.joins := by
  rw [moduleCallEnds, moduleCallEnds, List.filter_map]
  rfl

theorem callEnds_internal (a : Atlas) : a.internal.callEnds = a.callEnds.filter a.joins := by
  rw [callEnds, callEnds, List.filter_map]
  rfl

/-! ### Agreement -/

theorem callEdgeEnds_survey (internalOnly : Bool) (records : List Record) :
    (survey internalOnly records).value.callEdgeEnds =
      (survey internalOnly records).value.moduleCallEnds.filter fun p => p.2 ≠ .unknown := by
  have whole : (ofRecords records).callEdgeEnds =
      (ofRecords records).moduleCallEnds.filter fun p => p.2 ≠ .unknown := by
    rw [callEdgeEnds_ofRecords, moduleCallEnds_ofRecords, ← eraseDups_filter, List.filter_filter]
    simp [Bool.and_comm]
  cases internalOnly with
  | false => exact whole
  | true =>
    have part := callEdgeEnds_internal (ofRecords records)
    rw [whole, List.filter_comm, ← moduleCallEnds_internal] at part
    exact part

theorem moduleCallEnds_survey (internalOnly : Bool) {records : List Record}
    (owned : ∀ r ∈ records, r.OwnsCalls) :
    (survey internalOnly records).value.moduleCallEnds =
      ((survey internalOnly records).value.callEnds.filter fun p => p.1 ≠ p.2).eraseDups := by
  have whole : (ofRecords records).moduleCallEnds =
      ((ofRecords records).callEnds.filter fun p => p.1 ≠ p.2).eraseDups := by
    rw [moduleCallEnds_ofRecords, callEnds_ofRecords owned]
  cases internalOnly with
  | false => exact whole
  | true =>
    have part := moduleCallEnds_internal (ofRecords records)
    rw [whole, ← eraseDups_filter, List.filter_comm, ← callEnds_internal] at part
    exact part

/-- The records of a source own their calls. -/
theorem ownsCalls_ofSource {s : Source} {records : List Record}
    (h : (Record.ofSource s).value = .ok records) : ∀ r ∈ records, r.OwnsCalls := by
  intro r hr c hc
  obtain ⟨f, -, caller⟩ := (attributed_ofSource h r hr).caller c hc
  rw [caller]
  rfl

/-- In the atlas of any records, and in its part between their modules, the ends of the edges that
come from calls are in order the ends of those calls between modules whose callee is known. If the
calls of every record start in its module, the ends of the calls between modules are in order the
pairs of different modules at the ends of calls, each where it first stands. The records of a source
are of that kind. -/
theorem survey_links_agree (internalOnly : Bool) (records : List Record) :
    let a := (survey internalOnly records).value
    (a.callEdgeEnds = a.moduleCallEnds.filter fun p => p.2 ≠ .unknown) ∧
    ((∀ r ∈ records, r.OwnsCalls) →
      a.moduleCallEnds = (a.callEnds.filter fun p => p.1 ≠ p.2).eraseDups) ∧
    ∀ s found, (Record.ofSource s).value = .ok found → ∀ r ∈ found, r.OwnsCalls :=
  ⟨callEdgeEnds_survey internalOnly records, moduleCallEnds_survey internalOnly,
    fun _ _ => ownsCalls_ofSource⟩

/-- Two records: the first calls the second twice, an unresolved module and itself, and the second
calls the first. -/
def callingRecords : List Record :=
  let a : ModuleName := .elixir (text "A") []
  let b : ModuleName := .elixir (text "B") []
  let f (m : ModuleName) : FunctionName := ⟨m, text "f", 0⟩
  let call (m n : ModuleName) : Call := ⟨.remote, f m, f n⟩
  [{ name := a, calls := [call a b, call a .unknown, call a a, call a b] },
    { name := b, calls := [call b a] }]

theorem callingRecords_agree :
    (∀ r ∈ callingRecords, r.OwnsCalls) ∧
    let a := (survey true callingRecords).value
    a.moduleCallEnds = (a.callEnds.filter fun p => p.1 ≠ p.2).eraseDups ∧
      a.moduleCallEnds.length = 2 := by
  have owned : ∀ r ∈ callingRecords, r.OwnsCalls := by
    unfold Record.OwnsCalls
    decide
  exact ⟨owned, (survey_links_agree true callingRecords).2.1 owned, by decide⟩

end Atlas
end CallAtlas
