import CallAtlas.Atlas
import Mathlib.Data.List.Basic
import Mathlib.Order.Bounds.Basic

/-! # The greatest closed part of an atlas

An atlas is part of another if its lists are those of the other with some entries left out. It is
closed if all that it joins are modules of its own, and every function that it lists is at one end
of a call. The part between the modules of an atlas is the greatest of its closed parts, so there is
nothing left to drop in it, though it is taken in a single round.
-/
namespace CallAtlas.Atlas

/-- The names of the modules of an atlas. -/
def moduleNames (a : Atlas) : List ModuleName := a.modules.map (·.name)

theorem defines_iff {a : Atlas} {name : ModuleName} : a.defines name ↔ name ∈ a.moduleNames := by
  simp [defines, moduleNames]

/-! ### Parts -/

/-- The lists of `b` hold those of `a`, in their order and at least as often. -/
structure Within (a b : Atlas) : Prop where
  modules : a.modules.Sublist b.modules
  moduleEdges : a.moduleEdges.Sublist b.moduleEdges
  functions : a.functions.Sublist b.functions
  calls : a.calls.Sublist b.calls
  moduleCalls : a.moduleCalls.Sublist b.moduleCalls

instance : PartialOrder Atlas where
  le := Within
  le_refl a := ⟨.refl _, .refl _, .refl _, .refl _, .refl _⟩
  le_trans a b c h h' :=
    { modules := h.modules.trans h'.modules
      moduleEdges := h.moduleEdges.trans h'.moduleEdges
      functions := h.functions.trans h'.functions
      calls := h.calls.trans h'.calls
      moduleCalls := h.moduleCalls.trans h'.moduleCalls }
  le_antisymm a b h h' := by
    cases a
    cases b
    congr
    · exact h.modules.antisymm h'.modules
    · exact h.moduleEdges.antisymm h'.moduleEdges
    · exact h.functions.antisymm h'.functions
    · exact h.calls.antisymm h'.calls
    · exact h.moduleCalls.antisymm h'.moduleCalls

theorem Within.moduleNames {a b : Atlas} (h : a ≤ b) {name : ModuleName}
    (hn : name ∈ a.moduleNames) : name ∈ b.moduleNames :=
  (h.modules.map _).mem hn

/-! ### Closed parts -/

/-- All that is joined are modules of the atlas, and every function is at an end of a call. -/
structure Closed (a : Atlas) : Prop where
  moduleEdges : ∀ e ∈ a.moduleEdges, e.source ∈ a.moduleNames ∧ e.target ∈ a.moduleNames
  calls : ∀ c ∈ a.calls, c.caller.module ∈ a.moduleNames ∧ c.callee.module ∈ a.moduleNames
  moduleCalls : ∀ c ∈ a.moduleCalls, c.caller ∈ a.moduleNames ∧ c.callee ∈ a.moduleNames
  functions : ∀ f ∈ a.functions, ∃ c ∈ a.calls, c.caller = f ∨ c.callee = f

theorem internal_le (a : Atlas) : a.internal ≤ a where
  modules := .refl _
  moduleEdges := List.filter_sublist
  functions := List.filter_sublist
  calls := List.filter_sublist
  moduleCalls := List.filter_sublist

theorem closed_internal (a : Atlas) : a.internal.Closed := by
  have joined {m n : ModuleName} (h : (a.defines m && a.defines n) = true) :
      m ∈ a.internal.moduleNames ∧ n ∈ a.internal.moduleNames :=
    (Bool.and_eq_true_iff.mp h).imp defines_iff.mp defines_iff.mp
  constructor
  · exact fun e he => joined (List.mem_filter.mp he).2
  · exact fun c hc => joined (List.mem_filter.mp hc).2
  · exact fun c hc => joined (List.mem_filter.mp hc).2
  · intro f hf
    have touched := (List.mem_filter.mp hf).2
    rw [List.any_eq_true] at touched
    obtain ⟨c, hc, ends⟩ := touched
    exact ⟨c, hc, by simpa using ends⟩

/-- What is left out by a filter is missing in every part of which all entries pass it. -/
theorem sublist_filter {α : Type} {l m : List α} {p : α → Bool} (h : l.Sublist m)
    (passes : ∀ x ∈ l, p x) : l.Sublist (m.filter p) := by
  rw [← List.filter_eq_self.mpr passes]
  exact h.filter p

/-- A closed part keeps to the modules of the whole, and the calls that its functions are at are
among those that are kept. -/
theorem Closed.le_internal {a b : Atlas} (closed : b.Closed) (h : b ≤ a) : b ≤ a.internal := by
  have joined {m n : ModuleName} (hm : m ∈ b.moduleNames ∧ n ∈ b.moduleNames) :
      (a.defines m && a.defines n) = true :=
    Bool.and_eq_true_iff.mpr
      ⟨defines_iff.mpr (Within.moduleNames h hm.1), defines_iff.mpr (Within.moduleNames h hm.2)⟩
  have calls : b.calls.Sublist a.internal.calls :=
    sublist_filter h.calls fun c hc => joined (closed.calls c hc)
  refine ⟨h.modules, ?_, ?_, calls, ?_⟩
  · exact sublist_filter h.moduleEdges fun e he => joined (closed.moduleEdges e he)
  · refine sublist_filter h.functions fun f hf => ?_
    obtain ⟨c, hc, ends⟩ := closed.functions f hf
    rw [List.any_eq_true]
    exact ⟨c, calls.mem hc, by simpa using ends⟩
  · exact sublist_filter h.moduleCalls fun c hc => joined (closed.moduleCalls c hc)

theorem isGreatest_internal (a : Atlas) : IsGreatest {b : Atlas | b ≤ a ∧ b.Closed} a.internal :=
  ⟨⟨a.internal_le, a.closed_internal⟩, fun _ part => part.2.le_internal part.1⟩

theorem Closed.internal_eq {a : Atlas} (closed : a.Closed) : a.internal = a :=
  le_antisymm a.internal_le (closed.le_internal le_rfl)

/-- The part of an atlas between its own modules has all modules, the edges, calls and calls between
modules whose two ends are names of modules, and the functions that such a call starts or ends at,
all in their order and as often as they were. It is the greatest closed part, and taking the part
once more changes nothing. -/
theorem restrict_greatest (a : Atlas) :
    let b := a.restrict.value
    b.modules = a.modules ∧
    (b.moduleEdges = a.moduleEdges.filter fun e =>
      e.source ∈ a.moduleNames ∧ e.target ∈ a.moduleNames) ∧
    (b.calls = a.calls.filter fun c =>
      c.caller.module ∈ a.moduleNames ∧ c.callee.module ∈ a.moduleNames) ∧
    (b.moduleCalls = a.moduleCalls.filter fun c =>
      c.caller ∈ a.moduleNames ∧ c.callee ∈ a.moduleNames) ∧
    (b.functions = a.functions.filter fun f => ∃ c ∈ b.calls, c.caller = f ∨ c.callee = f) ∧
    IsGreatest {part : Atlas | part ≤ a ∧ part.Closed} b ∧
    b.restrict.value = b := by
  have joined (m n : ModuleName) :
      (a.defines m && a.defines n) = decide (m ∈ a.moduleNames ∧ n ∈ a.moduleNames) := by
    rw [Bool.eq_iff_iff, Bool.and_eq_true, defines_iff, defines_iff, decide_eq_true_iff]
  refine ⟨rfl, ?_, ?_, ?_, ?_, a.isGreatest_internal, a.closed_internal.internal_eq⟩
  · exact List.filter_congr fun e _ => joined e.source e.target
  · exact List.filter_congr fun c _ => joined c.caller.module c.callee.module
  · exact List.filter_congr fun c _ => joined c.caller c.callee
  · refine List.filter_congr fun f _ => ?_
    rw [Bool.eq_iff_iff, List.any_eq_true, decide_eq_true_iff]
    simp only [Bool.or_eq_true, decide_eq_true_iff]
    rfl

end CallAtlas.Atlas
