import CallAtlas.Proofs.Atlas.Contents
import CallAtlas.Proofs.Record.Names

/-! # Calls start at listed functions

The walk over a module notes a call only inside the definition of a function, and the function is
listed before its body is walked. So every call of a record starts at a function of that record, and
a call that names no module stays in the record's own. An atlas lists the functions of all records,
of several records of one name together, and its part between its own modules keeps a function if a
call that is kept starts there. Hence every call of an atlas starts at a function that it lists.
-/
namespace CallAtlas

/-! ### Events -/

/-- The calls that have been read start at functions that have been read. -/
structure Reading.Attributed (module : ModuleName) (r : Reading) : Prop where
  enclosing : ∀ f ∈ r.enclosing, f ∈ r.functions
  caller : ∀ c ∈ r.calls, ∃ f ∈ r.functions, c.caller = ⟨module, f.name, f.arity⟩
  sameModule : ∀ c ∈ r.calls, c.kind = .sameModule → c.callee.module = module

namespace Reading

variable {module : ModuleName} {r : Reading}

theorem Attributed.call (h : r.Attributed module) (kind : CallKind) {callee : FunctionName}
    (stays : kind = .sameModule → callee.module = module) :
    (r.call module kind callee).Attributed module := by
  -- The one call that may be new is that of the function whose definition was read last.
  let made (f : Signature) : Call := ⟨kind, ⟨module, f.name, f.arity⟩, callee⟩
  have new : ∀ c ∈ (r.enclosing.map made).toList,
      (∃ f ∈ r.functions, c.caller = ⟨module, f.name, f.arity⟩) ∧
        (c.kind = .sameModule → c.callee.module = module) := by
    intro c hc
    rw [Option.mem_toList] at hc
    obtain ⟨f, hf, rfl⟩ := Option.map_eq_some_iff.mp hc
    exact ⟨⟨f, h.enclosing f hf, rfl⟩, stays⟩
  refine { h with caller := ?_, sameModule := ?_ }
  · exact List.forall_mem_append.mpr ⟨h.caller, fun c hc => (new c hc).1⟩
  · exact List.forall_mem_append.mpr ⟨h.sameModule, fun c hc => (new c hc).2⟩

theorem Attributed.step (h : r.Attributed module) (e : Event) :
    (r.step module e).Attributed module := by
  cases e with
  | definition f =>
    refine { h with enclosing := ?_, caller := ?_ }
    · intro g hg
      cases hg
      exact List.mem_append_right _ (List.mem_singleton_self f)
    · intro c hc
      obtain ⟨g, hg, hcaller⟩ := h.caller c hc
      exact ⟨g, List.mem_append_left _ hg, hcaller⟩
  | directive kind target options => exact { h with }
  | sameModuleCall name arity => exact h.call .sameModule fun _ => rfl
  | remoteCall receiver name arity => exact h.call .remote (by simp)

theorem Attributed.foldl (h : r.Attributed module) (events : List Event) :
    (events.foldl (Reading.step module) r).Attributed module := by
  induction events generalizing r with
  | nil => exact h
  | cons e events ih => exact ih (h.step e)

theorem attributed_ofEvents (module : ModuleName) (events : List Event) :
    (ofEvents module events).Attributed module := by
  have start : Attributed module {} := ⟨by simp, by simp, by simp⟩
  exact start.foldl events

end Reading

/-! ### Records -/

/-- The calls of a record start at its functions, which increase strictly. -/
structure Record.Attributed (r : Record) : Prop where
  increasing : Ordered.Increasing Signature.order r.functions
  caller : ∀ c ∈ r.calls, ∃ f ∈ r.functions, c.caller = r.function f
  sameModule : ∀ c ∈ r.calls, c.kind = .sameModule → c.callee.module = r.name

theorem attributed_record (file : Bytes) (module : ModuleName) (definition : Tree) :
    ((Survey.ofModule module definition).record file).Attributed := by
  have agrees := Survey.agrees_ofModule module definition
  have reading := Reading.attributed_ofEvents module (Event.ofModule definition)
  have calls : ((Survey.ofModule module definition).record file).calls =
      (Reading.ofEvents module (Event.ofModule definition)).calls := agrees.calls
  refine ⟨agrees.increasing, ?_, ?_⟩
  · rw [calls]
    intro c hc
    obtain ⟨f, hf, hcaller⟩ := reading.caller c hc
    refine ⟨f, (agrees.mem_functions f).mpr hf, ?_⟩
    rw [hcaller, Record.function, name_record]
  · rw [calls, name_record]
    exact reading.sameModule

theorem attributed_ofSource {s : Source} {records : List Record}
    (h : (Record.ofSource s).value = .ok records) : ∀ r ∈ records, r.Attributed := by
  obtain ⟨t, -, rfl⟩ := ofSource_eq_ok h
  exact List.forall_mem_map.mpr fun d _ => attributed_record s.name d.1 d.2

/-! ### Atlases -/

namespace Atlas

/-- The calls of an atlas start at its functions, which increase strictly as those of every module
do. -/
structure Attributed (a : Atlas) : Prop where
  caller : ∀ c ∈ a.calls, c.caller ∈ a.functions
  sameModule : ∀ c ∈ a.calls, c.kind = .sameModule → c.caller.module = c.callee.module
  modules : ∀ m ∈ a.modules, Ordered.Increasing Signature.order m.functions
  functions : Ordered.Increasing FunctionName.order a.functions

theorem attributed_ofRecords {records : List Record} (h : ∀ r ∈ records, r.Attributed) :
    (ofRecords records).Attributed := by
  have reflects := reflects_ofRecords records
  have source {c : Call} (hc : c ∈ (ofRecords records).calls) : ∃ r ∈ records, c ∈ r.calls := by
    rw [reflects.calls] at hc
    exact List.mem_flatMap.mp hc
  refine ⟨?_, ?_, ?_, reflects.increasing⟩
  · intro c hc
    obtain ⟨r, hr, hc⟩ := source hc
    obtain ⟨f, hf, hcaller⟩ := (h r hr).caller c hc
    rw [reflects.mem_functions, hcaller]
    exact List.mem_flatMap.mpr ⟨r, hr, List.mem_map_of_mem hf⟩
  · intro c hc hkind
    obtain ⟨r, hr, hc⟩ := source hc
    obtain ⟨f, -, hcaller⟩ := (h r hr).caller c hc
    rw [hcaller, (h r hr).sameModule c hc hkind]
    rfl
  · rw [reflects.modules]
    exact List.forall_mem_map.mpr fun r hr => (h r hr).increasing

/-- A call that is kept keeps the function that it starts at. -/
theorem Attributed.internal {a : Atlas} (h : a.Attributed) : a.internal.Attributed := by
  refine ⟨?_, ?_, h.modules, h.functions.filter _⟩
  · intro c hc
    refine List.mem_filter.mpr ⟨h.caller c (List.mem_filter.mp hc).1, ?_⟩
    rw [List.any_eq_true]
    exact ⟨c, hc, by simp⟩
  · intro c hc
    exact h.sameModule c (List.mem_filter.mp hc).1

theorem attributed_survey (internalOnly : Bool) {records : List Record}
    (h : ∀ r ∈ records, r.Attributed) : (survey internalOnly records).value.Attributed := by
  cases internalOnly with
  | true => exact (attributed_ofRecords h).internal
  | false => exact attributed_ofRecords h

end Atlas

/-- Of any sources that are accepted, every call of a record starts at a function of that record. So
in the atlas of the sources, or in its part between their modules, every call starts at a function
that is listed; a call that names no module stays in its module; and the functions of every module,
and all functions together, increase strictly. -/
theorem survey_calls_attributed {sources : List Source} {perSource : List (List Record)}
    (accepted : sources.mapM (fun s => (Record.ofSource s).value) = .ok perSource) :
    let records := perSource.flatten
    (∀ r ∈ records, ∀ c ∈ r.calls, ∃ f ∈ r.functions, c.caller = ⟨r.name, f.name, f.arity⟩) ∧
    ∀ internalOnly : Bool,
      let a := (Atlas.survey internalOnly records).value
      (∀ c ∈ a.calls, c.caller ∈ a.functions) ∧
      (∀ c ∈ a.calls, c.kind = .sameModule → c.caller.module = c.callee.module) ∧
      (∀ m ∈ a.modules, Ordered.Increasing Signature.order m.functions) ∧
      Ordered.Increasing FunctionName.order a.functions := by
  intro records
  have attributed : ∀ r ∈ records, r.Attributed := by
    intro r hr
    obtain ⟨ofFile, hfile, hr⟩ := List.mem_flatten.mp hr
    obtain ⟨s, -, hs⟩ := exists_of_mapM accepted ofFile hfile
    exact attributed_ofSource hs r hr
  refine ⟨fun r hr => (attributed r hr).caller, ?_⟩
  intro internalOnly a
  have h : a.Attributed := Atlas.attributed_survey internalOnly attributed
  exact ⟨h.caller, h.sameModule, h.modules, h.functions⟩

/-- Two files that define a module of the same name. One of its functions has a guard and calls
another module. -/
def twinSources : List Source :=
  [⟨text "a.ex", text "defmodule A do\n  def f(x) when g(x), do: B.h(f(x))\nend\n"⟩,
    ⟨text "b.ex", text "defmodule A do\n  def e, do: f(1)\n  defp d, do: e()\nend\n"⟩]

theorem twinSources_attributed :
    ∃ perSource, twinSources.mapM (fun s => (Record.ofSource s).value) = .ok perSource ∧
      ∀ internalOnly : Bool,
        let a := (Atlas.survey internalOnly perSource.flatten).value
        a.calls ≠ [] ∧ ∀ c ∈ a.calls, c.caller ∈ a.functions := by
  have made : (twinSources.mapM fun s => (Record.ofSource s).value).toOption.any fun perSource =>
      [true, false].all fun internalOnly =>
        !(Atlas.survey internalOnly perSource.flatten).value.calls.isEmpty := by
    decide +kernel
  cases h : twinSources.mapM fun s => (Record.ofSource s).value with
  | error e => simp [h, Except.toOption] at made
  | ok perSource =>
    refine ⟨perSource, rfl, ?_⟩
    intro internalOnly a
    refine ⟨?_, ((survey_calls_attributed h).2 internalOnly).1⟩
    cases internalOnly <;> simp_all [Except.toOption, a]

end CallAtlas
