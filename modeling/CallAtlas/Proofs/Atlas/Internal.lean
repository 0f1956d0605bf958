import CallAtlas.Proofs.Atlas.Contents
import CallAtlas.Record.OfSource

/-! # The part of an atlas between its own modules

An edge or call is kept if both its ends are names of modules of the atlas. The unknown name is no
exception: a module whose name is computed has it, and then an unresolved reference counts as one to
that module. So the unknown name is at no end of what is kept if no record has it, and otherwise just
if nothing joins it to the name of a record.
-/
namespace CallAtlas

/-- The modules that a record joins: by its calls, and by what it adds between modules. -/
def Record.links (r : Record) : List (ModuleName × ModuleName) :=
  (r.edges.filter (·.isDrawn)).map (fun e => (e.source, e.target)) ++
    (r.calls.map (fun c => (c.caller.module, c.callee.module)) ++
      ((r.calls.map r.moduleCall).filter (·.isDrawn)).map fun c => (c.caller, c.callee))

namespace Atlas

/-- The modules at the ends of the edges and calls of an atlas. -/
def links (a : Atlas) : List (ModuleName × ModuleName) :=
  a.moduleEdges.map (fun e => (e.source, e.target)) ++
    (a.calls.map (fun c => (c.caller.module, c.callee.module)) ++
      a.moduleCalls.map fun c => (c.caller, c.callee))

theorem forall_mem_links {a : Atlas} {P : ModuleName → ModuleName → Prop} :
    (∀ p ∈ a.links, P p.1 p.2) ↔
      (∀ e ∈ a.moduleEdges, P e.source e.target) ∧
        (∀ c ∈ a.calls, P c.caller.module c.callee.module) ∧
          ∀ c ∈ a.moduleCalls, P c.caller c.callee := by
  simp only [links, List.forall_mem_append, List.forall_mem_map]

theorem links_internal (a : Atlas) :
    a.internal.links = a.links.filter fun p => a.defines p.1 && a.defines p.2 := by
  simp only [links, internal, List.filter_append, List.filter_map]
  rfl

theorem mem_links_ofRecords {records : List Record} {p : ModuleName × ModuleName} :
    p ∈ (ofRecords records).links ↔ ∃ r ∈ records, p ∈ r.links := by
  have h := reflects_ofRecords records
  simp only [links, Record.links, h.moduleEdges, h.calls, h.moduleCalls, Suggestions.ofRecords,
    List.mem_append, List.mem_map, List.mem_eraseDups, List.mem_filter, List.mem_flatMap]
  grind

theorem defines_ofRecords {records : List Record} {name : ModuleName} :
    (ofRecords records).defines name ↔ name ∈ records.map (·.name) := by
  have h := (reflects_ofRecords records).modules
  simp [defines, h, Suggestions.ofRecords, Record.node]

/-- What is kept joins two names of records. -/
theorem mem_links_internal {records : List Record} {p : ModuleName × ModuleName} :
    p ∈ (ofRecords records).internal.links ↔
      (∃ r ∈ records, p ∈ r.links) ∧
        p.1 ∈ records.map (·.name) ∧ p.2 ∈ records.map (·.name) := by
  rw [links_internal, List.mem_filter, Bool.and_eq_true, mem_links_ofRecords, defines_ofRecords,
    defines_ofRecords]

/-- In the part between its own modules an atlas has no edge, call or call between modules that
starts or ends at the unknown name exactly if no record has that name or none joins it to the name of
a record. -/
theorem internal_resolved_iff (records : List Record) :
    let a := (survey true records).value
    let names := records.map (·.name)
    ((∀ e ∈ a.moduleEdges, e.source ≠ .unknown ∧ e.target ≠ .unknown) ∧
      (∀ c ∈ a.calls, c.caller.module ≠ .unknown ∧ c.callee.module ≠ .unknown) ∧
      ∀ c ∈ a.moduleCalls, c.caller ≠ .unknown ∧ c.callee ≠ .unknown) ↔
    .unknown ∉ names ∨
      ∀ r ∈ records, ∀ p ∈ r.links,
        (p.1 = .unknown → p.2 ∉ names) ∧ (p.2 = .unknown → p.1 ∉ names) := by
  intro a names
  rw [← forall_mem_links (P := fun x y => x ≠ .unknown ∧ y ≠ .unknown)]
  constructor
  · intro resolved
    by_cases unnamed : .unknown ∈ names
    · right
      intro r hr p hp
      constructor
      · intro start named
        have kept : p ∈ a.links := mem_links_internal.mpr ⟨⟨r, hr, hp⟩, start ▸ unnamed, named⟩
        exact (resolved p kept).1 start
      · intro stop named
        have kept : p ∈ a.links := mem_links_internal.mpr ⟨⟨r, hr, hp⟩, named, stop ▸ unnamed⟩
        exact (resolved p kept).2 stop
    · exact .inl unnamed
  · intro apart p kept
    obtain ⟨⟨r, hr, hp⟩, start, stop⟩ := mem_links_internal.mp kept
    rcases apart with named | apart
    · exact ⟨fun h => named (h ▸ start), fun h => named (h ▸ stop)⟩
    · obtain ⟨first, second⟩ := apart r hr p hp
      exact ⟨fun h => first h stop, fun h => second h start⟩

/-- A module that calls whatever it is given, and one whose name is computed. -/
def unnamedSources : List Source :=
  [⟨text "a.ex", text "defmodule A do\n  def f(x), do: x.g()\nend\n"⟩,
    ⟨text "b.ex", text "defmodule unquote(name) do\nend\n"⟩]

/-- The call to an unresolved module is kept as one between the two. -/
theorem unnamedSources_unresolved :
    ∃ perSource, unnamedSources.mapM (fun s => (Record.ofSource s).value) = .ok perSource ∧
      let a := (survey true perSource.flatten).value
      (∃ c ∈ a.calls, c.callee.module = .unknown) ∧ ∃ c ∈ a.moduleCalls, c.callee = .unknown := by
  have kept : (unnamedSources.mapM fun s => (Record.ofSource s).value).toOption.any fun perSource =>
      let a := (survey true perSource.flatten).value
      a.calls.any (·.callee.module = .unknown) && a.moduleCalls.any (·.callee = .unknown) := by
    decide +kernel
  cases h : unnamedSources.mapM fun s => (Record.ofSource s).value with
  | error e => simp [h, Except.toOption] at kept
  | ok perSource =>
    refine ⟨perSource, rfl, ?_⟩
    simpa [h, Except.toOption] using kept

end Atlas
end CallAtlas
