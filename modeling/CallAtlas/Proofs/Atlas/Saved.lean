import CallAtlas.Proofs.Atlas.Contents
import CallAtlas.Proofs.Atlas.Document
import CallAtlas.Proofs.Record.Names
import CallAtlas.Run

/-! # An atlas may be saved

An atlas takes all its names from the records, and the part between its own modules takes them from
the atlas. The names in records are canonical, so the atlas of any sources comes back from its
document as it was, and what is drawn from the document is what is drawn from the sources.
-/
namespace CallAtlas

/-! ### Where the names of an atlas come from -/

theorem Record.mem_names {r : Record} {n : ModuleName} :
    n ∈ r.names ↔
      n = r.name ∨ (∃ c ∈ r.calls, n = c.caller.module ∨ n = c.callee.module) ∨
        ∃ d ∈ r.directives, n = d.target := by
  simp only [names, List.mem_cons, List.mem_append, List.mem_map, List.mem_flatMap,
    List.not_mem_nil, or_false, eq_comm]

theorem Record.mem_names_of_edge {r : Record} {e : ModuleEdge} (h : e ∈ r.edges) :
    e.source ∈ r.names ∧ e.target ∈ r.names := by
  simp only [mem_names]
  rcases List.mem_append.mp h with h | h
  · obtain ⟨c, hc, rfl⟩ := List.mem_map.mp h
    exact ⟨.inl rfl, .inr (.inl ⟨c, hc, .inr rfl⟩)⟩
  · obtain ⟨d, hd, rfl⟩ := List.mem_map.mp h
    exact ⟨.inl rfl, .inr (.inr ⟨d, hd, rfl⟩)⟩

namespace Atlas

theorem mem_names {a : Atlas} {n : ModuleName} :
    n ∈ a.names ↔
      (∃ m ∈ a.modules, n = m.name) ∨ (∃ e ∈ a.moduleEdges, n = e.source ∨ n = e.target) ∨
        (∃ f ∈ a.functions, n = f.module) ∨
        (∃ c ∈ a.calls, n = c.caller.module ∨ n = c.callee.module) ∨
        ∃ c ∈ a.moduleCalls, n = c.caller ∨ n = c.callee := by
  simp only [names, List.mem_append, List.mem_map, List.mem_flatMap, List.mem_cons,
    List.not_mem_nil, or_false, eq_comm]

theorem mem_names_ofRecords {records : List Record} {n : ModuleName}
    (h : n ∈ (ofRecords records).names) : ∃ r ∈ records, n ∈ r.names := by
  have reflects := reflects_ofRecords records
  rw [mem_names, reflects.modules, reflects.moduleEdges, reflects.calls, reflects.moduleCalls] at h
  rcases h with ⟨m, hm, rfl⟩ | ⟨e, he, hn⟩ | ⟨f, hf, rfl⟩ | ⟨c, hc, hn⟩ | ⟨c, hc, hn⟩
  · obtain ⟨r, hr, rfl⟩ := List.mem_map.mp hm
    exact ⟨r, hr, Record.mem_names.mpr (.inl rfl)⟩
  · obtain ⟨r, hr, he⟩ := List.mem_flatMap.mp (List.mem_filter.mp (List.mem_eraseDups.mp he)).1
    obtain ⟨source, target⟩ := Record.mem_names_of_edge he
    rcases hn with rfl | rfl
    · exact ⟨r, hr, source⟩
    · exact ⟨r, hr, target⟩
  · obtain ⟨r, hr, hf⟩ := List.mem_flatMap.mp ((reflects.mem_functions f).mp hf)
    exact ⟨r, hr, Record.mem_names.mpr (.inl (Record.mem_map_function.mp hf).1)⟩
  · obtain ⟨r, hr, hc⟩ := List.mem_flatMap.mp hc
    exact ⟨r, hr, Record.mem_names.mpr (.inr (.inl ⟨c, hc, hn⟩))⟩
  · obtain ⟨r, hr, hc⟩ := List.mem_flatMap.mp (List.mem_filter.mp (List.mem_eraseDups.mp hc)).1
    obtain ⟨call, hcall, rfl⟩ := List.mem_map.mp hc
    rcases hn with rfl | rfl
    · exact ⟨r, hr, Record.mem_names.mpr (.inl rfl)⟩
    · exact ⟨r, hr, Record.mem_names.mpr (.inr (.inl ⟨call, hcall, .inr rfl⟩))⟩

theorem mem_names_internal {a : Atlas} {n : ModuleName} (h : n ∈ a.internal.names) :
    n ∈ a.names := by
  rw [mem_names] at h ⊢
  rcases h with h | ⟨e, he, hn⟩ | ⟨f, hf, hn⟩ | ⟨c, hc, hn⟩ | ⟨c, hc, hn⟩
  · exact .inl h
  · exact .inr (.inl ⟨e, (List.mem_filter.mp he).1, hn⟩)
  · exact .inr (.inr (.inl ⟨f, (List.mem_filter.mp hf).1, hn⟩))
  · exact .inr (.inr (.inr (.inl ⟨c, (List.mem_filter.mp hc).1, hn⟩)))
  · exact .inr (.inr (.inr (.inr ⟨c, (List.mem_filter.mp hc).1, hn⟩)))

theorem mem_names_survey {internalOnly : Bool} {records : List Record} {n : ModuleName}
    (h : n ∈ (survey internalOnly records).value.names) : ∃ r ∈ records, n ∈ r.names := by
  cases internalOnly with
  | true => exact mem_names_ofRecords (mem_names_internal h)
  | false => exact mem_names_ofRecords h

end Atlas

/-! ### Sources -/

theorem canonical_ofSource {s : Source} {records : List Record}
    (h : (Record.ofSource s).value = .ok records) :
    ∀ r ∈ records, ∀ n ∈ r.names, n.Canonical := by
  obtain ⟨t, ht, rfl⟩ := ofSource_eq_ok h
  refine List.forall_mem_map.mpr ?_
  intro d hd
  obtain ⟨name, segments⟩ := canonical_definitions ht d hd
  exact canonical_names name segments

/-- A saved document is shown as the atlas that it was made from. -/
theorem content_of_saved {t : FileTree} {o : Options} {a : Atlas} {saved : Bytes}
    (restored : Document.parse saved = .ok a) (graph : o.graph ≠ .records)
    (given : o.fromJson ≠ []) (file : t.read? o.fromJson = some saved) :
    (Run.content t o).value = some (Run.render o a).value := by
  have nonempty : (!o.fromJson.isEmpty) = true := by simpa using given
  rw [Run.content, if_neg graph, if_pos nonempty, Run.fromDocument, file]
  simp only [Document.load, restored]
  rfl

/-- Of any sources that are accepted, all names in the records are read back from their text, and
so are the targets of the alias table at every step of the walk over a module. So the atlas of the
sources, or its part between their modules, is read back from the document that it is saved in, and
whatever is drawn from that document is drawn as from the atlas itself. -/
theorem saved_survey_restored {sources : List Source} {perSource : List (List Record)}
    (accepted : sources.mapM (fun s => (Record.ofSource s).value) = .ok perSource) :
    let records := perSource.flatten
    (∀ r ∈ records, ∀ n ∈ r.names, ModuleName.parse n.toText = n) ∧
    (∀ s ∈ sources, ∀ root, Grammar.parse s = .ok root →
      ∀ d ∈ definitionsIn .unknown root, ∀ n,
        ∀ e ∈ (Reading.ofEvents d.1 ((Event.ofModule d.2).take n)).aliases,
          ModuleName.parse e.2.toText = e.2) ∧
    ∀ internalOnly : Bool,
      let atlas := (Atlas.survey internalOnly records).value
      let saved := (Document.ofAtlas .all atlas).pretty 2
      Document.parse saved = .ok atlas ∧
      ∀ (t : FileTree) (o : Options), o.graph ≠ .records → o.fromJson ≠ [] →
        t.read? o.fromJson = some saved →
        (Run.content t o).value = some (Run.render o atlas).value := by
  intro records
  have canonical : ∀ r ∈ records, ∀ n ∈ r.names, n.Canonical := by
    intro r hr
    obtain ⟨ofFile, hfile, hr⟩ := List.mem_flatten.mp hr
    obtain ⟨s, -, hs⟩ := exists_of_mapM accepted ofFile hfile
    exact canonical_ofSource hs r hr
  refine ⟨?_, ?_, ?_⟩
  · intro r hr n hn
    exact ModuleName.canonical_iff.mp (canonical r hr n hn)
  · intro s _ root hroot d hd n e he
    obtain ⟨name, segments⟩ := canonical_definitions hroot d hd
    have events : ∀ event ∈ (Event.ofModule d.2).take n, event.SegmentsHold :=
      fun event h => Event.segmentsHold_ofModule segments event (List.mem_of_mem_take h)
    exact ModuleName.canonical_iff.mp ((Reading.canonical_ofEvents name events).aliases e he)
  · intro internalOnly atlas saved
    have names : ∀ n ∈ atlas.names, n.Canonical := by
      intro n hn
      obtain ⟨r, hr, hn⟩ := Atlas.mem_names_survey hn
      exact canonical r hr n hn
    have restored : Document.parse saved = .ok atlas := Document.parse_pretty_ofAtlas .all 2 names
    exact ⟨restored, fun t o => content_of_saved restored⟩

/-- Two files, in which names are written with an alias, as atoms and by the module itself. -/
def sampleSources : List Source :=
  [⟨text "a.ex", text
      ("defmodule A.B do\n  alias C.D\n  def f, do: D.g(:ets.new(), :\"Elixir.E\".h())\n" ++
        "  defmodule I do\n    def j, do: __MODULE__.k()\n  end\nend\n")⟩,
    ⟨text "d.ex", text "defmodule C.D do\n  def g(x, y), do: x.(y)\nend\n"⟩]

/-- The file that the atlas of the sample is saved in. -/
def sampleTree (saved : Bytes) : FileTree := { items := [(text "saved.json", .file saved)] }

theorem sampleSources_restored :
    ∃ perSource, sampleSources.mapM (fun s => (Record.ofSource s).value) = .ok perSource ∧
      ∀ internalOnly format, ∀ graph ≠ GraphKind.records, ∀ prune,
        let atlas := (Atlas.survey internalOnly perSource.flatten).value
        let saved := (Document.ofAtlas .all atlas).pretty 2
        let options : Options := { fromJson := text "saved.json", format, graph, prune }
        (Run.content (sampleTree saved) options).value = some (Run.render options atlas).value := by
  have ok : (sampleSources.mapM fun s => (Record.ofSource s).value).toOption.isSome := by
    decide +kernel
  cases h : sampleSources.mapM fun s => (Record.ofSource s).value with
  | error e => simp [h, Except.toOption] at ok
  | ok perSource =>
    refine ⟨perSource, rfl, ?_⟩
    intro internalOnly format graph hgraph prune atlas saved options
    have given : text "saved.json" ≠ [] := by decide
    exact ((saved_survey_restored h).2.2 internalOnly).2 (sampleTree saved) options hgraph given rfl

end CallAtlas
