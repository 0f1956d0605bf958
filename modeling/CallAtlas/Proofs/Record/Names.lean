import CallAtlas.Proofs.Alias
import CallAtlas.Proofs.Grammar.Segments
import CallAtlas.Proofs.Name
import CallAtlas.Proofs.Record.Events
import CallAtlas.Proofs.Table
import CallAtlas.Proofs.Token.Segments
import CallAtlas.Record.OfSource

/-! # The names in records are canonical

A name in a record comes from a module reference: it is put together from segments, from what an
atom or an entry of the alias table stands for, and from the name of the module around it. If all
segments in a tree can be told apart, so can those of every name that the walk over the tree meets,
whether it is noted in a record or only in the alias table on the way.
-/
namespace CallAtlas

open ModuleName (IsSegment Canonical)

/-! ### Resolving -/

theorem isSegment_of_segmentNames {ts : List Tree} {names : List Bytes}
    (h : segmentNames? ts = some names) (hts : ∀ t ∈ ts, t.SegmentsHold IsSegment) :
    ∀ s ∈ names, IsSegment s := by
  induction ts generalizing names with
  | nil =>
    cases h
    simp
  | cons t ts ih =>
    obtain ⟨first, rest⟩ := List.forall_mem_cons.mp hts
    rw [segmentNames?] at h
    split at h
    · rename_i hform
      obtain ⟨more, hmore, rfl⟩ := Option.map_eq_some_iff.mp h
      exact List.forall_mem_cons.mpr ⟨(Tree.segmentsHold_iff.mp first).1 hform, ih hmore rest⟩
    · cases h

theorem isSegment_of_literalSegments {t : Tree} {names : List Bytes}
    (h : literalSegments? t = some names) (ht : t.SegmentsHold IsSegment) :
    ∀ s ∈ names, IsSegment s := by
  unfold literalSegments? at h
  split at h
  · exact isSegment_of_segmentNames h ht.children
  · cases h

/-- All targets of a table are canonical. -/
def AliasTable.Canonical (aliases : AliasTable) : Prop := ∀ e ∈ aliases, e.2.Canonical

namespace AliasTable

theorem Canonical.find {aliases : AliasTable} (h : aliases.Canonical) {short : Bytes}
    {module : ModuleName} (hf : Table.find? short aliases = some module) : module.Canonical :=
  h _ (Table.mem_of_find? hf)

theorem Canonical.insert {aliases : AliasTable} (h : aliases.Canonical) (short : Bytes)
    {module : ModuleName} (hm : module.Canonical) :
    Canonical (Table.insert short module aliases) := by
  intro e he
  rcases Table.mem_insert he with rfl | he
  · exact hm
  · exact h e he

end AliasTable

theorem canonical_resolve {current : ModuleName} {aliases : AliasTable} {t : Tree}
    (hc : current.Canonical) (ha : aliases.Canonical) (ht : t.SegmentsHold IsSegment) :
    (resolve current aliases t).Canonical := by
  fun_induction resolve current aliases t with
  | case1 => trivial
  | case2 _ _ head more _ _ segments hs _ module hf =>
    obtain ⟨-, rest⟩ := List.forall_mem_cons.mp ht.children
    exact (ha.find hf).concat (isSegment_of_segmentNames hs rest)
  | case3 _ _ head more _ _ segments hs hform _ =>
    obtain ⟨first, rest⟩ := List.forall_mem_cons.mp ht.children
    exact ModuleName.canonical_elixir ((Tree.segmentsHold_iff.mp first).1 hform)
      (isSegment_of_segmentNames hs rest)
  | case4 _ _ head more _ _ segments hs _ ih =>
    obtain ⟨first, rest⟩ := List.forall_mem_cons.mp ht.children
    exact (ih first).concat (isSegment_of_segmentNames hs rest)
  | case5 => exact hc
  | case6 => exact ModuleName.canonical_ofAtom _
  | case7 _ argument _ _ ih => exact ih (List.forall_mem_singleton.mp ht.children)
  | case8 => trivial
  | case9 => trivial

namespace AliasTable

theorem canonical_nil : Canonical [] := by
  intro e he
  cases he

theorem Canonical.addEntries {aliases : AliasTable} (h : aliases.Canonical) {base : ModuleName}
    (hb : base.Canonical) {entries : List Tree}
    (hs : ∀ t ∈ entries, t.SegmentsHold IsSegment) :
    (aliases.addEntries base entries).Canonical := by
  unfold AliasTable.addEntries
  induction entries generalizing aliases with
  | nil => exact h
  | cons entry entries ih =>
    obtain ⟨first, rest⟩ := List.forall_mem_cons.mp hs
    refine ih ?_ rest
    dsimp only
    split
    · exact h
    · rename_i segments hl
      have full := hb.concat (isSegment_of_literalSegments hl first)
      split
      · exact h
      · exact h
      · exact h.insert _ full

theorem Canonical.update {aliases : AliasTable} (h : aliases.Canonical) {current : ModuleName}
    (hc : current.Canonical) {target : Tree} (ht : target.SegmentsHold IsSegment)
    (options : Option Tree) : (aliases.update current target options).Canonical := by
  have resolved : (resolve current aliases target).Canonical := canonical_resolve hc h ht
  unfold AliasTable.update
  split
  · rename_i base entries _ hchildren
    obtain ⟨first, rest⟩ := List.forall_mem_cons.mp (hchildren ▸ ht.children)
    have hbase := canonical_resolve hc canonical_nil first
    split
    · exact h
    · exact h.addEntries hbase rest
  · split
    · exact h
    · split
      · exact h.insert _ resolved
      · split
        · split
          · exact h.insert _ resolved
          · exact h
        · exact h

end AliasTable

/-! ### Events -/

/-- The module references of an event are made of segments. -/
def Event.SegmentsHold : Event → Prop
  | .definition _ | .sameModuleCall _ _ => True
  | .directive _ target _ => target.SegmentsHold IsSegment
  | .remoteCall receiver _ _ => receiver.SegmentsHold IsSegment

/-- All names that have been read are canonical. -/
structure Reading.Canonical (r : Reading) : Prop where
  aliases : r.aliases.Canonical
  directives : ∀ d ∈ r.directives, d.target.Canonical
  calls : ∀ c ∈ r.calls, c.caller.module.Canonical ∧ c.callee.module.Canonical

namespace Reading

variable {module : ModuleName} {r : Reading}

theorem Canonical.call (h : r.Canonical) (hm : module.Canonical) (kind : CallKind)
    {callee : FunctionName} (hc : callee.module.Canonical) :
    (r.call module kind callee).Canonical := by
  refine { h with calls := ?_ }
  refine List.forall_mem_append.mpr ⟨h.calls, ?_⟩
  intro c hmem
  rw [Option.mem_toList] at hmem
  obtain ⟨f, -, rfl⟩ := Option.map_eq_some_iff.mp hmem
  exact ⟨hm, hc⟩

theorem Canonical.step (h : r.Canonical) (hm : module.Canonical) {e : Event}
    (he : e.SegmentsHold) : (r.step module e).Canonical := by
  cases e with
  | definition f => exact { h with }
  | directive kind target options =>
    refine { h with aliases := ?_, directives := ?_ }
    · unfold Reading.step
      dsimp only
      split
      · exact h.aliases.update hm he options
      · exact h.aliases
    · refine List.forall_mem_append.mpr ⟨h.directives, List.forall_mem_singleton.mpr ?_⟩
      exact canonical_resolve hm h.aliases he
  | sameModuleCall name arity => exact h.call hm .sameModule hm
  | remoteCall receiver name arity =>
    exact h.call hm .remote (canonical_resolve hm h.aliases he)

theorem Canonical.foldl (h : r.Canonical) (hm : module.Canonical) {events : List Event}
    (he : ∀ e ∈ events, e.SegmentsHold) : (events.foldl (Reading.step module) r).Canonical := by
  induction events generalizing r with
  | nil => exact h
  | cons e events ih =>
    obtain ⟨first, rest⟩ := List.forall_mem_cons.mp he
    exact ih (h.step hm first) rest

theorem canonical_ofEvents (hm : module.Canonical) {events : List Event}
    (he : ∀ e ∈ events, e.SegmentsHold) : (ofEvents module events).Canonical := by
  have start : Canonical {} := ⟨AliasTable.canonical_nil, by simp, by simp⟩
  exact start.foldl hm he

end Reading

mutual

theorem Tree.SegmentsHold.met {P : Bytes → Prop} {t : Tree} (h : t.SegmentsHold P)
    (enters : Tree → Bool) : ∀ n ∈ t.met enters, n.SegmentsHold P := by
  have inside := h.children
  obtain ⟨form, span, name, children, parens, interpolated⟩ := t
  rw [Tree.met]
  refine List.forall_mem_cons.mpr ⟨h, ?_⟩
  split
  · exact Tree.segmentsHold_metIn inside enters
  · simp

theorem Tree.segmentsHold_metIn {P : Bytes → Prop} {ts : List Tree}
    (h : ∀ t ∈ ts, t.SegmentsHold P) (enters : Tree → Bool) :
    ∀ n ∈ Tree.metIn enters ts, n.SegmentsHold P := by
  cases ts with
  | nil => simp [Tree.metIn]
  | cons t ts =>
    obtain ⟨first, rest⟩ := List.forall_mem_cons.mp h
    exact List.forall_mem_append.mpr
      ⟨first.met enters, Tree.segmentsHold_metIn rest enters⟩

end

namespace Event

theorem segmentsHold_directive {kind : DirectiveKind} {arguments : List Tree} {e : Event}
    (h : directive? kind arguments = some e)
    (ha : ∀ t ∈ arguments, t.SegmentsHold IsSegment) : e.SegmentsHold := by
  cases arguments with
  | nil => cases h
  | cons target more =>
    obtain rfl := Option.some.inj h
    exact ha target List.mem_cons_self

theorem segmentsHold_inBody {t : Tree} {e : Event} (h : inBody? t = some e)
    (ht : t.SegmentsHold IsSegment) : e.SegmentsHold := by
  unfold inBody? at h
  split at h
  · split at h
    · cases h
    · split at h
      · exact segmentsHold_directive h ht.children
      · split at h
        · cases h
        · obtain rfl := Option.some.inj h
          trivial
  · split at h
    · cases h
    · rename_i receiver arguments hc
      obtain rfl := Option.some.inj h
      exact ht.children receiver (by simp [hc])
  · cases h

theorem segmentsHold_bodies {t : Tree} (h : t.SegmentsHold IsSegment) :
    ∀ b ∈ bodies t, b.SegmentsHold IsSegment :=
  forall_mem_bodies (fun _ ht => ht.children) h

theorem segmentsHold_ofBody {t : Tree} (h : t.SegmentsHold IsSegment) :
    ∀ e ∈ ofBody t, e.SegmentsHold := by
  intro e he
  obtain ⟨n, hn, hb⟩ := List.mem_filterMap.mp he
  exact segmentsHold_inBody hb (h.met entersInBody n hn)

theorem segmentsHold_ofDefinition {t : Tree} (h : t.SegmentsHold IsSegment) :
    ∀ e ∈ ofDefinition t, e.SegmentsHold := by
  unfold ofDefinition
  split
  · simp
  · refine List.forall_mem_cons.mpr ⟨trivial, ?_⟩
    intro e he
    obtain ⟨b, hb, he⟩ := List.mem_flatMap.mp he
    exact segmentsHold_ofBody (segmentsHold_bodies h b hb) e he

theorem segmentsHold_atModuleLevel {t : Tree} (h : t.SegmentsHold IsSegment) :
    ∀ e ∈ atModuleLevel t, e.SegmentsHold := by
  unfold atModuleLevel
  split
  · split
    · exact segmentsHold_ofDefinition h
    · intro e he
      rw [Option.mem_toList] at he
      obtain ⟨kind, -, he⟩ := Option.bind_eq_some_iff.mp he
      exact segmentsHold_directive he h.children
  · simp

/-- The references in the events of a module definition are made of its segments. -/
theorem segmentsHold_ofModule {t : Tree} (h : t.SegmentsHold IsSegment) :
    ∀ e ∈ ofModule t, e.SegmentsHold := by
  intro e he
  obtain ⟨b, hb, he⟩ := List.mem_flatMap.mp he
  obtain ⟨n, hn, he⟩ := List.mem_flatMap.mp he
  exact segmentsHold_atModuleLevel ((segmentsHold_bodies h b hb).met _ n hn) e he

end Event

/-! ### Records -/

/-- The name of the module that a definition inside `enclosing` defines. -/
def definedName (enclosing : ModuleName) (definition : Tree) : ModuleName :=
  (definition.children.head?.map (resolve enclosing [])).getD .unknown

theorem extract_value (file : Bytes) (enclosing : ModuleName) (definition : Tree) :
    (extract file enclosing definition).value =
      (Survey.ofModule (definedName enclosing definition) definition).record file := rfl

theorem name_record (file : Bytes) (module : ModuleName) (definition : Tree) :
    ((Survey.ofModule module definition).record file).name = module :=
  (Survey.agrees_ofModule module definition).module

mutual

/-- The module definitions in a tree inside `enclosing`, each with the name it defines and before
those nested in it. -/
def definitionsIn (enclosing : ModuleName) : Tree → List (ModuleName × Tree)
  | ⟨form, span, name, children, parens, interpolated⟩ =>
    let t : Tree := ⟨form, span, name, children, parens, interpolated⟩
    if definesModule t then
      (definedName enclosing t, t) :: definitionsInAll (definedName enclosing t) children
    else definitionsInAll enclosing children

def definitionsInAll (enclosing : ModuleName) : List Tree → List (ModuleName × Tree)
  | [] => []
  | t :: ts => definitionsIn enclosing t ++ definitionsInAll enclosing ts

end

mutual

theorem recordsIn_eq_map (file : Bytes) (enclosing : ModuleName) (t : Tree) :
    (recordsIn file enclosing t).value =
      (definitionsIn enclosing t).map fun d => (Survey.ofModule d.1 d.2).record file := by
  obtain ⟨form, span, name, children, parens, interpolated⟩ := t
  let t : Tree := ⟨form, span, name, children, parens, interpolated⟩
  rw [recordsIn, definitionsIn]
  split
  · change (extract file enclosing t).value ::
      (recordsInAll file (extract file enclosing t).value.name children).value = _
    rw [extract_value, name_record, recordsInAll_eq_map]
    rfl
  · exact recordsInAll_eq_map file enclosing children

theorem recordsInAll_eq_map (file : Bytes) (enclosing : ModuleName) (ts : List Tree) :
    (recordsInAll file enclosing ts).value =
      (definitionsInAll enclosing ts).map fun d => (Survey.ofModule d.1 d.2).record file := by
  cases ts with
  | nil => rfl
  | cons t ts =>
    rw [recordsInAll, definitionsInAll, List.map_append, ← recordsIn_eq_map,
      ← recordsInAll_eq_map]
    rfl

end

theorem canonical_definedName {enclosing : ModuleName} (he : enclosing.Canonical) {t : Tree}
    (ht : t.SegmentsHold IsSegment) : (definedName enclosing t).Canonical := by
  unfold definedName
  cases hc : t.children with
  | nil => trivial
  | cons name more =>
    exact canonical_resolve he AliasTable.canonical_nil (ht.children name (by simp [hc]))

mutual

theorem canonical_definitionsIn {enclosing : ModuleName} (he : enclosing.Canonical) {t : Tree}
    (ht : t.SegmentsHold IsSegment) :
    ∀ d ∈ definitionsIn enclosing t, d.1.Canonical ∧ d.2.SegmentsHold IsSegment := by
  have inside := ht.children
  have named := canonical_definedName he ht
  obtain ⟨form, span, name, children, parens, interpolated⟩ := t
  rw [definitionsIn]
  split
  · exact List.forall_mem_cons.mpr ⟨⟨named, ht⟩, canonical_definitionsInAll named inside⟩
  · exact canonical_definitionsInAll he inside

theorem canonical_definitionsInAll {enclosing : ModuleName} (he : enclosing.Canonical)
    {ts : List Tree} (hts : ∀ t ∈ ts, t.SegmentsHold IsSegment) :
    ∀ d ∈ definitionsInAll enclosing ts, d.1.Canonical ∧ d.2.SegmentsHold IsSegment := by
  cases ts with
  | nil => simp [definitionsInAll]
  | cons t ts =>
    obtain ⟨first, rest⟩ := List.forall_mem_cons.mp hts
    exact List.forall_mem_append.mpr
      ⟨canonical_definitionsIn he first, canonical_definitionsInAll he rest⟩

end

/-- The names of modules in a record. -/
def Record.names (r : Record) : List ModuleName :=
  r.name :: ((r.calls.flatMap fun c => [c.caller.module, c.callee.module]) ++
    r.directives.map (·.target))

theorem canonical_names {file : Bytes} {module : ModuleName} {definition : Tree}
    (hm : module.Canonical) (hd : definition.SegmentsHold IsSegment) :
    ∀ n ∈ ((Survey.ofModule module definition).record file).names, n.Canonical := by
  have agrees := Survey.agrees_ofModule module definition
  have reading := Reading.canonical_ofEvents hm (Event.segmentsHold_ofModule hd)
  have calls : ∀ c ∈ ((Survey.ofModule module definition).record file).calls,
      c.caller.module.Canonical ∧ c.callee.module.Canonical := by
    rw [Survey.record, agrees.calls]
    exact reading.calls
  have directives : ∀ d ∈ ((Survey.ofModule module definition).record file).directives,
      d.target.Canonical := by
    rw [Survey.record, agrees.directives]
    exact reading.directives
  refine List.forall_mem_cons.mpr ⟨by rwa [name_record], ?_⟩
  refine List.forall_mem_append.mpr ⟨?_, List.forall_mem_map.mpr directives⟩
  intro n hn
  obtain ⟨c, hc, hn⟩ := List.mem_flatMap.mp hn
  simp only [List.mem_cons, List.not_mem_nil, or_false] at hn
  rcases hn with rfl | rfl
  · exact (calls c hc).1
  · exact (calls c hc).2

/-- In the tree of a source text all segments can be told apart. -/
theorem segmentsHold_parse {s : Source} {t : Tree} (h : Grammar.parse s = .ok t) :
    t.SegmentsHold IsSegment :=
  Grammar.segmentsHold_parseTokens (Grammar.parseTokens_of_parse h).2 (isSegment_tokenize s)

/-- The module definitions in a source text, with the names they define. -/
theorem canonical_definitions {s : Source} {t : Tree} (h : Grammar.parse s = .ok t) :
    ∀ d ∈ definitionsIn .unknown t, d.1.Canonical ∧ d.2.SegmentsHold IsSegment := by
  have start : ModuleName.unknown.Canonical := trivial
  exact canonical_definitionsIn start (segmentsHold_parse h)

theorem ofSource_eq_ok {s : Source} {records : List Record}
    (h : (Record.ofSource s).value = .ok records) :
    ∃ t, Grammar.parse s = .ok t ∧
      records =
        (definitionsIn .unknown t).map fun d => (Survey.ofModule d.1 d.2).record s.name := by
  unfold Record.ofSource at h
  split at h
  · cases h
  · rename_i t ht
    refine ⟨t, ht, ?_⟩
    rw [← recordsIn_eq_map]
    exact (Except.ok.inj h).symm

end CallAtlas
