import CallAtlas.Proofs.Alias
import Mathlib.Data.List.Forall2

/-! # Aliases in braces

`alias Base.{A, B.C}` stands for `alias Base.A` and `alias Base.B.C`, one after the other. The two
are not read alike: the name before the braces is never looked up in the table, but a single alias
looks up its first segment in the table that those before it have left. They agree as long as that
segment is no short name, neither at the start nor by one of the entries.
-/
namespace CallAtlas

theorem ModuleName.concat_elixir (head : Bytes) (more segments : List Bytes) :
    (elixir head more).concat segments = elixir head (more ++ segments) := by
  cases segments <;> simp [concat]

theorem ModuleName.concat_unknown (segments : List Bytes) : unknown.concat segments = unknown := by
  cases segments <;> rfl

theorem ModuleName.concat_concat (name : ModuleName) (segments more : List Bytes) :
    (name.concat segments).concat more = name.concat (segments ++ more) := by
  cases name <;> cases segments <;> cases more <;> simp [concat]

/-- Behind an atom no segment can follow. -/
theorem ModuleName.isErlang_concat (name : ModuleName) {segments : List Bytes}
    (nonempty : segments ≠ []) : (name.concat segments).isErlang = false := by
  cases segments with
  | nil => contradiction
  | cons segment more => cases name <;> rfl

theorem segmentNames_eq_some_iff {ts : List Tree} {names : List Bytes} :
    segmentNames? ts = some names ↔
      (∀ t ∈ ts, t.form = .aliasSegment) ∧ ts.map (·.name) = names := by
  induction ts generalizing names with
  | nil => simp [segmentNames?]
  | cons t ts ih =>
    simp only [segmentNames?, Option.ite_none_right_eq_some, Option.map_eq_some_iff, ih,
      List.forall_mem_cons, List.map_cons]
    constructor
    · rintro ⟨segment, _, ⟨rest, rfl⟩, rfl⟩
      exact ⟨⟨segment, rest⟩, rfl⟩
    · rintro ⟨⟨segment, rest⟩, rfl⟩
      exact ⟨segment, _, ⟨rest, rfl⟩, rfl⟩

theorem segmentNames_append {ts us : List Tree} {names more : List Bytes}
    (ht : segmentNames? ts = some names) (hu : segmentNames? us = some more) :
    segmentNames? (ts ++ us) = some (names ++ more) := by
  rw [segmentNames_eq_some_iff] at ht hu ⊢
  rw [List.forall_mem_append, List.map_append, ht.2, hu.2]
  exact ⟨⟨ht.1, hu.1⟩, rfl⟩

/-! ### Names before and in braces -/

/-- What further segments are put behind: the children of a module reference, or else the tree. -/
def referenceParts (t : Tree) : List Tree := if t.form = .aliases then t.children else [t]

/-- A name before braces that is written out: segments, or the module itself and then segments. -/
inductive IsBase (base : Tree) : Prop
  | self (form : base.form = .moduleSelf)
  | reference {head : Tree} {more : List Tree} (form : base.form = .aliases)
      (children : base.children = head :: more)
      (start : head.form = .aliasSegment ∨ head.form = .moduleSelf)
      (segments : (segmentNames? more).isSome)

/-- The reference `Base.Entry`. -/
structure IsMember (base entry member : Tree) : Prop where
  form : member.form = .aliases
  children : member.children = referenceParts base ++ entry.children

/-- The short name that an entry in braces gives, its last segment. -/
def entryName? (entry : Tree) : Option Bytes := (literalSegments? entry).bind (·.getLast?)

theorem literalSegments_eq_some {t : Tree} {segments : List Bytes}
    (h : literalSegments? t = some segments) :
    t.children ≠ [] ∧ segmentNames? t.children = some segments := by
  unfold literalSegments? at h
  split at h
  · rename_i reference
    exact ⟨by simpa using (Bool.and_eq_true_iff.mp reference).2, h⟩
  · cases h

/-- An entry that is written out ends in a segment. -/
theorem getLast_of_literalSegments {t : Tree} {segments : List Bytes}
    (h : literalSegments? t = some segments) :
    ∃ last, t.children.getLast? = some last ∧ last.form = .aliasSegment ∧
      segments.getLast? = some last.name := by
  obtain ⟨nonempty, names⟩ := literalSegments_eq_some h
  obtain ⟨form, rfl⟩ := segmentNames_eq_some_iff.mp names
  have last := List.getLast?_eq_some_getLast nonempty
  exact ⟨_, last, form _ (List.mem_of_getLast? last), by rw [List.getLast?_map, last]; rfl⟩

/-- A member stands for the base and the segments of its entry: of its first segment, if it has one,
the table says nothing. -/
theorem resolve_member {current : ModuleName} {aliases : AliasTable} {base entry member : Tree}
    {segments : List Bytes} (written : IsBase base) (hm : IsMember base entry member)
    (hs : literalSegments? entry = some segments)
    (fresh : ∀ head, headSegment? base = some head → aliases.find? head = none) :
    resolve current aliases member = (resolve current [] base).concat segments := by
  have names := (literalSegments_eq_some hs).2
  obtain ⟨form, children⟩ := hm
  obtain ⟨_, _, _, _, _, _⟩ := member
  obtain ⟨baseForm, span, name, baseChildren, parens, interpolated⟩ := base
  dsimp only at form children
  subst form children
  rcases written with self | @⟨head, more, reference, baseParts, start, rest⟩
  · dsimp only at self
    subst self
    simp [referenceParts, resolve, names]
  · obtain ⟨before, hbefore⟩ := Option.isSome_iff_exists.mp rest
    dsimp only at reference baseParts
    subst reference baseParts
    have all := segmentNames_append hbefore names
    rcases start with segment | self
    · have absent := fresh head.name (by simp [headSegment?, hbefore, segment])
      simp [referenceParts, resolve, all, hbefore, segment, absent, Table.find?,
        ModuleName.concat_elixir]
    · obtain ⟨_, _, _, _, _, _⟩ := head
      dsimp only at self
      subst self
      simp [referenceParts, resolve, all, hbefore, ModuleName.concat_concat]

namespace AliasTable

/-! ### One entry and all entries -/

theorem addEntries_cons (aliases : AliasTable) (base : ModuleName) (entry : Tree)
    (entries : List Tree) :
    aliases.addEntries base (entry :: entries) =
      (aliases.addEntries base [entry]).addEntries base entries := rfl

theorem addEntries_entry {aliases : AliasTable} {base : ModuleName} {entry : Tree}
    {segments : List Bytes} {short : Bytes} (hs : literalSegments? entry = some segments)
    (hl : segments.getLast? = some short) :
    aliases.addEntries base [entry] =
      if base.concat segments = .unknown then aliases
      else aliases.insert short (base.concat segments) := by
  simp only [addEntries, List.foldl_cons, List.foldl_nil, hs, hl]
  cases base.concat segments <;> simp

/-- A name that no entry gives is looked up as before. -/
theorem find_addEntries_of_ne {aliases : AliasTable} {base : ModuleName} {entries : List Tree}
    {name : Bytes} (other : ∀ entry ∈ entries, entryName? entry ≠ some name) :
    (aliases.addEntries base entries).find? name = aliases.find? name := by
  induction entries generalizing aliases with
  | nil => rfl
  | cons entry entries ih =>
    obtain ⟨first, rest⟩ := List.forall_mem_cons.mp other
    rw [addEntries_cons, ih rest]
    cases hs : literalSegments? entry with
    | none => simp [addEntries, hs]
    | some segments =>
      obtain ⟨last, -, -, hl⟩ := getLast_of_literalSegments hs
      have ne : name ≠ last.name := by
        rintro rfl
        simp [entryName?, hs, hl] at first
      rw [addEntries_entry hs hl]
      split
      · rfl
      · exact Table.find?_insert_of_ne ne _ aliases

/-- Of the entries that give a name the last one wins. -/
theorem find_addEntries_last {aliases : AliasTable} {base : ModuleName}
    {before rest : List Tree} {entry : Tree} {segments : List Bytes} {short : Bytes}
    (hs : literalSegments? entry = some segments) (hl : segments.getLast? = some short)
    (last : ∀ other ∈ rest, entryName? other ≠ some short)
    (known : base.concat segments ≠ .unknown) :
    (aliases.addEntries base (before ++ entry :: rest)).find? short =
      some (base.concat segments) := by
  have split : aliases.addEntries base (before ++ entry :: rest) =
      (aliases.addEntries base before).addEntries base (entry :: rest) := List.foldl_append
  rw [split, addEntries_cons, find_addEntries_of_ne last, addEntries_entry hs hl, if_neg known]
  exact Table.find?_insert_self short _ _

/-- The alias for a member adds what its entry in braces adds. -/
theorem update_member {current : ModuleName} {aliases : AliasTable} {base entry member : Tree}
    {segments : List Bytes} (written : IsBase base) (hm : IsMember base entry member)
    (hs : literalSegments? entry = some segments)
    (fresh : ∀ head, headSegment? base = some head → aliases.find? head = none) :
    aliases.update current member none =
      aliases.addEntries (resolve current [] base) [entry] := by
  obtain ⟨last, hlast, segment, hl⟩ := getLast_of_literalSegments hs
  have resolved : resolve current aliases member = (resolve current [] base).concat segments :=
    resolve_member written hm hs fresh
  have nonempty : segments ≠ [] := by
    rintro rfl
    cases hl
  rw [addEntries_entry hs hl]
  split
  · rename_i unknown
    exact update_of_unknown hm.form (resolved.trans unknown)
  · rename_i known
    have ends : member.children.getLast? = some last := by
      rw [hm.children, List.getLast?_append, hlast]
      rfl
    rw [update_of_known hm.form (resolved ▸ known), resolved,
      ModuleName.isErlang_concat _ nonempty, ends]
    simp [segment]

theorem addEntries_unknown (aliases : AliasTable) (entries : List Tree) :
    aliases.addEntries .unknown entries = aliases := by
  induction entries with
  | nil => rfl
  | cons entry entries ih =>
    rw [addEntries_cons]
    cases hs : literalSegments? entry with
    | none => simpa [addEntries, hs] using ih
    | some segments =>
      obtain ⟨last, -, -, hl⟩ := getLast_of_literalSegments hs
      rw [addEntries_entry hs hl, if_pos (ModuleName.concat_unknown segments), ih]

theorem update_of_braces {current : ModuleName} {aliases : AliasTable} {target base : Tree}
    {entries : List Tree} (form : target.form = .multiAlias)
    (children : target.children = base :: entries) (options : Option Tree) :
    aliases.update current target options =
      aliases.addEntries (resolve current [] base) entries := by
  simp only [update, form, children]
  cases resolve current [] base with
  | elixir head more => rfl
  | erlang atom => rfl
  | unknown => exact (addEntries_unknown aliases entries).symm

/-- The aliases for the members, one after another, add what all entries add. The first segment of
the base stays out of the table, since no entry gives it as a short name. -/
theorem foldl_update_members {current : ModuleName} {aliases : AliasTable} {base : Tree}
    {entries members : List Tree} (written : IsBase base)
    (literal : ∀ entry ∈ entries, (literalSegments? entry).isSome)
    (each : List.Forall₂ (IsMember base) entries members)
    (fresh : ∀ head, headSegment? base = some head →
      aliases.find? head = none ∧ ∀ entry ∈ entries, entryName? entry ≠ some head) :
    members.foldl (fun table member => table.update current member none) aliases =
      aliases.addEntries (resolve current [] base) entries := by
  induction each generalizing aliases with
  | nil => rfl
  | @cons entry member entries members hm _ ih =>
    obtain ⟨first, rest⟩ := List.forall_mem_cons.mp literal
    obtain ⟨segments, hs⟩ := Option.isSome_iff_exists.mp first
    have here : aliases.update current member none =
        aliases.addEntries (resolve current [] base) [entry] :=
      update_member written hm hs fun head hh => (fresh head hh).1
    rw [List.foldl_cons, here, addEntries_cons]
    apply ih rest
    intro head hh
    obtain ⟨absent, other⟩ := fresh head hh
    obtain ⟨ne, others⟩ := List.forall_mem_cons.mp other
    exact ⟨(find_addEntries_of_ne (List.forall_mem_singleton.mpr ne)).trans absent, others⟩

end AliasTable

/-- An alias with braces gives the table of the aliases for its members, one after another, if the
first segment of its base is neither in the table nor the last segment of an entry. A short name
stands for the last entry that gives it, and a name that no entry gives for what it did. -/
theorem braces_eq_members (aliases : AliasTable) (current : ModuleName) {target base : Tree}
    {entries members : List Tree} (form : target.form = .multiAlias)
    (children : target.children = base :: entries) (options : Option Tree) (written : IsBase base)
    (literal : ∀ entry ∈ entries, (literalSegments? entry).isSome)
    (each : List.Forall₂ (IsMember base) entries members)
    (fresh : ∀ head, headSegment? base = some head →
      aliases.find? head = none ∧ ∀ entry ∈ entries, entryName? entry ≠ some head) :
    let module := resolve current [] base
    let after := aliases.update current target options
    after = members.foldl (fun table member => table.update current member none) aliases ∧
    (∀ before entry rest segments short, entries = before ++ entry :: rest →
      literalSegments? entry = some segments → segments.getLast? = some short →
      (∀ other ∈ rest, entryName? other ≠ some short) → module.concat segments ≠ .unknown →
      after.find? short = some (module.concat segments)) ∧
    ∀ short, (∀ entry ∈ entries, entryName? entry ≠ some short) →
      after.find? short = aliases.find? short := by
  intro module after
  have braces : after = aliases.addEntries module entries :=
    AliasTable.update_of_braces form children options
  rw [braces]
  refine ⟨(AliasTable.foldl_update_members written literal each fresh).symm, ?_, ?_⟩
  · rintro before entry rest segments short rfl hs hl last known
    exact AliasTable.find_addEntries_last hs hl last known
  · intro short other
    exact AliasTable.find_addEntries_of_ne other

/-- A reference with the given segments. -/
def writtenReference (names : List String) : Tree :=
  { form := .aliases, span := default
    children := names.map fun name =>
      { form := .aliasSegment, span := default, name := text name } }

/-- `alias MyApp.{User, Admin.User}` under a table that has `User` already: both members give the
name `User`, and the second has it in the end. -/
theorem userBraces_eq_members :
    let old : AliasTable := [(text "User", .elixir (text "Old") [])]
    let base := writtenReference ["MyApp"]
    let entries := [["User"], ["Admin", "User"]].map writtenReference
    let members := [["MyApp", "User"], ["MyApp", "Admin", "User"]].map writtenReference
    let target : Tree := { form := .multiAlias, span := default, children := base :: entries }
    let after := old.update .unknown target none
    after = members.foldl (fun table member => table.update .unknown member none) old ∧
    after.find? (text "User") = some (.elixir (text "MyApp") [text "Admin", text "User"]) := by
  intro old base entries members target after
  have written : IsBase base := .reference rfl rfl (.inl rfl) rfl
  have literal : ∀ entry ∈ entries, (literalSegments? entry).isSome := by decide
  have each : List.Forall₂ (IsMember base) entries members :=
    .cons ⟨rfl, rfl⟩ (.cons ⟨rfl, rfl⟩ .nil)
  have fresh : ∀ head, headSegment? base = some head →
      old.find? head = none ∧ ∀ entry ∈ entries, entryName? entry ≠ some head := by
    intro head hh
    obtain rfl : text "MyApp" = head := Option.some.inj hh
    decide
  have form : target.form = .multiAlias := rfl
  obtain ⟨same, last, -⟩ :=
    braces_eq_members old .unknown form rfl none written literal each fresh
  refine ⟨same, ?_⟩
  exact last [writtenReference ["User"]] (writtenReference ["Admin", "User"]) []
    [text "Admin", text "User"] (text "User") rfl rfl rfl (by simp) (by decide)

end CallAtlas
