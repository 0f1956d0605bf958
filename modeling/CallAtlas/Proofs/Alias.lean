import CallAtlas.Alias
import CallAtlas.Proofs.Grammar.Nodes

/-! # What an alias changes

`alias` gives a module a short name: that of the first usable `as:` option, or else the last segment
of the reference. From then on a reference that starts with the short name stands for the module and
what follows, and all others stand for what they did. Only one segment of a reference is ever looked
up, however deep it stands inside.
-/
namespace CallAtlas

/-! ### Which segment is looked up -/

/-- The segment at the start of a reference, also inside `unquote` and inside a reference that is
the start of another. It is not looked up before segments that are not all written out. -/
def headSegment? : Tree → Option Bytes
  | ⟨.aliases, _, _, head :: more, _, _⟩ =>
    if (segmentNames? more).isNone then none
    else if head.form = .aliasSegment then some head.name
    else headSegment? head
  | ⟨.call, _, name, [argument], _, _⟩ =>
    if name = text "unquote" then headSegment? argument else none
  | _ => none

/-- A reference that does not start with a short name does not see what the name stands for. -/
theorem resolve_insert_of_ne {aliases : AliasTable} {short : Bytes} (module current : ModuleName)
    {reference : Tree} (other : headSegment? reference ≠ some short) :
    resolve current (aliases.insert short module) reference =
      resolve current aliases reference := by
  fun_induction resolve current aliases reference with
  | case1 _ _ head more _ _ hs => simp [resolve, hs]
  | case2 _ _ head more _ _ segments hs hform found hf =>
    have ne : head.name ≠ short := by simpa [headSegment?, hs, hform] using other
    simp [resolve, hs, hform, Table.find?_insert_of_ne ne, hf]
  | case3 _ _ head more _ _ segments hs hform hf =>
    have ne : head.name ≠ short := by simpa [headSegment?, hs, hform] using other
    simp [resolve, hs, hform, Table.find?_insert_of_ne ne, hf]
  | case4 _ _ head more _ _ segments hs hform ih =>
    have inside : headSegment? head ≠ some short := by simpa [headSegment?, hs, hform] using other
    simp [resolve, hs, hform, ih inside]
  | case5 => rfl
  | case6 => rfl
  | case7 _ argument _ _ ih =>
    have inside : headSegment? argument ≠ some short := by simpa [headSegment?] using other
    simpa [resolve] using ih inside
  | case8 _ name argument _ _ hname => simp [resolve, hname]
  | case9 t noRef noSelf noAtom noCall =>
    rw [resolve] <;> assumption

/-- A reference that starts with a short name stands for the module and what follows. -/
theorem resolve_insert_self (aliases : AliasTable) (module current : ModuleName)
    {reference head : Tree} {more : List Tree} {segments : List Bytes}
    (form : reference.form = .aliases) (children : reference.children = head :: more)
    (segment : head.form = .aliasSegment) (names : segmentNames? more = some segments) :
    resolve current (aliases.insert head.name module) reference = module.concat segments := by
  obtain ⟨_, _, _, _, _, _⟩ := reference
  dsimp only at form children
  subst form children
  simp [resolve, names, segment]

/-! ### Short names -/

/-- The pair `as: Short`, whose value is a single segment. -/
def IsRename (pair : Tree) (short : Bytes) : Prop :=
  pair.form = .pair ∧ ∃ key value more, pair.children = key :: value :: more ∧
    key.name = text "as" ∧ ∃ segment, value.form = .aliases ∧ value.children = [segment] ∧
      segment.form = .aliasSegment ∧ segment.name = short

/-- The short name that the options give: that of the first pair that gives one. -/
def Renames (options : Option Tree) (short : Bytes) : Prop :=
  ∃ list ∈ options, list.form = .list ∧ ∃ before pair after,
    list.children = before ++ pair :: after ∧ IsRename pair short ∧
      ∀ other ∈ before, ∀ name, ¬ IsRename other name

/-- The short name that an alias for a reference gives: that of the options, or else the last
segment of the reference. -/
def ShortFor (target : Tree) (options : Option Tree) (short : Bytes) : Prop :=
  Renames options short ∨ (∀ name, ¬ Renames options name) ∧
    ∃ last, target.children.getLast? = some last ∧ last.form = .aliasSegment ∧ last.name = short

theorem literalSegments_eq_singleton_iff {t : Tree} {short : Bytes} :
    literalSegments? t = some [short] ↔
      ∃ segment, t.form = .aliases ∧ t.children = [segment] ∧ segment.form = .aliasSegment ∧
        segment.name = short := by
  obtain ⟨form, span, name, children, parens, interpolated⟩ := t
  match children with
  | [] => simp [literalSegments?]
  | [segment] => simp [literalSegments?, segmentNames?]
  | first :: second :: more => simp [literalSegments?, segmentNames?]

namespace AliasTable

/-- The short name that a pair of the options gives. -/
def renamed? (pair : Tree) : Option Bytes :=
  match pair.form, pair.children with
  | .pair, key :: value :: _ =>
    if key.name = text "as" then
      match literalSegments? value with
      | some [short] => some short
      | _ => none
    else none
  | _, _ => none

theorem renamed_eq_some_iff {pair : Tree} {short : Bytes} :
    renamed? pair = some short ↔ IsRename pair short := by
  obtain ⟨form, span, name, children, parens, interpolated⟩ := pair
  unfold renamed? IsRename
  dsimp only
  split
  · rename_i key value more
    have single : (match literalSegments? value with | some [short] => some short | _ => none) =
        some short ↔ literalSegments? value = some [short] := by
      split <;> simp_all
    simp only [Option.ite_none_right_eq_some, single, literalSegments_eq_singleton_iff]
    constructor
    · rintro ⟨hkey, hvalue⟩
      exact ⟨trivial, key, value, more, rfl, hkey, hvalue⟩
    · rintro ⟨-, _, _, _, hchildren, hkey, hvalue⟩
      cases hchildren
      exact ⟨hkey, hvalue⟩
  · rename_i other
    constructor
    · nofun
    · rintro ⟨rfl, key, value, more, rfl, -⟩
      exact absurd rfl (other key value more rfl)

theorem shortName_eq_some_iff {options : Option Tree} {short : Bytes} :
    options.bind shortName? = some short ↔ Renames options short := by
  have first (list : Tree) : shortName? list = some short ↔ list.form = .list ∧
      ∃ before pair after, list.children = before ++ pair :: after ∧ IsRename pair short ∧
        ∀ other ∈ before, ∀ name, ¬ IsRename other name := by
    change (if list.form = .list then list.children.findSome? renamed? else none) = _ ↔ _
    simp only [Option.ite_none_right_eq_some, List.findSome?_eq_some_iff, renamed_eq_some_iff,
      ← Option.not_isSome_iff_eq_none, Option.isSome_iff_exists, not_exists]
  simp only [Option.bind_eq_some_iff, first, Renames, Option.mem_def]

theorem not_renames_iff {options : Option Tree} :
    (∀ short, ¬ Renames options short) ↔ options.bind shortName? = none := by
  simp only [← shortName_eq_some_iff, ← Option.not_isSome_iff_eq_none, Option.isSome_iff_exists,
    not_exists]

/-! ### The table after an alias -/

section Update

variable {aliases : AliasTable} {current : ModuleName} {target : Tree} {options : Option Tree}

theorem update_of_unknown (form : target.form = .aliases)
    (h : resolve current aliases target = .unknown) :
    aliases.update current target options = aliases := by
  simp [update, form, h]

/-- The table after an alias for a reference that stands for some module. -/
theorem update_of_known (form : target.form = .aliases)
    (h : resolve current aliases target ≠ .unknown) :
    aliases.update current target options =
      match options.bind shortName? with
      | some short => aliases.insert short (resolve current aliases target)
      | none =>
        match (resolve current aliases target).isErlang, target.children.getLast? with
        | false, some last =>
          if last.form = .aliasSegment then
            aliases.insert last.name (resolve current aliases target)
          else aliases
        | _, _ => aliases := by
  unfold update
  split
  · simp_all
  · split
    · contradiction
    · cases options.bind shortName? with
      | some short => rfl
      | none =>
        rw [form]
        cases (resolve current aliases target).isErlang <;> cases target.children.getLast? <;> rfl

theorem update_eq_self (form : target.form = .aliases)
    (h : resolve current aliases target = .unknown ∨
      (resolve current aliases target).isErlang ∧ ∀ short, ¬ Renames options short) :
    aliases.update current target options = aliases := by
  by_cases known : resolve current aliases target = .unknown
  · exact update_of_unknown form known
  · obtain ⟨erlang, plain⟩ := h.resolve_left known
    rw [update_of_known form known, not_renames_iff.mp plain]
    simp [erlang]

theorem update_eq_insert (form : target.form = .aliases)
    (h : ¬ (resolve current aliases target = .unknown ∨
      (resolve current aliases target).isErlang ∧ ∀ short, ¬ Renames options short))
    {short : Bytes} (hs : ShortFor target options short) :
    aliases.update current target options =
      aliases.insert short (resolve current aliases target) := by
  obtain ⟨known, named⟩ := not_or.mp h
  rw [update_of_known form known]
  rcases hs with renamed | ⟨plain, last, hlast, segment, rfl⟩
  · rw [shortName_eq_some_iff.mpr renamed]
  · have noAtom : (resolve current aliases target).isErlang = false := by
      simpa [plain] using named
    rw [not_renames_iff.mp plain, noAtom, hlast]
    simp [segment]

end Update

end AliasTable

/-! ### References of a source -/

/-- The last child of a module reference is a segment. -/
def Tree.EndsInSegment (t : Tree) : Prop :=
  t.form = .aliases → ∃ last, t.children.getLast? = some last ∧ last.form = .aliasSegment

namespace Grammar

theorem getLast_extend (left : Tree) (t : Token) :
    (extend left t).children.getLast? = some (leaf .aliasSegment t t.value) := by
  unfold extend
  dsimp only
  split
  · simp [Tree.append]
  · rfl

theorem besideSegments_endsInSegment : BesideSegments Tree.EndsInSegment where
  plain n plain form := by simp [form, Form.isPlain] at plain
  reference t _ := ⟨leaf .aliasSegment t t.value, rfl, rfl⟩
  extend left t _ := ⟨leaf .aliasSegment t t.value, getLast_extend left t, rfl⟩

theorem endsInSegment_of_parse {s : Source} {t : Tree} (h : parse s = .ok t) :
    ∀ n ∈ t.nodes, n.EndsInSegment :=
  nodesHold_parseTokens besideSegments_endsInSegment (parseTokens_of_parse h).2
    fun _ _ _ form => by cases form

end Grammar

/-- An alias for a module reference of some source. It leaves the table as it is if the reference
stands for no module, or for an atom to which the options give no short name. Otherwise there is a
short name; whatever starts with it stands for the module and the segments that follow, and all
other references stand for what they did. -/
theorem alias_lookup {s : Source} {root target : Tree} (parsed : Grammar.parse s = .ok root)
    (mem : target ∈ root.nodes) (form : target.form = .aliases) (aliases : AliasTable)
    (current : ModuleName) (options : Option Tree) :
    let module := resolve current aliases target
    let after := aliases.update current target options
    let inert := module = .unknown ∨ module.isErlang ∧ ∀ short, ¬ Renames options short
    (∃ short, ShortFor target options short) ∧
    (inert → after = aliases) ∧
    (¬ inert → ∀ short, ShortFor target options short → ∀ around : ModuleName,
      (∀ (reference head : Tree) (more : List Tree) (segments : List Bytes),
        reference.form = .aliases → reference.children = head :: more →
        head.form = .aliasSegment → head.name = short → segmentNames? more = some segments →
        resolve around after reference = module.concat segments) ∧
      ∀ reference : Tree, headSegment? reference ≠ some short →
        resolve around after reference = resolve around aliases reference) := by
  intro module after inert
  refine ⟨?_, AliasTable.update_eq_self form, ?_⟩
  · by_cases renamed : ∃ short, Renames options short
    · exact renamed.imp fun _ => .inl
    · obtain ⟨last, hlast, segment⟩ := Grammar.endsInSegment_of_parse parsed target mem form
      exact ⟨last.name, .inr ⟨not_exists.mp renamed, last, hlast, segment, rfl⟩⟩
  · intro active short hs around
    have inserted : after = aliases.insert short module :=
      AliasTable.update_eq_insert form active hs
    rw [inserted]
    constructor
    · rintro reference head more segments hform hchildren hhead rfl names
      exact resolve_insert_self aliases module around hform hchildren hhead names
    · intro reference other
      exact resolve_insert_of_ne module around other

/-- An alias whose reference starts with another alias. -/
def aliasSource : Source := ⟨text "a.ex", text "alias Repo.Users\n"⟩

/-- What `Repo` stands for is put in, and references to `Repo` itself are left alone. -/
theorem aliasSource_lookup :
    let repo : ModuleName := .elixir (text "MyApp") [text "Repo"]
    let aliases : AliasTable := [(text "Repo", repo)]
    ∃ root target, Grammar.parse aliasSource = .ok root ∧ target ∈ root.nodes ∧
      target.form = .aliases ∧
      resolve .unknown aliases target = .elixir (text "MyApp") [text "Repo", text "Users"] ∧
      ∃ short, ShortFor target none short ∧
        ∀ reference, headSegment? reference ≠ some short →
          resolve .unknown (aliases.update .unknown target none) reference =
            resolve .unknown aliases reference := by
  intro repo aliases
  have found : (Grammar.parse aliasSource).toOption.any fun root => root.nodes.any fun n =>
      n.form = .aliases &&
        resolve .unknown aliases n = .elixir (text "MyApp") [text "Repo", text "Users"] := by
    decide +kernel
  cases h : Grammar.parse aliasSource with
  | error e => simp [h, Except.toOption] at found
  | ok root =>
    simp only [h, Except.toOption, Option.any_some, List.any_eq_true, Bool.and_eq_true,
      decide_eq_true_iff] at found
    obtain ⟨target, mem, form, resolved⟩ := found
    obtain ⟨⟨short, hs⟩, -, law⟩ := alias_lookup h mem form aliases .unknown none
    refine ⟨root, target, rfl, mem, form, resolved, short, hs, (law ?_ short hs .unknown).2⟩
    simp [resolved, ModuleName.isErlang]

end CallAtlas
