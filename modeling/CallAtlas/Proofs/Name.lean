import CallAtlas.Alias
import CallAtlas.Proofs.Bytes

/-! # Names that can be read back

A module's name is written without marks that would tell its parts apart, so not every name can be
read back: a segment with a dot in it looks like two, a first segment with a colon like an atom, and
a lone segment `unknown` like the unknown name. The names without such parts are called canonical,
and they are the ones that reading gives back as they were. All names that are read are canonical,
and so are those that the segments of module references are added to.
-/
namespace CallAtlas

/-! ### Canonical names -/

namespace ModuleName

/-- A name whose segments are told apart when it is written. -/
def Canonical : ModuleName → Prop
  | .unknown | .erlang _ => True
  | .elixir head more =>
    (∀ s ∈ head :: more, s ≠ [] ∧ ('.' : UInt8) ∉ s) ∧ head.head? ≠ some (':' : UInt8) ∧
      (more = [] → head ≠ text "unknown")

theorem toText_elixir_cons (b : UInt8) (bs : Bytes) (more : List Bytes) :
    toText (.elixir (b :: bs) more) = b :: Bytes.join '.' (bs :: more) := by
  cases more with
  | nil => rfl
  | cons next more => rfl

theorem parse_erlang (atom : Bytes) : parse (':' :: atom) = .erlang atom := by
  have other : (':' : UInt8) :: atom ≠ text "unknown" := by
    intro h
    have first : some (':' : UInt8) = (text "unknown").head? := congrArg List.head? h
    exact absurd first (by decide)
  rw [parse, if_neg other]
  rfl

/-- Reading a text that is neither an atom nor the unknown name. -/
theorem parse_of_ne {t : Bytes} (unknown : t ≠ text "unknown")
    (atom : t.head? ≠ some (':' : UInt8)) :
    parse t = if [] ∈ Bytes.fields '.' t then .unknown else ofSegments (Bytes.fields '.' t) := by
  rw [parse.eq_def, if_neg unknown]
  cases t with
  | nil => rfl
  | cons first rest =>
    have hfirst : first ≠ (':' : UInt8) := by simpa using atom
    simp [hfirst]

theorem parse_toText {n : ModuleName} (h : n.Canonical) : parse n.toText = n := by
  match n with
  | .unknown => exact parse_unknown
  | .erlang atom => exact parse_erlang atom
  | .elixir [] more => exact absurd rfl (h.1 [] List.mem_cons_self).1
  | .elixir (b :: bs) more =>
    obtain ⟨segments, colon, alone⟩ := h
    -- no segment has a dot, so the dots of the text are those between the segments
    have fields : Bytes.fields '.' (toText (.elixir (b :: bs) more)) = (b :: bs) :: more :=
      Bytes.fields_join (fun s hs => (segments s hs).2) (List.cons_ne_nil _ _)
    have known : toText (.elixir (b :: bs) more) ≠ text "unknown" := by
      intro ht
      have single : Bytes.fields '.' (text "unknown") = [text "unknown"] := by decide
      rw [ht, single] at fields
      obtain ⟨hhead, hmore⟩ := List.cons.inj fields
      exact alone hmore.symm hhead.symm
    have noAtom : (toText (.elixir (b :: bs) more)).head? ≠ some (':' : UInt8) := by
      rw [toText_elixir_cons]
      exact colon
    rw [parse_of_ne known noAtom, fields, if_neg]
    · rfl
    · intro hmem
      exact (segments [] hmem).1 rfl

/-- Whatever text a name is read from, the name is canonical. -/
theorem canonical_parse (t : Bytes) : (parse t).Canonical := by
  by_cases unknown : t = text "unknown"
  · rw [unknown, parse_unknown]
    trivial
  by_cases atom : t.head? = some (':' : UInt8)
  · cases t with
    | nil => cases atom
    | cons first rest =>
      obtain rfl := Option.some.inj atom
      rw [parse_erlang]
      trivial
  rw [parse_of_ne unknown atom]
  split
  · trivial
  · rename_i hempty
    have dots : ∀ s ∈ Bytes.fields '.' t, ('.' : UInt8) ∉ s := fun _ =>
      Bytes.not_mem_of_mem_fields
    cases hf : Bytes.fields '.' t with
    | nil => trivial
    | cons head more =>
      rw [hf] at hempty dots
      have joined : Bytes.join '.' (head :: more) = t := hf ▸ Bytes.join_fields '.' t
      refine ⟨fun s hs => ⟨?_, dots s hs⟩, ?_, ?_⟩
      · rintro rfl
        exact hempty hs
      · -- the text starts as its first segment does
        match head with
        | [] => exact absurd List.mem_cons_self hempty
        | b :: bs =>
          have text := toText_elixir_cons b bs more
          rw [toText, joined] at text
          rw [text] at atom
          exact atom
      · rintro rfl rfl
        exact unknown joined.symm

theorem canonical_iff {n : ModuleName} : n.Canonical ↔ parse n.toText = n := by
  constructor
  · exact parse_toText
  · intro h
    rw [← h]
    exact canonical_parse _

theorem canonical_ofAtom (atom : Bytes) : (ofAtom atom).Canonical := by
  unfold ofAtom
  dsimp only
  split
  · exact canonical_parse _
  · trivial

/-! ### Segments -/

/-- A name that can be a segment by itself or behind others. -/
def IsSegment (s : Bytes) : Prop :=
  (s ≠ [] ∧ ('.' : UInt8) ∉ s) ∧ s.head? ≠ some (':' : UInt8) ∧ s ≠ text "unknown"

theorem canonical_elixir {head : Bytes} {more : List Bytes} (hh : IsSegment head)
    (hm : ∀ s ∈ more, IsSegment s) : (elixir head more).Canonical := by
  refine ⟨?_, hh.2.1, fun _ => hh.2.2⟩
  intro s hs
  rcases List.mem_cons.mp hs with rfl | hs
  · exact hh.1
  · exact (hm s hs).1

theorem Canonical.concat {n : ModuleName} (h : n.Canonical) {segments : List Bytes}
    (hs : ∀ s ∈ segments, IsSegment s) : (n.concat segments).Canonical := by
  cases segments with
  | nil => rwa [concat_nil]
  | cons first rest =>
    cases n with
    | unknown => trivial
    | erlang atom => trivial
    | elixir head more =>
      obtain ⟨parts, colon, -⟩ := h
      refine ⟨?_, colon, by simp⟩
      intro s hmem
      rw [← List.cons_append, List.mem_append] at hmem
      rcases hmem with hmem | hmem
      · exact parts s hmem
      · exact (hs s hmem).1

/-! ### Texts -/

/-- One or more segments with dots between them. -/
def Dotted (t : Bytes) : Prop :=
  ∃ segments : List Bytes, segments ≠ [] ∧ (∀ s ∈ segments, s ≠ [] ∧ ('.' : UInt8) ∉ s) ∧
    t = Bytes.join '.' segments

theorem dotted_iff {t : Bytes} : Dotted t ↔ [] ∉ Bytes.fields '.' t := by
  constructor
  · rintro ⟨segments, nonempty, parts, rfl⟩ empty
    rw [Bytes.fields_join (fun s hs => (parts s hs).2) nonempty] at empty
    exact (parts [] empty).1 rfl
  · intro full
    refine ⟨_, Bytes.fields_ne_nil '.' t, ?_, (Bytes.join_fields '.' t).symm⟩
    intro s hs
    refine ⟨?_, Bytes.not_mem_of_mem_fields hs⟩
    rintro rfl
    exact full hs

instance (t : Bytes) : Decidable (Dotted t) :=
  decidable_of_iff (∀ s ∈ Bytes.fields '.' t, s ≠ []) (List.forall_mem_ne'.trans dotted_iff.symm)

theorem toText_ofSegments {segments : List Bytes} (h : segments ≠ []) :
    (ofSegments segments).toText = Bytes.join '.' segments := by
  cases segments with
  | nil => exact absurd rfl h
  | cons head more => rfl

/-- A text that names no module is read as the unknown name. -/
theorem toText_parse (t : Bytes) :
    (parse t).toText =
      if t = text "unknown" ∨ t.head? = some (':' : UInt8) ∨ Dotted t then t
      else text "unknown" := by
  by_cases unknown : t = text "unknown"
  · rw [if_pos (.inl unknown), unknown, parse_unknown]
    rfl
  by_cases atom : t.head? = some (':' : UInt8)
  · rw [if_pos (.inr (.inl atom))]
    obtain ⟨rest, rfl⟩ := List.head?_eq_some_iff.mp atom
    rw [parse_erlang]
    rfl
  rw [parse_of_ne unknown atom]
  by_cases dotted : Dotted t
  · rw [if_neg (dotted_iff.mp dotted), if_pos (.inr (.inr dotted)),
      toText_ofSegments (Bytes.fields_ne_nil '.' t), Bytes.join_fields]
  · have empty : [] ∈ Bytes.fields '.' t := by simpa [dotted_iff] using dotted
    rw [if_pos empty, if_neg (by simp [unknown, atom, dotted])]
    rfl

/-- Reading a text and writing the name gives the text back if it names a module, and the unknown
name otherwise. Writing a name and reading the text gives back just these names: the unknown one,
all atoms, and modules whose segments are told apart from each other, from an atom and from the
unknown name. -/
theorem names_written_and_read :
    (∀ t : Bytes, (parse t).toText =
      if t = text "unknown" ∨ t.head? = some (':' : UInt8) ∨ Dotted t then t
      else text "unknown") ∧
    ∀ n : ModuleName, parse n.toText = n ↔
      n = .unknown ∨ (∃ atom, n = .erlang atom) ∨
        ∃ head more, n = .elixir head more ∧
          (∀ s ∈ head :: more, s ≠ [] ∧ ('.' : UInt8) ∉ s) ∧ head.head? ≠ some (':' : UInt8) ∧
          head :: more ≠ [text "unknown"] := by
  refine ⟨toText_parse, fun n => ?_⟩
  rw [← canonical_iff]
  cases n with
  | unknown => simp [Canonical]
  | erlang atom => simp [Canonical]
  | elixir head more =>
    have single : (more = [] → head ≠ text "unknown") ↔ head :: more ≠ [text "unknown"] := by
      simp [imp.swap]
    constructor
    · rintro ⟨parts, colon, alone⟩
      exact .inr (.inr ⟨head, more, rfl, parts, colon, single.mp alone⟩)
    · rintro (h | ⟨_, h⟩ | ⟨_, _, h, parts, colon, alone⟩)
      · cases h
      · cases h
      · cases h
        exact ⟨parts, colon, single.mpr alone⟩

example : (parse (text "A..B")).toText = text "unknown" := by decide

end ModuleName
end CallAtlas
