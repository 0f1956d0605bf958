import CallAtlas.Proofs.Grammar.Shape

/-! # What holds of every node of a tree

Of all nodes only the segments of module references take from a token what other nodes cannot tell.
A property that every other node has by the way it is built, and that the segments of all tokens of
kind `alias` have, is one of every node of the tree.
-/
namespace CallAtlas

/-- The forms of all nodes but module references and their segments. -/
def Form.isPlain (form : Form) : Bool := form != .aliases && form != .aliasSegment

theorem Grammar.form_extend (left : Tree) (t : Token) : (extend left t).form = .aliases := by
  unfold extend
  dsimp only
  split
  · assumption
  · rfl

/-- A property that every node but a segment has: nodes of plain forms by themselves, and module
references as they are started and extended. -/
structure BesideSegments (Q : Tree → Prop) : Prop where
  plain : ∀ n : Tree, n.form.isPlain → Q n
  reference : ∀ t, Q (Grammar.reference t)
  extend : ∀ left t, Q (Grammar.extend left t)

namespace Tree

variable {Q : Tree → Prop}

theorem NodesHold.children {t : Tree} (h : t.NodesHold Q) :
    ∀ child ∈ t.children, child.NodesHold Q := (nodesHold_iff.mp h).2

theorem NodesHold.node (beside : BesideSegments Q) {t : Tree} (form : t.form.isPlain)
    (children : ∀ child ∈ t.children, child.NodesHold Q) : t.NodesHold Q :=
  nodesHold_iff.mpr ⟨beside.plain t form, children⟩

theorem NodesHold.two (beside : BesideSegments Q) {t left right : Tree} (form : t.form.isPlain)
    (children : t.children = [left, right]) (hl : left.NodesHold Q)
    (hr : right.NodesHold Q) : t.NodesHold Q := by
  refine .node beside form ?_
  rw [children]
  exact List.forall_mem_cons.mpr ⟨hl, List.forall_mem_singleton.mpr hr⟩

theorem NodesHold.one (beside : BesideSegments Q) {t child : Tree} (form : t.form.isPlain)
    (children : t.children = [child]) (h : child.NodesHold Q) : t.NodesHold Q := by
  refine .node beside form ?_
  rw [children]
  exact List.forall_mem_singleton.mpr h

theorem NodesHold.leaf (beside : BesideSegments Q) {t : Tree} (form : t.form.isPlain)
    (none : t.children = []) : t.NodesHold Q := by
  refine .node beside form ?_
  simp [none]

end Tree

namespace Grammar

open CallAtlas.Tree

variable {Q : Tree → Prop}

/-- All nodes in a line satisfy `Q`. -/
def Line.NodesHold (Q : Tree → Prop) : Line → Prop
  | .statement t | .clause t _ _ => t.NodesHold Q

/-- All nodes in a phrase satisfy `Q`. -/
def Phrase.NodesHold (Q : Tree → Prop) : Phrase → Prop
  | .term t => t.NodesHold Q
  | .entries ts | .parts _ ts | .attached ts | .sections ts => ∀ t ∈ ts, t.NodesHold Q
  | .line l => l.NodesHold Q
  | .lines ls => ∀ l ∈ ls, l.NodesHold Q

/-- The segments of all tokens of kind `alias` satisfy `Q`. -/
def SegmentsGiven (Q : Tree → Prop) (ts : List Token) : Prop :=
  ∀ t ∈ ts, t.kind = .alias → Q (leaf .aliasSegment t t.value)

theorem segmentsGiven_cons {t : Token} {ts : List Token} :
    SegmentsGiven Q (t :: ts) ↔
      (t.kind = .alias → Q (leaf .aliasSegment t t.value)) ∧ SegmentsGiven Q ts :=
  List.forall_mem_cons

theorem segmentsGiven_append {ts us : List Token} :
    SegmentsGiven Q (ts ++ us) ↔ SegmentsGiven Q ts ∧ SegmentsGiven Q us :=
  List.forall_mem_append

theorem nodesHold_segment {t : Token} (h : Q (leaf .aliasSegment t t.value)) :
    (leaf .aliasSegment t t.value).NodesHold Q :=
  nodesHold_iff.mpr ⟨h, by simp [leaf]⟩

section BesideSegments

variable (beside : BesideSegments Q)

include beside

theorem nodesHold_leaf {form : Form} (t : Token) (name : Bytes) (h : form.isPlain) :
    (leaf form t name).NodesHold Q := .leaf beside h rfl

theorem nodesHold_reference {t : Token} (h : Q (leaf .aliasSegment t t.value)) :
    (reference t).NodesHold Q :=
  nodesHold_iff.mpr ⟨beside.reference t, List.forall_mem_singleton.mpr (nodesHold_segment h)⟩

theorem nodesHold_extend {left : Tree} {segment : Token} (hl : left.NodesHold Q)
    (hs : Q (leaf .aliasSegment segment segment.value)) : (extend left segment).NodesHold Q := by
  have part := nodesHold_segment hs
  refine nodesHold_iff.mpr ⟨beside.extend left segment, ?_⟩
  unfold extend
  dsimp only
  split
  · simp only [append, List.forall_mem_append, List.forall_mem_singleton]
    exact ⟨hl.children, part⟩
  · exact List.forall_mem_cons.mpr ⟨hl, List.forall_mem_singleton.mpr part⟩

theorem nodesHold_plainText (t : Token) : (plainText t).NodesHold Q := by
  unfold plainText
  split
  · exact nodesHold_leaf beside t _ rfl
  · exact .one beside rfl rfl (nodesHold_leaf beside t _ rfl)
  · exact nodesHold_leaf beside t _ rfl

theorem nodesHold_word {t : Token} {tree : Tree} (h : word? t = some tree)
    (ht : t.kind = .alias → Q (leaf .aliasSegment t t.value)) : tree.NodesHold Q := by
  unfold word? at h
  split at h
  case h_2 hk =>
    obtain rfl := Option.some.inj h
    exact nodesHold_reference beside (ht hk)
  case h_11 | h_12 | h_13 =>
    obtain rfl := Option.some.inj h
    exact nodesHold_plainText beside t
  case h_14 =>
    split at h
    · obtain rfl := Option.some.inj h
      exact nodesHold_leaf beside t _ rfl
    · cases h
  case h_15 => cases h
  all_goals
    obtain rfl := Option.some.inj h
    exact nodesHold_leaf beside t _ rfl

theorem nodesHold_literalOf {opening : Token} {span : Span} {more : Bytes} {ts : List Tree}
    (h : ∀ t ∈ ts, t.NodesHold Q) : (literalOf opening span more ts).NodesHold Q := by
  unfold literalOf
  dsimp only
  split
  · rename_i hsigil
    rw [hsigil]
    exact .one beside rfl rfl (.node beside rfl h)
  · split
    · exact .node beside rfl h
    · exact .node beside rfl h

theorem nodesHold_assembled {ls : List Line} (h : ∀ l ∈ ls, l.NodesHold Q) :
    (∀ t ∈ (assembled ls).1, t.NodesHold Q) ∧ ∀ t ∈ (assembled ls).2, t.NodesHold Q := by
  induction ls with
  | nil => simp [assembled]
  | cons l ls ih =>
    obtain ⟨first, rest⟩ := List.forall_mem_cons.mp h
    obtain ⟨statements, clauses⟩ := ih rest
    cases l with
    | statement t => exact ⟨List.forall_mem_cons.mpr ⟨first, statements⟩, clauses⟩
    | clause head span arrow =>
      refine ⟨by simp [assembled, addLine], List.forall_mem_cons.mpr ⟨?_, clauses⟩⟩
      exact .two beside rfl rfl first (.node beside rfl statements)

theorem nodesHold_assemble {ls : List Line} (h : ∀ l ∈ ls, l.NodesHold Q) :
    ∀ t ∈ assemble ls, t.NodesHold Q := by
  obtain ⟨statements, clauses⟩ := nodesHold_assembled beside h
  rw [assemble_eq]
  exact List.forall_mem_append.mpr ⟨statements, clauses⟩

theorem nodesHold_sectionOf {name : Bytes} {span inner : Span} {ls : List Line}
    (h : ∀ l ∈ ls, l.NodesHold Q) : (sectionOf name span inner ls).NodesHold Q := by
  refine .two beside rfl rfl (.leaf beside rfl rfl) ?_
  exact .node beside rfl (nodesHold_assemble beside h)

theorem Derives.nodesHold {ts : List Token} {p : Phrase} (h : Derives ts p)
    (hts : SegmentsGiven Q ts) : p.NodesHold Q := by
  induction h with
  | before _ _ ih => exact ih (segmentsGiven_cons.mp hts).2
  | behind _ _ ih => exact ih (segmentsGiven_append.mp hts).1
  | noEntry => simp [Phrase.NodesHold]
  | entry _ ih => exact List.forall_mem_singleton.mpr (ih hts)
  | append _ _ first more =>
    obtain ⟨h₁, h₂⟩ := segmentsGiven_append.mp hts
    exact List.forall_mem_append.mpr ⟨first h₁, more h₂⟩
  | delimited _ _ ih => exact ih (segmentsGiven_append.mp (segmentsGiven_cons.mp hts).2).1
  | word hw => exact nodesHold_word beside hw (segmentsGiven_cons.mp hts).1
  | literal _ _ ih => exact nodesHold_literalOf beside (ih (segmentsGiven_cons.mp hts).2)
  | lastPart _ => simp [Phrase.NodesHold]
  | innerPart _ _ ih => exact ih (segmentsGiven_cons.mp hts).2
  | embedded _ _ first more =>
    obtain ⟨h₁, h₂⟩ := segmentsGiven_append.mp hts
    exact List.forall_mem_cons.mpr ⟨first h₁, more h₂⟩
  | container hf _ ih =>
    refine .node beside ?_ (ih hts)
    simp only [List.mem_cons, List.not_mem_nil, or_false] at hf
    rcases hf with rfl | rfl | rfl <;> rfl
  | map _ _ ih => exact .node beside rfl (ih (segmentsGiven_cons.mp hts).2)
  | struct _ _ _ name fields =>
    obtain ⟨h₁, h₂⟩ := segmentsGiven_append.mp (segmentsGiven_cons.mp hts).2
    exact .two beside rfl rfl (name h₁) (.node beside rfl (fields h₂))
  | pair _ _ ih =>
    exact .two beside rfl rfl (.leaf beside rfl rfl) (ih (segmentsGiven_cons.mp hts).2)
  | grouped _ _ _ ih => exact ih (segmentsGiven_append.mp (segmentsGiven_cons.mp hts).2).1
  | statements _ ih => exact .node beside rfl (ih hts)
  | groupedClause _ _ _ _ _ patterns body =>
    obtain ⟨h₁, h₂⟩ :=
      segmentsGiven_append.mp (segmentsGiven_append.mp (segmentsGiven_cons.mp hts).2).1
    refine .one beside rfl rfl (.two beside rfl rfl (.node beside rfl (patterns h₁)) ?_)
    exact .one beside rfl rfl (body (segmentsGiven_cons.mp h₂).2)
  | binary _ _ _ left right =>
    obtain ⟨h₁, h₂⟩ := segmentsGiven_append.mp hts
    unfold Operator.apply
    refine .two beside ?_ rfl (left (segmentsGiven_append.mp h₁).1) (right h₂)
    dsimp only
    split <;> rfl
  | unary _ _ ih => exact .one beside rfl rfl (ih (segmentsGiven_cons.mp hts).2)
  | operatorCapture _ _ _ _ =>
    refine .one beside rfl rfl (.two beside rfl rfl ?_ ?_)
    · exact nodesHold_leaf beside _ _ rfl
    · exact nodesHold_leaf beside _ _ rfl
  | moduleAttribute _ _ => exact .leaf beside rfl rfl
  | moduleAttributeValue _ _ _ ih =>
    exact .one beside rfl rfl (ih (segmentsGiven_cons.mp (segmentsGiven_cons.mp hts).2).2)
  | call _ hf _ _ arguments blocks =>
    obtain ⟨h₁, h₂⟩ := segmentsGiven_append.mp (segmentsGiven_cons.mp hts).2
    refine .node beside ?_ (List.forall_mem_append.mpr ⟨arguments h₁, blocks h₂⟩)
    simp only [List.mem_cons, List.not_mem_nil, or_false] at hf
    rcases hf with rfl | rfl <;> rfl
  | remoteCall _ _ _ _ _ left arguments blocks =>
    obtain ⟨h₁, h₂⟩ := segmentsGiven_append.mp hts
    obtain ⟨h₃, h₄⟩ :=
      segmentsGiven_append.mp (segmentsGiven_cons.mp (segmentsGiven_cons.mp h₂).2).2
    refine .node beside rfl (List.forall_mem_cons.mpr ⟨left h₁, ?_⟩)
    exact List.forall_mem_append.mpr ⟨arguments h₃, blocks h₄⟩
  | field _ _ _ ih => exact .one beside rfl rfl (ih (segmentsGiven_append.mp hts).1)
  | extend _ hs _ ih =>
    obtain ⟨h₁, h₂⟩ := segmentsGiven_append.mp hts
    have name := segmentsGiven_cons.mp (segmentsGiven_cons.mp h₂).2
    exact nodesHold_extend beside (ih h₁) (name.1 hs)
  | multiAlias _ _ _ _ left entries =>
    obtain ⟨h₁, h₂⟩ := segmentsGiven_append.mp hts
    refine .node beside rfl (List.forall_mem_cons.mpr ⟨left h₁, ?_⟩)
    exact entries (segmentsGiven_cons.mp h₂).2
  | anonCall _ _ _ _ left arguments =>
    obtain ⟨h₁, h₂⟩ := segmentsGiven_append.mp hts
    refine .node beside rfl (List.forall_mem_cons.mpr ⟨left ?_, arguments h₂⟩)
    exact (segmentsGiven_append.mp h₁).1
  | access _ _ _ _ left key =>
    obtain ⟨h₁, h₂⟩ := segmentsGiven_append.mp (segmentsGiven_append.mp hts).1
    exact .two beside rfl rfl (left h₁) (key (segmentsGiven_cons.mp h₂).2)
  | statement _ ih => exact ih hts
  | clause _ _ ih => exact .node beside rfl (ih (segmentsGiven_append.mp hts).1)
  | noLine => simp [Phrase.NodesHold]
  | moreLines _ _ first more =>
    obtain ⟨h₁, h₂⟩ := segmentsGiven_append.mp hts
    exact List.forall_mem_cons.mpr ⟨first h₁, more h₂⟩
  | noSection => simp [Phrase.NodesHold]
  | moreSections _ _ _ lines more =>
    obtain ⟨h₁, h₂⟩ := segmentsGiven_append.mp (segmentsGiven_cons.mp hts).2
    exact List.forall_mem_cons.mpr ⟨nodesHold_sectionOf beside (lines h₁), more h₂⟩
  | noBlock => simp [Phrase.NodesHold]
  | doBlock _ _ _ _ lines more =>
    obtain ⟨h₁, h₂⟩ :=
      segmentsGiven_append.mp (segmentsGiven_append.mp (segmentsGiven_cons.mp hts).2).1
    refine List.forall_mem_singleton.mpr (.node beside rfl ?_)
    exact List.forall_mem_cons.mpr ⟨nodesHold_sectionOf beside (lines h₁), more h₂⟩
  | fn _ _ _ _ _ lines =>
    have inside := lines (segmentsGiven_append.mp (segmentsGiven_cons.mp hts).2).1
    exact .node beside rfl (nodesHold_assemble beside inside)

end BesideSegments

/-- What holds of all nodes but segments by themselves, and of the segments of all tokens of kind
`alias`, holds of every node of the tree of a token list. -/
theorem nodesHold_parseTokens (beside : BesideSegments Q) {tokens : List Token} {t : Tree}
    (h : parseTokens tokens = .ok t) (hts : SegmentsGiven Q tokens) : t.NodesHold Q := by
  obtain ⟨ts, us, rfl, -, ls, span, rfl, hd⟩ := derives_parseTokens h
  have lines := hd.nodesHold beside (segmentsGiven_append.mp hts).1
  exact .node beside rfl (nodesHold_assemble beside lines)

end Grammar
end CallAtlas
