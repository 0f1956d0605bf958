import CallAtlas.Proofs.Grammar.Soundness

/-! # The shape of trees

What the children of each form are is a table, which every node of a tree that the grammar reads
satisfies. The table is stated node by node, and the rules of `Derives` are shown one by one to
build only nodes that fit it.

Segments of module references and `do` blocks are not terms of their own: a segment stands under a
module reference, and a `do` block behind the arguments of a call.
-/
namespace CallAtlas

/-! ### The table -/

/-- What the children of a form are. -/
def Form.Admits (children : List Tree) : Form → Prop
  | .remoteCall | .anonCall | .multiAlias => children ≠ []
  | .aliases => children ≠ [] ∧ ∀ t ∈ children.tail, t.form = .aliasSegment
  | .pair | .binaryOp | .access => children.length = 2
  | .struct => children.length = 2 ∧ ∀ t ∈ children.tail, t.form = .map
  | .clause => children.map (·.form) = [.block, .block]
  | .unaryOp | .fieldAccess => children.length = 1
  | .attribute => children.length ≤ 1
  | .sigil => children.map (·.form) = [.string]
  | .var | .atom | .integer | .float | .moduleSelf | .aliasSegment => children = []
  | .fn => children ≠ [] ∧ ∀ t ∈ children, t.form = .clause
  | .doBlock =>
    children ≠ [] ∧ ∀ t ∈ children, t.form = .pair ∧ t.children.map (·.form) = [.atom, .block]
  | .block | .call | .construct | .string | .charlist | .list | .tuple | .map | .bitstring => True

/-- The forms that a `do` block can follow. -/
def Form.takesBlock (form : Form) : Bool := [Form.call, .remoteCall, .construct].contains form

/-- Where segments and `do` blocks are among the children of a form. -/
structure Form.Places (children : List Tree) (form : Form) : Prop where
  segments : form ≠ .aliases → ∀ t ∈ children, t.form ≠ .aliasSegment
  block_last : ∀ t ∈ children.dropLast, t.form ≠ .doBlock
  block_call : ¬ form.takesBlock → ∀ t ∈ children, t.form ≠ .doBlock

/-- The node at the root of a tree fits the table. -/
def Tree.Fits (t : Tree) : Prop := t.form.Admits t.children ∧ t.form.Places t.children

/-- All nodes of a tree fit the table. -/
def Tree.AllFit (t : Tree) : Prop := ∀ n ∈ t.nodes, n.Fits

/-- Forms of nodes that are terms of their own. -/
def Form.isTerm : Form → Bool
  | .aliasSegment | .doBlock => false
  | _ => true

/-- All nodes of a term fit the table. -/
def Tree.WellShaped (t : Tree) : Prop := t.form.isTerm ∧ t.AllFit

namespace Tree

theorem mem_nodesOf {n : Tree} {ts : List Tree} : n ∈ nodesOf ts ↔ ∃ t ∈ ts, n ∈ t.nodes := by
  induction ts with
  | nil => simp [nodesOf]
  | cons t ts ih => simp [nodesOf, ih]

theorem nodes_eq (t : Tree) : t.nodes = t :: nodesOf t.children := by
  cases t
  rw [nodes]

/-- All nodes of a tree satisfy `Q`. -/
def NodesHold (Q : Tree → Prop) (t : Tree) : Prop := ∀ n ∈ t.nodes, Q n

theorem nodesHold_iff {Q : Tree → Prop} {t : Tree} :
    t.NodesHold Q ↔ Q t ∧ ∀ child ∈ t.children, child.NodesHold Q := by
  unfold NodesHold
  simp only [nodes_eq t, List.mem_cons, mem_nodesOf]
  constructor
  · intro h
    exact ⟨h t (.inl rfl), fun child hc n hn => h n (.inr ⟨child, hc, hn⟩)⟩
  · rintro ⟨root, inside⟩ n (rfl | ⟨child, hc, hn⟩)
    · exact root
    · exact inside child hc n hn

theorem allFit_iff {t : Tree} : t.AllFit ↔ t.Fits ∧ ∀ child ∈ t.children, child.AllFit :=
  nodesHold_iff

theorem WellShaped.ne_segment {t : Tree} (h : t.WellShaped) : t.form ≠ .aliasSegment := by
  intro hf
  simpa [hf, Form.isTerm] using h.1

theorem WellShaped.ne_block {t : Tree} (h : t.WellShaped) : t.form ≠ .doBlock := by
  intro hf
  simpa [hf, Form.isTerm] using h.1

/-- A node over terms. -/
theorem WellShaped.node {t : Tree} (term : t.form.isTerm) (admits : t.form.Admits t.children)
    (children : ∀ child ∈ t.children, child.WellShaped) : t.WellShaped := by
  refine ⟨term, allFit_iff.mpr ⟨⟨admits, ?_⟩, fun child hc => (children child hc).2⟩⟩
  constructor
  · intro _ child hc
    exact (children child hc).ne_segment
  · intro child hc
    exact (children child ((List.dropLast_sublist _).mem hc)).ne_block
  · intro _ child hc
    exact (children child hc).ne_block

/-- A node over two terms. -/
theorem WellShaped.two {t left right : Tree} (term : t.form.isTerm)
    (admits : t.form.Admits t.children) (children : t.children = [left, right])
    (hl : left.WellShaped) (hr : right.WellShaped) : t.WellShaped := by
  refine .node term admits ?_
  rw [children]
  exact List.forall_mem_cons.mpr ⟨hl, List.forall_mem_singleton.mpr hr⟩

/-- A node over one term. -/
theorem WellShaped.one {t child : Tree} (term : t.form.isTerm)
    (admits : t.form.Admits t.children) (children : t.children = [child])
    (h : child.WellShaped) : t.WellShaped := by
  refine .node term admits ?_
  rw [children]
  exact List.forall_mem_singleton.mpr h

theorem WellShaped.leaf {t : Tree} (term : t.form.isTerm) (admits : t.form.Admits [])
    (none : t.children = []) : t.WellShaped := by
  refine .node term (none ▸ admits) ?_
  simp [none]

end Tree

namespace Grammar

open CallAtlas.Tree

/-! ### Module references -/

/-- A reference under which a segment follows. -/
theorem allFit_segment (t : Token) (name : Bytes) : (leaf .aliasSegment t name).AllFit := by
  rw [allFit_iff]
  refine ⟨⟨rfl, ?_⟩, by simp [leaf]⟩
  constructor <;> simp [leaf]

theorem wellShaped_aliases {t : Tree} (head : Tree) (segments : List Tree)
    (form : t.form = .aliases) (children : t.children = head :: segments) (hhead : head.AllFit)
    (block : head.form ≠ .doBlock)
    (hsegments : ∀ s ∈ segments, s.form = .aliasSegment ∧ s.AllFit) : t.WellShaped := by
  have noBlock : ∀ s ∈ head :: segments, s.form ≠ .doBlock := by
    intro s hs
    rcases List.mem_cons.mp hs with rfl | hs
    · exact block
    · simp [(hsegments s hs).1]
  refine ⟨by simp [form, Form.isTerm], allFit_iff.mpr ⟨⟨?_, ?_⟩, ?_⟩⟩
  · rw [form, children]
    exact ⟨by simp, fun s hs => (hsegments s hs).1⟩
  · rw [form, children]
    exact ⟨by simp, fun s hs => noBlock s ((List.dropLast_sublist _).mem hs), fun _ => noBlock⟩
  · rw [children]
    intro s hs
    rcases List.mem_cons.mp hs with rfl | hs
    · exact hhead
    · exact (hsegments s hs).2

theorem wellShaped_reference (t : Token) : (reference t).WellShaped :=
  wellShaped_aliases _ _ rfl rfl (allFit_segment t _) (by simp [leaf]) (by simp)

theorem wellShaped_extend {left : Tree} (segment : Token) (h : left.WellShaped) :
    (extend left segment).WellShaped := by
  have part : (leaf .aliasSegment segment segment.value).form = .aliasSegment ∧
      (leaf .aliasSegment segment segment.value).AllFit := ⟨rfl, allFit_segment segment _⟩
  unfold extend
  dsimp only
  split
  · rename_i hform
    obtain ⟨⟨admits, places⟩, inside⟩ := allFit_iff.mp h.2
    rw [hform] at admits places
    obtain ⟨hne, hsegments⟩ := admits
    obtain ⟨head, segments, hc⟩ := List.exists_cons_of_ne_nil hne
    rw [hc] at hsegments inside places
    refine wellShaped_aliases head (segments ++ [leaf .aliasSegment segment segment.value]) hform
      (by simp [append, hc]) (inside head List.mem_cons_self)
      (places.block_call (by simp [Form.takesBlock]) head List.mem_cons_self) ?_
    intro s hs
    rcases List.mem_append.mp hs with hs | hs
    · exact ⟨hsegments s hs, inside s (List.mem_cons_of_mem head hs)⟩
    · rw [List.mem_singleton.mp hs]
      exact part
  · refine wellShaped_aliases _ _ rfl rfl h.2 h.ne_block ?_
    intro s hs
    rw [List.mem_singleton.mp hs]
    exact part

/-! ### Phrases -/

/-- A section of a `do` block. -/
def IsSection (t : Tree) : Prop :=
  t.WellShaped ∧ t.form = .pair ∧ t.children.map (·.form) = [.atom, .block]

/-- A statement, or the patterns of a clause. -/
def Line.WellShaped : Line → Prop
  | .statement t => t.WellShaped
  | .clause head _ _ => head.form = .block ∧ head.WellShaped

/-- All trees of a phrase fit the table. -/
def Phrase.WellShaped : Phrase → Prop
  | .term t => t.WellShaped
  | .entries ts | .parts _ ts => ∀ t ∈ ts, t.WellShaped
  | .attached blocks =>
    blocks = [] ∨ ∃ block, blocks = [block] ∧ block.form = .doBlock ∧ block.AllFit
  | .line l => l.WellShaped
  | .lines ls => ∀ l ∈ ls, l.WellShaped
  | .sections pairs => ∀ pair ∈ pairs, IsSection pair

/-- A block over terms. -/
theorem wellShaped_block {span : Span} {ts : List Tree} (h : ∀ t ∈ ts, t.WellShaped) :
    WellShaped { form := .block, span, children := ts } :=
  .node rfl trivial h

theorem wellShaped_clause {span : Span} {head body : Tree} (hh : head.form = .block)
    (hb : body.form = .block) (head_shape : head.WellShaped) (body_shape : body.WellShaped) :
    WellShaped { form := .clause, span, children := [head, body] } := by
  exact .two rfl (by simp [Form.Admits, hh, hb]) rfl head_shape body_shape

theorem wellShaped_assembled {ls : List Line} (h : ∀ l ∈ ls, l.WellShaped) :
    (∀ t ∈ (assembled ls).1, t.WellShaped) ∧ ∀ t ∈ (assembled ls).2, t.WellShaped := by
  induction ls with
  | nil => simp [assembled]
  | cons l ls ih =>
    obtain ⟨statements, clauses⟩ := ih fun l hl => h l (List.mem_cons_of_mem _ hl)
    have first := h l List.mem_cons_self
    cases l with
    | statement t => exact ⟨List.forall_mem_cons.mpr ⟨first, statements⟩, clauses⟩
    | clause head span arrow =>
      refine ⟨by simp [assembled, addLine], List.forall_mem_cons.mpr ⟨?_, clauses⟩⟩
      exact wellShaped_clause first.1 rfl first.2 (wellShaped_block statements)

theorem wellShaped_assemble {ls : List Line} (h : ∀ l ∈ ls, l.WellShaped) :
    ∀ t ∈ assemble ls, t.WellShaped := by
  obtain ⟨statements, clauses⟩ := wellShaped_assembled h
  rw [assemble_eq]
  exact List.forall_mem_append.mpr ⟨statements, clauses⟩

theorem isSection_sectionOf {name : Bytes} {span inner : Span} {ls : List Line}
    (h : ∀ l ∈ ls, l.WellShaped) : IsSection (sectionOf name span inner ls) := by
  have key : WellShaped { form := .atom, span, name } := .leaf rfl rfl rfl
  have body : (blockOf inner ls).WellShaped := wellShaped_block (wellShaped_assemble h)
  exact ⟨.two rfl rfl rfl key body, rfl, rfl⟩

theorem allFit_doBlock {span : Span} {pairs : List Tree} (hne : pairs ≠ [])
    (h : ∀ pair ∈ pairs, IsSection pair) :
    AllFit { form := .doBlock, span, children := pairs } := by
  refine allFit_iff.mpr ⟨⟨⟨hne, fun pair hp => (h pair hp).2⟩, ?_⟩, fun pair hp => (h pair hp).1.2⟩
  constructor
  · exact fun _ pair hp => (h pair hp).1.ne_segment
  · exact fun pair hp => (h pair ((List.dropLast_sublist _).mem hp)).1.ne_block
  · exact fun _ pair hp => (h pair hp).1.ne_block

/-- A call with a `do` block behind its arguments, if there is one. -/
theorem wellShaped_call {t : Tree} {arguments blocks : List Tree} (form : t.form.takesBlock)
    (admits : t.form.Admits t.children) (children : t.children = arguments ++ blocks)
    (harguments : ∀ a ∈ arguments, a.WellShaped) (hblocks : (Phrase.attached blocks).WellShaped) :
    t.WellShaped := by
  have term : t.form.isTerm := by
    cases hf : t.form <;> simp_all [Form.takesBlock, Form.isTerm]
  rcases hblocks with rfl | ⟨block, rfl, hform, hfit⟩
  · rw [List.append_nil] at children
    exact .node term admits (children ▸ harguments)
  · refine ⟨term, allFit_iff.mpr ⟨⟨admits, ?_⟩, ?_⟩⟩ <;> rw [children]
    · constructor
      · intro _
        rw [List.forall_mem_append]
        exact ⟨fun a ha => (harguments a ha).ne_segment, by simp [hform]⟩
      · intro a ha
        rw [List.dropLast_concat] at ha
        exact (harguments a ha).ne_block
      · exact fun h => absurd form h
    · rw [List.forall_mem_append]
      exact ⟨fun a ha => (harguments a ha).2, by simpa using hfit⟩

/-! ### Derivations -/

theorem wellShaped_leaf {form : Form} (t : Token) (name : Bytes) (term : form.isTerm)
    (admits : form.Admits []) : (leaf form t name).WellShaped :=
  .leaf term admits rfl

theorem wellShaped_plainText (t : Token) : (plainText t).WellShaped := by
  unfold plainText
  split
  · exact wellShaped_leaf t _ rfl trivial
  · exact .one rfl rfl rfl (wellShaped_leaf t _ rfl trivial)
  · exact wellShaped_leaf t _ rfl trivial

theorem wellShaped_word {t : Token} {tree : Tree} (h : word? t = some tree) : tree.WellShaped := by
  unfold word? at h
  split at h
  case h_2 =>
    obtain rfl := Option.some.inj h
    exact wellShaped_reference t
  case h_11 | h_12 | h_13 =>
    obtain rfl := Option.some.inj h
    exact wellShaped_plainText t
  case h_14 =>
    split at h
    · obtain rfl := Option.some.inj h
      exact wellShaped_leaf t _ rfl rfl
    · cases h
  case h_15 => cases h
  all_goals
    obtain rfl := Option.some.inj h
    exact wellShaped_leaf t _ rfl rfl

theorem wellShaped_literalOf {opening : Token} {span : Span} {more : Bytes} {ts : List Tree}
    (h : ∀ t ∈ ts, t.WellShaped) : (literalOf opening span more ts).WellShaped := by
  unfold literalOf
  dsimp only
  split
  · rename_i hsigil
    rw [hsigil]
    exact .one rfl rfl rfl (.node rfl trivial h)
  · split
    · exact .node rfl trivial h
    · exact .node rfl trivial h

theorem Derives.wellShaped {ts : List Token} {p : Phrase} (h : Derives ts p) : p.WellShaped := by
  induction h with
  | before _ _ ih => exact ih
  | behind _ _ ih => exact ih
  | noEntry => simp [Phrase.WellShaped]
  | entry _ ih => simpa [Phrase.WellShaped] using ih
  | append _ _ first more => exact List.forall_mem_append.mpr ⟨first, more⟩
  | delimited _ _ ih => exact ih
  | word hw => exact wellShaped_word hw
  | literal _ _ ih => exact wellShaped_literalOf ih
  | lastPart _ => simp [Phrase.WellShaped]
  | innerPart _ _ ih => exact ih
  | embedded _ _ first more => exact List.forall_mem_cons.mpr ⟨first, more⟩
  | container hf _ ih =>
    simp only [List.mem_cons, List.not_mem_nil, or_false] at hf
    rcases hf with rfl | rfl | rfl
    all_goals exact .node rfl trivial ih
  | map _ _ ih => exact .node rfl trivial ih
  | struct _ _ _ name fields =>
    refine .two rfl ⟨rfl, by simp⟩ rfl name ?_
    exact .node rfl trivial fields
  | pair _ _ ih => exact .two rfl rfl rfl (.leaf rfl rfl rfl) ih
  | grouped _ _ _ ih => exact ih
  | statements _ ih => exact wellShaped_block ih
  | groupedClause _ _ _ _ _ patterns body =>
    refine wellShaped_block (List.forall_mem_singleton.mpr ?_)
    refine wellShaped_clause rfl rfl (wellShaped_block patterns) (wellShaped_block ?_)
    exact List.forall_mem_singleton.mpr body
  | binary _ _ _ left right =>
    unfold Operator.apply
    split
    · exact .two rfl rfl rfl left right
    · exact .two rfl rfl rfl left right
  | unary _ _ ih => exact .one rfl rfl rfl ih
  | operatorCapture _ _ _ _ =>
    refine .one rfl rfl rfl (.two rfl rfl rfl ?_ ?_)
    · exact wellShaped_leaf _ _ rfl rfl
    · exact wellShaped_leaf _ _ rfl rfl
  | moduleAttribute _ _ => exact .leaf rfl (Nat.zero_le 1) rfl
  | moduleAttributeValue _ _ _ ih => exact .one rfl (Nat.le_refl 1) rfl ih
  | call _ hf _ _ arguments blocks =>
    simp only [List.mem_cons, List.not_mem_nil, or_false] at hf
    rcases hf with rfl | rfl
    all_goals exact wellShaped_call rfl trivial rfl arguments blocks
  | remoteCall _ _ _ _ _ left arguments blocks =>
    refine wellShaped_call rfl (List.cons_ne_nil _ _) (List.cons_append ..).symm ?_ blocks
    exact List.forall_mem_cons.mpr ⟨left, arguments⟩
  | field _ _ _ ih => exact .one rfl rfl rfl ih
  | extend _ _ _ ih => exact wellShaped_extend _ ih
  | multiAlias _ _ _ _ left entries =>
    exact .node rfl (List.cons_ne_nil _ _) (List.forall_mem_cons.mpr ⟨left, entries⟩)
  | anonCall _ _ _ _ left arguments =>
    exact .node rfl (List.cons_ne_nil _ _) (List.forall_mem_cons.mpr ⟨left, arguments⟩)
  | access _ _ _ _ left key => exact .two rfl rfl rfl left key
  | statement _ ih => exact ih
  | clause _ _ ih => exact ⟨rfl, wellShaped_block ih⟩
  | noLine => simp [Phrase.WellShaped]
  | moreLines _ _ first more => exact List.forall_mem_cons.mpr ⟨first, more⟩
  | noSection => simp [Phrase.WellShaped]
  | moreSections _ _ _ lines more =>
    exact List.forall_mem_cons.mpr ⟨isSection_sectionOf lines, more⟩
  | noBlock => exact .inl rfl
  | doBlock _ _ _ _ lines more =>
    refine .inr ⟨_, rfl, rfl, allFit_doBlock (List.cons_ne_nil _ _) ?_⟩
    exact List.forall_mem_cons.mpr ⟨isSection_sectionOf lines, more⟩
  | fn _ _ _ clauses hne lines =>
    exact .node rfl ⟨hne, clauses⟩ (wellShaped_assemble lines)

/-- The trees that the grammar reads from token lists fit the table. -/
theorem wellShaped_parse {tokens : List Token} {t : Tree}
    (h : parseTokens tokens = .ok t ∨ parseExpression tokens = .ok t) : t.WellShaped := by
  rcases h with h | h
  · obtain ⟨_, _, _, _, ls, span, rfl, hd⟩ := derives_parseTokens h
    exact wellShaped_block (wellShaped_assemble hd.wellShaped)
  · obtain ⟨_, _, _, hd⟩ := derives_parseExpression h
    exact hd.wellShaped

end Grammar
end CallAtlas
