import CallAtlas.Proofs.Grammar.Nodes

/-! # Where the segments of module references come from

Every segment of a module reference in a tree that the grammar reads is the text of one of the
tokens of kind `alias` that the tree was read from. So what holds of the text of all these tokens
holds of all segments.
-/
namespace CallAtlas

/-- All segments in a tree satisfy `P`. -/
def Tree.SegmentsHold (P : Bytes → Prop) (t : Tree) : Prop :=
  ∀ n ∈ t.nodes, n.form = .aliasSegment → P n.name

namespace Tree

variable {P : Bytes → Prop}

theorem segmentsHold_iff {t : Tree} :
    t.SegmentsHold P ↔ (t.form = .aliasSegment → P t.name) ∧
      ∀ child ∈ t.children, child.SegmentsHold P :=
  nodesHold_iff

theorem SegmentsHold.children {t : Tree} (h : t.SegmentsHold P) :
    ∀ child ∈ t.children, child.SegmentsHold P := (segmentsHold_iff.mp h).2

end Tree

namespace Grammar

open CallAtlas.Tree

variable {P : Bytes → Prop}

/-- The text of all tokens of kind `alias` satisfies `P`. -/
def AliasesHold (P : Bytes → Prop) (ts : List Token) : Prop :=
  ∀ t ∈ ts, t.kind = .alias → P t.value

/-- Whatever holds of a text, no node but a segment has to satisfy it. -/
theorem besideSegments_name : BesideSegments fun n => n.form = .aliasSegment → P n.name where
  plain n plain segment := by simp [segment, Form.isPlain] at plain
  reference t segment := by cases segment
  extend left t segment := by simp [form_extend] at segment

/-- What holds of the text of all tokens of kind `alias` holds of all segments. -/
theorem segmentsHold_parseTokens {tokens : List Token} {t : Tree} (h : parseTokens tokens = .ok t)
    (hts : AliasesHold P tokens) : t.SegmentsHold P := by
  exact nodesHold_parseTokens besideSegments_name h fun u hu hk _ => hts u hu hk

end Grammar
end CallAtlas
