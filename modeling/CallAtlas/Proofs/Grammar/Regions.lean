import CallAtlas.Proofs.Grammar.Shape
import CallAtlas.Proofs.Token.Positions

/-! # Reads that stay in a text

A read stays in a text if it leads from a cursor that shows only regions of the text to another one,
and what it gives or complains about are regions of the text too. Such reads can follow each other,
be repeated, and be tried for what may not be there.
-/
namespace CallAtlas

variable {s : Source}

theorem Span.IsIn.to {a b : Span} (ha : a.IsIn s) (hb : b.IsIn s) : (a.to b).IsIn s :=
  ⟨ha.1, hb.2⟩

/-- All nodes of a tree are regions of a text. -/
def Tree.IsIn (s : Source) (t : Tree) : Prop := t.NodesHold (·.span.IsIn s)

theorem Tree.isIn_iff {t : Tree} :
    t.IsIn s ↔ t.span.IsIn s ∧ ∀ child ∈ t.children, child.IsIn s :=
  nodesHold_iff

theorem Tree.IsIn.span {t : Tree} (h : t.IsIn s) : t.span.IsIn s := (isIn_iff.mp h).1

theorem Tree.IsIn.children {t : Tree} (h : t.IsIn s) : ∀ child ∈ t.children, child.IsIn s :=
  (isIn_iff.mp h).2

theorem Tree.isIn_none {t : Tree} (span : t.span.IsIn s) (none : t.children = []) : t.IsIn s := by
  refine isIn_iff.mpr ⟨span, ?_⟩
  rw [none]
  nofun

theorem Tree.isIn_one {t child : Tree} (span : t.span.IsIn s) (children : t.children = [child])
    (h : child.IsIn s) : t.IsIn s := by
  refine isIn_iff.mpr ⟨span, ?_⟩
  rw [children]
  exact List.forall_mem_singleton.mpr h

theorem Tree.isIn_two {t left right : Tree} (span : t.span.IsIn s)
    (children : t.children = [left, right]) (hl : left.IsIn s) (hr : right.IsIn s) : t.IsIn s := by
  refine isIn_iff.mpr ⟨span, ?_⟩
  rw [children]
  exact List.forall_mem_cons.mpr ⟨hl, List.forall_mem_singleton.mpr hr⟩

theorem Tree.IsIn.append {t child : Tree} (h : t.IsIn s) (hc : child.IsIn s) :
    (t.append child).IsIn s := by
  refine isIn_iff.mpr ⟨h.span.to hc.span, ?_⟩
  exact List.forall_mem_append.mpr ⟨h.children, List.forall_mem_singleton.mpr hc⟩

namespace Grammar

/-! ### Cursors -/

/-- All tokens that a cursor shows are regions of a text. -/
structure Cursor.IsIn (s : Source) (c : Cursor) : Prop where
  rest : ∀ t ∈ c.rest, t.span.IsIn s
  last : c.last.span.IsIn s
  previous : c.previous.span.IsIn s

/-- The cursor behind a read is in the text, and the value satisfies `V`. -/
def Parsed.Lands {c : Cursor} {α : Type} (s : Source) (V : α → Prop) (p : Parsed c α) : Prop :=
  p.rest.IsIn s ∧ V p.value

/-- The same for a read that may take no token. -/
def MaybeParsed.Lands {c : Cursor} {α : Type} (s : Source) (V : α → Prop) (p : MaybeParsed c α) :
    Prop :=
  p.rest.IsIn s ∧ V p.value

namespace Cursor.IsIn

variable {c : Cursor} (h : c.IsIn s)

include h

theorem peek : c.peek.span.IsIn s := by
  unfold Cursor.peek
  cases hr : c.rest with
  | nil => exact h.last
  | cons t rest => exact h.rest t (by simp [hr])

theorem next {p : Parsed c Token} (hp : c.next? = some p) : p.Lands s (·.span.IsIn s) := by
  unfold Cursor.next? at hp
  split at hp
  · cases hp
  · rename_i token rest hr
    split at hp
    · cases hp
    · obtain rfl := Option.some.inj hp
      have tokens := h.rest
      rw [hr, List.forall_mem_cons] at tokens
      exact ⟨⟨tokens.2, h.last, tokens.1⟩, tokens.1⟩

theorem takeIf {q : Kind → Bool} {p : Parsed c Token} (hp : c.takeIf? q = some p) :
    p.Lands s (·.span.IsIn s) := by
  unfold Cursor.takeIf? at hp
  split at hp
  · exact h.next hp
  · cases hp

theorem take {kind : Kind} {p : Parsed c Token} (hp : c.take? kind = some p) :
    p.Lands s (·.span.IsIn s) := h.takeIf hp

theorem skipNewlines : c.skipNewlines.IsIn s := by
  fun_induction Cursor.skipNewlines c with
  | case1 c token c₁ lt hp ih => exact ih (h.take hp).1
  | case2 => exact h

theorem takeLoose {kind : Kind} {p : Parsed c Token} (hp : c.takeLoose? kind = some p) :
    p.Lands s (·.span.IsIn s) := by
  obtain ⟨q, hq, rfl⟩ := Option.map_eq_some_iff.mp hp
  exact h.skipNewlines.take hq

end Cursor.IsIn

/-! ### Reads -/

/-- An attempt leads to a value that satisfies `Q`, or to an error about a region of the text. -/
def Leads {α : Type} (s : Source) (r : Attempt α) (Q : α → Prop) : Prop :=
  match r with
  | .ok v => Q v
  | .error e => e.span.IsIn s

section

variable {α β : Type}

theorem Leads.bind {r : Attempt α} {f : α → Attempt β} {Q : α → Prop} {R : β → Prop}
    (h : Leads s r Q) (hf : ∀ v, Q v → Leads s (f v) R) : Leads s (r >>= f) R := by
  cases r with
  | ok v => exact hf v h
  | error e => exact h

theorem Leads.map {r : Attempt α} {f : α → β} {Q : α → Prop} {R : β → Prop} (h : Leads s r Q)
    (hf : ∀ v, Q v → R (f v)) : Leads s (r.map f) R := by
  cases r with
  | ok v => exact hf v h
  | error e => exact h

theorem leads_fail {c : Cursor} (h : c.IsIn s) (needed : Expectation) (Q : α → Prop) :
    Leads s (c.fail needed) Q := h.peek

/-- A read stays in the text, and what it gives satisfies `V`. -/
def Stays (s : Source) (read : Reader α) (V : α → Prop) : Prop :=
  ∀ c : Cursor, c.IsIn s → Leads s (read c) (Parsed.Lands s V)

/-- The same for reads that may take no token. -/
def MaybeStays (s : Source) (read : MaybeReader α) (V : α → Prop) : Prop :=
  ∀ c : Cursor, c.IsIn s → Leads s (read c) (MaybeParsed.Lands s V)

/-- The same for reads of what may not be there. -/
def OptionStays (s : Source) (read : OptionReader α) (V : α → Prop) : Prop :=
  ∀ c : Cursor, c.IsIn s → Leads s (read c) fun found => ∀ p, found = some p → p.Lands s V

variable {c : Cursor} {V : α → Prop} {W : β → Prop}

theorem Stays.andThen {p : Parsed c α} {read : Reader β} (h : Stays s read W)
    (hp : p.Lands s V) : Leads s (p.andThen read) (Parsed.Lands s W) :=
  (h p.rest hp.1).map fun _ hq => hq

theorem MaybeStays.andMaybe {p : Parsed c α} {read : MaybeReader β} (h : MaybeStays s read W)
    (hp : p.Lands s V) : Leads s (p.andMaybe read) (Parsed.Lands s W) :=
  (h p.rest hp.1).map fun _ hq => hq

theorem Stays.behindMaybe {p : MaybeParsed c α} {read : Reader β} (h : Stays s read W)
    (hp : p.Lands s V) : Leads s (p.andThen read) (Parsed.Lands s W) :=
  (h p.rest hp.1).map fun _ hq => hq

theorem MaybeStays.behindMaybe {p : MaybeParsed c α} {read : MaybeReader β}
    (h : MaybeStays s read W) (hp : p.Lands s V) :
    Leads s (p.andMaybe read) (MaybeParsed.Lands s W) :=
  (h p.rest hp.1).map fun _ hq => hq

theorem stays_expect (kind : Kind) (needed : Expectation) :
    Stays s (Cursor.expect kind needed) (·.span.IsIn s) := by
  intro c hc
  unfold Cursor.expect
  split
  · rename_i p hp
    exact hc.take hp
  · exact leads_fail hc _ _

theorem Stays.loosely {read : Reader α} (h : Stays s read V) :
    Stays s (Grammar.loosely read) V := by
  intro c hc
  have skipped : c.newlines.Lands s fun _ => True := ⟨hc.skipNewlines, trivial⟩
  exact h.behindMaybe skipped

theorem leads_none :
    Leads s (.ok none : Attempt (Option (Parsed c α))) fun found =>
      ∀ p, found = some p → p.Lands s V := fun _ hp => nomatch hp

theorem Leads.toOption {r : Attempt (Parsed c α)} (h : Leads s r (Parsed.Lands s V)) :
    Leads s (r.map some) fun found => ∀ p, found = some p → p.Lands s V := by
  refine h.map fun p hp q hq => ?_
  obtain rfl := Option.some.inj hq
  exact hp

theorem Stays.behind {read : Reader α} (h : Stays s read V) {opening : Option (Parsed c Token)}
    (ho : ∀ p, opening = some p → p.Lands s (·.span.IsIn s)) :
    Leads s (Grammar.behind opening read) fun found => ∀ p, found = some p → p.Lands s V := by
  unfold Grammar.behind
  split
  · exact (h.andThen (ho _ rfl)).toOption
  · exact leads_none

theorem OptionStays.many {read : OptionReader α} (h : OptionStays s read V) :
    MaybeStays s (Grammar.many read) fun vs => ∀ v ∈ vs, V v := by
  intro c hc
  -- what the first round reads tells which case it is
  have step := h c hc
  fun_induction Grammar.many read c with
  | case1 c e hr =>
    rw [hr] at step
    exact step
  | case2 c hr => exact ⟨hc, List.forall_mem_nil V⟩
  | case3 c p hr e hmore ih =>
    rw [hr] at step
    have landed := step p rfl
    have more := ih landed.1 (h _ landed.1)
    rw [hmore] at more
    exact more
  | case4 c p hr q hmore ih =>
    rw [hr] at step
    have landed := step p rfl
    have more := ih landed.1 (h _ landed.1)
    rw [hmore] at more
    exact ⟨more.1, List.forall_mem_cons.mpr ⟨landed.2, more.2⟩⟩

theorem OptionStays.iterate {read : α → OptionReader α} (h : ∀ v, V v → OptionStays s (read v) V)
    {v : α} (start : V v) : MaybeStays s (Grammar.iterate read v) V := by
  intro c hc
  have step := h v start c hc
  fun_induction Grammar.iterate read v c with
  | case1 v c e hr =>
    rw [hr] at step
    exact step
  | case2 v c hr => exact ⟨hc, start⟩
  | case3 v c p hr ih =>
    rw [hr] at step
    have landed := step p rfl
    exact (ih landed.2 landed.1 (h _ landed.2 _ landed.1)).map fun _ hq => hq

/-- What is taken is a token of the text, whatever it depends on that it is taken at all. -/
theorem lands_ite {b : Prop} [Decidable b] {o o' : Option (Parsed c α)}
    (h : ∀ p, o = some p → p.Lands s V) (h' : ∀ p, o' = some p → p.Lands s V) :
    ∀ p, (if b then o else o') = some p → p.Lands s V := by
  split
  · exact h
  · exact h'

theorem lands_none : ∀ p, (none : Option (Parsed c α)) = some p → p.Lands s V :=
  fun _ hp => nomatch hp

end

/-- All of some trees are regions of a text. -/
abbrev AllIn (s : Source) (ts : List Tree) : Prop := ∀ t ∈ ts, t.IsIn s

theorem stays_closing (closer : Kind) : Stays s (closing closer) (·.span.IsIn s) := by
  intro c hc
  have last := (stays_expect (s := s) closer .closingDelimiter).loosely
  unfold closing
  split
  · rename_i comma hcomma
    exact last.andThen (hc.takeLoose hcomma)
  · exact last c hc

theorem isIn_leaf {t : Token} (h : t.span.IsIn s) (form : Form) (name : Bytes) :
    (leaf form t name).IsIn s := Tree.isIn_none h rfl

theorem isIn_reference {t : Token} (h : t.span.IsIn s) : (reference t).IsIn s :=
  Tree.isIn_one h rfl (isIn_leaf h _ _)

theorem isIn_extend {left : Tree} {t : Token} (hl : left.IsIn s) (h : t.span.IsIn s) :
    (extend left t).IsIn s := by
  have part := isIn_leaf h .aliasSegment t.value
  unfold extend
  dsimp only
  split
  · exact hl.append part
  · exact Tree.isIn_two (hl.span.to h) rfl hl part

theorem isIn_plainText {t : Token} (h : t.span.IsIn s) : (plainText t).IsIn s := by
  unfold plainText
  split
  · exact isIn_leaf h _ _
  · exact Tree.isIn_one h rfl (isIn_leaf h _ _)
  · exact isIn_leaf h _ _

theorem isIn_structHead {t : Token} {head : Tree} (h : t.span.IsIn s)
    (hh : structHead? t = some head) : head.IsIn s := by
  unfold structHead? at hh
  split at hh
  · obtain rfl := Option.some.inj hh
    exact isIn_reference h
  · obtain rfl := Option.some.inj hh
    exact isIn_leaf h _ _
  · obtain rfl := Option.some.inj hh
    exact isIn_leaf h _ _
  · obtain rfl := Option.some.inj hh
    exact isIn_leaf h _ _
  · cases hh

theorem stays_segment (name : Tree) (hn : name.IsIn s) :
    OptionStays s (segment? name) (Tree.IsIn s) := by
  intro c hc p hp
  obtain ⟨dot, hdot, hp⟩ := Option.bind_eq_some_iff.mp hp
  obtain ⟨segment, hsegment, hp⟩ := Option.bind_eq_some_iff.mp hp
  obtain rfl := Option.some.inj hp
  have landed := (hc.take hdot).1.take hsegment
  exact ⟨landed.1, isIn_extend hn landed.2⟩

end Grammar

end CallAtlas
