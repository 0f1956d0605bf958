import CallAtlas.Proofs.Grammar.Chains

/-! # Operators are grouped by their levels

A row of integers with binary operators between them has exactly one grouping in which every
operator binds looser than the operators in its operands, or equally tight on the side to which its
level groups. Reading an expression finds that grouping. It fails only if right operands are nested
deeper than is allowed, and then says so.
-/
namespace CallAtlas.Grammar

/-! ### Rows of operands and operators -/

namespace Operator

/-- The operators that are words of one token. -/
def words : List (Kind × Operator) :=
  [(.kwWhen, ⟨text "when", 2, true⟩), (.kwOr, ⟨text "or", 8, false⟩),
    (.kwAnd, ⟨text "and", 9, false⟩), (.kwIn, ⟨text "in", 13, false⟩)]

def table : List Operator := symbols ++ words.map Prod.snd ++ [notIn]

example : symbols.length = 41 ∧ table.length = 46 := by decide

/-- All operators of a level group to the same side. -/
theorem rightAssoc_of_level :
    ∀ a ∈ table, ∀ b ∈ table, a.level = b.level → a.rightAssoc = b.rightAssoc := by
  decide

inductive SpelledBy : Operator → List Token → Prop
  | symbol {op : Operator} {t : Token} (mem : op ∈ symbols) (kind : t.kind = .operator)
      (lexeme : t.lexeme = op.name) : SpelledBy op [t]
  | word {op : Operator} {t : Token} (mem : (t.kind, op) ∈ words) : SpelledBy op [t]
  | notIn {first second : Token} (hf : first.kind = .kwNot) (hs : second.kind = .kwIn) :
      SpelledBy notIn [first, second]

theorem SpelledBy.mem_table {op : Operator} {ts : List Token} (h : op.SpelledBy ts) :
    op ∈ table := by
  cases h with
  | symbol mem => exact List.mem_append_left _ (List.mem_append_left _ mem)
  | word mem =>
    exact List.mem_append_left _ (List.mem_append_right _ (List.mem_map.mpr ⟨_, mem, rfl⟩))
  | notIn => exact List.mem_append_right _ (List.mem_singleton.mpr rfl)

end Operator

structure Operand where
  token : Token
  kind : token.kind = .integer

structure Link where
  op : Operator
  tokens : List Token
  spelled : op.SpelledBy tokens

abbrev Links := List (Link × Operand)

def Links.tokens (links : Links) : List Token :=
  links.flatMap fun link => link.1.tokens ++ [link.2.token]

/-- A way to put parentheses into a row. -/
inductive Grouping where
  | operand (x : Operand)
  | apply (left : Grouping) (link : Link) (right : Grouping)

namespace Grouping

def first : Grouping → Operand
  | operand x => x
  | apply left _ _ => left.first

def last : Grouping → Operand
  | operand x => x
  | apply _ _ right => right.last

def links : Grouping → Links
  | operand _ => []
  | apply left link right => left.links ++ (link, right.first) :: right.links

def root? : Grouping → Option Link
  | operand _ => none
  | apply _ link _ => some link

def tree : Grouping → Tree
  | operand x => { form := .integer, span := x.token.span, name := x.token.value }
  | apply left link right =>
    { form := if link.op.name = text "=>" then .pair else .binaryOp
      span := left.tree.span.to right.tree.span
      name := link.op.name
      children := [left.tree, right.tree] }

/-- How many expressions are read inside one another: a right operand is read inside the expression
in which its operator stands. -/
def depth : Grouping → Nat
  | operand _ => 1
  | apply left _ right => max left.depth (right.depth + 1)

end Grouping

/-- Whether an operator can be the root of the left operand of another. -/
def Operator.FitsLeft (op inner : Operator) : Prop :=
  op.level < inner.level ∨ op.level = inner.level ∧ op.rightAssoc = false

/-- Whether an operator can be the root of the right operand of another. -/
def Operator.FitsRight (op inner : Operator) : Prop :=
  op.level < inner.level ∨ op.level = inner.level ∧ op.rightAssoc = true

/-- Every operator binds looser than those in its operands, or equally tight on the side to which
its level groups. -/
def Grouping.Binds : Grouping → Prop
  | operand _ => True
  | apply left link right =>
    left.Binds ∧ right.Binds ∧ (∀ inner ∈ left.root?, link.op.FitsLeft inner.op) ∧
      ∀ inner ∈ right.root?, link.op.FitsRight inner.op

/-! ### The grouping of a row -/

theorem Operator.FitsLeft.level_le {op inner : Operator} (h : op.FitsLeft inner) :
    op.level ≤ inner.level := by
  rcases h with h | h <;> omega

theorem Operator.FitsRight.level_le {op inner : Operator} (h : op.FitsRight inner) :
    op.level ≤ inner.level := by
  rcases h with h | h <;> omega

theorem Operator.fitsRight_iff {op inner : Operator} :
    op.FitsRight inner ↔ op.operandLevel ≤ inner.level := by
  unfold FitsRight operandLevel
  cases op.rightAssoc with
  | false => simp only [Bool.false_eq_true, and_false, or_false, if_false, Nat.lt_iff_add_one_le]
  | true => simp only [and_true, if_true, Nat.le_iff_lt_or_eq]

/-- An operator goes over another on its left exactly if it is no part of its right operand. -/
theorem Link.fitsLeft_iff {link inner : Link} :
    link.op.FitsLeft inner.op ↔ link.op.level < inner.op.operandLevel := by
  have assoc := Operator.rightAssoc_of_level _ link.spelled.mem_table _ inner.spelled.mem_table
  unfold Operator.FitsLeft Operator.operandLevel
  by_cases same : link.op.level = inner.op.level
  · rw [← assoc same]
    cases link.op.rightAssoc <;> simp [same]
  · cases inner.op.rightAssoc <;> simp <;> omega

theorem Operator.level_le_operandLevel (op : Operator) : op.level ≤ op.operandLevel := by
  unfold operandLevel
  split <;> omega

namespace Grouping

/-- Puts an operator and an operand behind a row. It goes into right operands as long as it binds
tight enough. -/
def insert (link : Link) (x : Operand) : Grouping → Grouping
  | operand y => apply (operand y) link (operand x)
  | apply left top right =>
    if link.op.level < top.op.operandLevel then apply (apply left top right) link (operand x)
    else apply left top (insert link x right)

/-- The grouping of a row, made from left to right. -/
def ofRow (start : Grouping) (links : Links) : Grouping :=
  links.foldl (fun g link => g.insert link.1 link.2) start

@[simp] theorem first_insert (link : Link) (x : Operand) (g : Grouping) :
    (g.insert link x).first = g.first := by
  induction g with
  | operand y => rfl
  | apply left top right _ _ =>
    rw [insert]
    split <;> rfl

@[simp] theorem links_insert (link : Link) (x : Operand) (g : Grouping) :
    (g.insert link x).links = g.links ++ [(link, x)] := by
  induction g with
  | operand y => rfl
  | apply left top right _ ih =>
    rw [insert]
    split
    · simp [links, first]
    · simp [links, ih]

/-- The root after an insertion is the old one or the new operator. -/
theorem root_insert (link : Link) (x : Operand) (g : Grouping) :
    (g.insert link x).root? = some link ∨ (g.insert link x).root? = g.root? := by
  cases g with
  | operand y => exact .inl rfl
  | apply left top right =>
    rw [insert]
    split
    · exact .inl rfl
    · exact .inr rfl

theorem Binds.insert {g : Grouping} (h : g.Binds) (link : Link) (x : Operand) :
    (g.insert link x).Binds := by
  induction g with
  | operand y => exact ⟨trivial, trivial, by simp [root?], by simp [root?]⟩
  | apply left top right _ ih =>
    obtain ⟨hl, hr, fitsLeft, fitsRight⟩ := h
    rw [Grouping.insert]
    split
    · rename_i looser
      refine ⟨⟨hl, hr, fitsLeft, fitsRight⟩, trivial, ?_, by simp [root?]⟩
      intro inner hi
      obtain rfl := Option.some.inj hi
      exact Link.fitsLeft_iff.mpr looser
    · rename_i tighter
      refine ⟨hl, ih hr, fitsLeft, ?_⟩
      intro inner hi
      rcases root_insert link x right with new | old
      · rw [new] at hi
        obtain rfl := Option.some.inj hi
        exact Operator.fitsRight_iff.mpr (Nat.le_of_not_lt tighter)
      · exact fitsRight inner (old ▸ hi)

theorem ofRow_spec (start : Grouping) (h : start.Binds) (links : Links) :
    (start.ofRow links).Binds ∧ (start.ofRow links).first = start.first ∧
      (start.ofRow links).links = start.links ++ links := by
  induction links generalizing start with
  | nil => exact ⟨h, rfl, (List.append_nil _).symm⟩
  | cons link links ih =>
    obtain ⟨binds, first, row⟩ := ih _ (h.insert link.1 link.2)
    refine ⟨binds, first.trans (first_insert ..), ?_⟩
    rw [ofRow, List.foldl_cons, ← ofRow, row, links_insert]
    simp

/-- No operator in a grouping binds looser than its root. -/
theorem Binds.level_le {g : Grouping} (h : g.Binds) {root : Link} (hr : root ∈ g.root?) :
    ∀ link ∈ g.links, root.op.level ≤ link.1.op.level := by
  induction g generalizing root with
  | operand x => simp [links]
  | apply left top right ihl ihr =>
    obtain ⟨hl, hright, fitsLeft, fitsRight⟩ := h
    obtain rfl := Option.some.inj hr
    have below {g : Grouping} (all : ∀ {inner}, inner ∈ g.root? →
        ∀ link ∈ g.links, inner.op.level ≤ link.1.op.level)
        (fits : ∀ inner ∈ g.root?, top.op.level ≤ inner.op.level) :
        ∀ link ∈ g.links, top.op.level ≤ link.1.op.level := by
      intro link hlink
      cases g with
      | operand x => cases hlink
      | apply _ inner _ => exact (fits _ rfl).trans (all rfl link hlink)
    rw [links]
    refine List.forall_mem_append.mpr ⟨?_, List.forall_mem_cons.mpr ⟨le_rfl, ?_⟩⟩
    · exact below (ihl hl) fun inner hi => (fitsLeft inner hi).level_le
    · exact below (ihr hright) fun inner hi => (fitsRight inner hi).level_le

/-- Operators that bind tight enough all go into the right operand. -/
theorem ofRow_apply {left right : Grouping} {top : Link} {links : Links}
    (h : ∀ link ∈ links, top.op.operandLevel ≤ link.1.op.level) :
    ofRow (apply left top right) links = apply left top (ofRow right links) := by
  induction links generalizing right with
  | nil => rfl
  | cons link links ih =>
    obtain ⟨tight, rest⟩ := List.forall_mem_cons.mp h
    rw [ofRow, List.foldl_cons, insert, if_neg (Nat.not_lt.mpr tight)]
    exact ih rest

/-- A grouping in which every operator binds as it should is the one made from its row. -/
theorem Binds.eq_ofRow {g : Grouping} (h : g.Binds) : ofRow (operand g.first) g.links = g := by
  induction g with
  | operand x => rfl
  | apply left top right ihl ihr =>
    obtain ⟨hl, hr, fitsLeft, fitsRight⟩ := h
    have rest : ∀ link ∈ right.links, top.op.operandLevel ≤ link.1.op.level := by
      intro link hlink
      cases right with
      | operand x => cases hlink
      | apply _ inner _ =>
        have inside := fitsRight inner rfl
        exact (Operator.fitsRight_iff.mp inside).trans (hr.level_le rfl link hlink)
    -- The left operand ends where the operator can go over it, and what is behind the operator goes
    -- into its right operand.
    have here : left.insert top right.first = apply left top (operand right.first) := by
      cases left with
      | operand x => rfl
      | apply _ inner _ =>
        have looser : top.op.FitsLeft inner.op := fitsLeft inner rfl
        rw [Grouping.insert, if_pos (Link.fitsLeft_iff.mp looser)]
    calc ofRow (operand left.first) (left.links ++ (top, right.first) :: right.links)
      _ = ofRow (ofRow (operand left.first) left.links) ((top, right.first) :: right.links) :=
        List.foldl_append
      _ = ofRow (left.insert top right.first) right.links := by
        rw [ihl hl]
        rfl
      _ = apply left top right := by rw [here, ofRow_apply rest, ihr hr]

end Grouping

/-! ### Reading a row -/

section Outcome

variable {c : Cursor}

def Parsed.outcome (r : Attempt (Parsed c Tree)) : Attempt (Tree × Cursor) :=
  r.map fun p => (p.value, p.rest)

def MaybeParsed.outcome (r : Attempt (MaybeParsed c Tree)) : Attempt (Tree × Cursor) :=
  r.map fun p => (p.value, p.rest)

theorem MaybeParsed.outcome_followedBy {α : Type} (p : MaybeParsed c α)
    (r : Attempt (MaybeParsed p.rest Tree)) : outcome (r.map p.followedBy) = outcome r := by
  cases r <;> rfl

theorem Parsed.outcome_andMaybe {α : Type} (p : Parsed c α) (read : MaybeReader Tree) :
    outcome (p.andMaybe read) = MaybeParsed.outcome (read p.rest) := by
  unfold andMaybe
  cases read p.rest <;> rfl

theorem Parsed.outcome_andThen {α : Type} (p : Parsed c α) (read : Reader Tree) :
    outcome (p.andThen read) = outcome (read p.rest) := by
  unfold andThen
  cases read p.rest <;> rfl

end Outcome

/-- What stands behind a row: nothing but the end of the file. -/
structure Ending where
  tail : List Token
  last : Token
  tail_eof : ∀ t ∈ tail, t.kind = .eof
  last_eof : last.kind = .eof

namespace Ending

variable (e : Ending)

def before (links : Links) (previous : Token) : Cursor :=
  ⟨links.tokens ++ e.tail, e.last, previous⟩

/-- The place before an operand, behind which a row goes on. -/
def beforeOperand (x : Operand) (links : Links) (previous : Token) : Cursor :=
  ⟨x.token :: (links.tokens ++ e.tail), e.last, previous⟩

theorem before_cons (link : Link) (x : Operand) (links : Links) (previous : Token) :
    e.before ((link, x) :: links) previous =
      ⟨link.tokens ++ x.token :: (links.tokens ++ e.tail), e.last, previous⟩ := by
  simp [before, Links.tokens]

theorem peek_end (previous : Token) : (e.before [] previous).peek.kind = .eof := by
  unfold before Cursor.peek
  cases h : e.tail with
  | nil => exact e.last_eof
  | cons t ts => exact e.tail_eof t (by simp [h])

theorem next_end (previous : Token) : (e.before [] previous).next? = none := by
  have kind := e.peek_end previous
  unfold Cursor.next?
  split
  · rfl
  · rename_i t ts rest
    have eof : t.kind = .eof := by simpa [Cursor.peek, rest] using kind
    rw [if_pos eof]

theorem operator_end (previous : Token) : (e.before [] previous).operator? = none := by
  have kind := e.peek_end previous
  simp [Cursor.operator?, Operator.ofToken?, Cursor.take?, Cursor.takeIf?, kind]

end Ending

theorem Link.exists_tokens (link : Link) :
    ∃ t ts, link.tokens = t :: ts ∧ t.kind ≠ .eof ∧ t.kind ≠ .dot ∧ t.kind ≠ .lbracket ∧
      t.kind ≠ .lparen := by
  obtain ⟨op, tokens, spelled⟩ := link
  cases spelled with
  | symbol mem kind lexeme => exact ⟨_, _, rfl, by simp [kind]⟩
  | word mem =>
    refine ⟨_, _, rfl, ?_⟩
    simp only [Operator.words, List.mem_cons, Prod.mk.injEq, List.not_mem_nil, or_false] at mem
    rcases mem with ⟨kind, -⟩ | ⟨kind, -⟩ | ⟨kind, -⟩ | ⟨kind, -⟩ <;> simp [kind]
  | notIn hf hs => exact ⟨_, _, rfl, by simp [hf]⟩

/-- A symbol is found by its text. -/
theorem Operator.find_symbol : ∀ op ∈ symbols, symbols.find? (·.name == op.name) = some op := by
  decide

theorem Operator.ofToken_of_spelled {op : Operator} {t : Token} (h : op.SpelledBy [t]) :
    ofToken? t = some op := by
  cases h with
  | symbol mem kind lexeme => simp [ofToken?, kind, lexeme, find_symbol op mem]
  | word mem =>
    simp only [words, List.mem_cons, Prod.mk.injEq, List.not_mem_nil, or_false] at mem
    rcases mem with ⟨kind, rfl⟩ | ⟨kind, rfl⟩ | ⟨kind, rfl⟩ | ⟨kind, rfl⟩ <;> simp [ofToken?, kind]

theorem Cursor.operator_of_spelled {op : Operator} {t : Token} (h : op.SpelledBy [t])
    (real : t.kind ≠ .eof) (ts : List Token) (last previous : Token) :
    (Cursor.mk (t :: ts) last previous).operator? =
      some ⟨op, ⟨ts, last, t⟩, Nat.lt_succ_self _⟩ := by
  have found : Operator.ofToken? (Cursor.mk (t :: ts) last previous).peek = some op :=
    Operator.ofToken_of_spelled h
  rw [operator?, found, next_cons real]
  rfl

/-- The operator that stands next is the one that is written. -/
theorem Link.operator_eq (link : Link) (ts : List Token) (last previous : Token) :
    ∃ previous' lt, (Cursor.mk (link.tokens ++ ts) last previous).operator? =
      some ⟨link.op, ⟨ts, last, previous'⟩, lt⟩ := by
  obtain ⟨t, more, tokens, real, -⟩ := link.exists_tokens
  obtain ⟨op, _, spelled⟩ := link
  cases spelled with
  | symbol mem kind lexeme =>
    obtain ⟨rfl, rfl⟩ := List.cons.inj tokens
    exact ⟨_, _, Cursor.operator_of_spelled (.symbol mem kind lexeme) real ts last previous⟩
  | word mem =>
    obtain ⟨rfl, rfl⟩ := List.cons.inj tokens
    exact ⟨_, _, Cursor.operator_of_spelled (.word mem) real ts last previous⟩
  | @notIn first second hf hs =>
    refine ⟨second, ?_, ?_⟩
    · simp only [Cursor.size, List.cons_append, List.nil_append, List.length_cons]
      omega
    · simp [Cursor.operator?, Operator.ofToken?, Cursor.peek, Cursor.take?, Cursor.takeIf?, hf, hs,
        Cursor.next_cons, Parsed.followedBy, Parsed.map]

theorem Ending.operator_link (e : Ending) (link : Link) (x : Operand) (links : Links)
    (previous : Token) :
    ∃ previous' lt, (e.before ((link, x) :: links) previous).operator? =
      some ⟨link.op, e.beforeOperand x links previous', lt⟩ := by
  rw [e.before_cons]
  exact link.operator_eq (x.token :: (links.tokens ++ e.tail)) e.last previous

section Row

variable (e : Ending) (expr : Expr) (blocks : Bool)

/-- No dot, bracket or parenthesis stands behind an operand of a row. -/
theorem suffix_links (left : Tree) (links : Links) (previous : Token) :
    suffix? expr blocks left (e.before links previous) = .ok none := by
  cases links with
  | nil => rw [suffix?, e.next_end]
  | cons link links =>
    obtain ⟨t, more, tokens, real, dot, bracket, paren⟩ := link.1.exists_tokens
    rw [e.before_cons, tokens, List.cons_append, suffix?, Cursor.next_cons real]
    dsimp only
    split <;> first | contradiction | rfl

theorem next_operand (x : Operand) (links : Links) (previous : Token) :
    (e.beforeOperand x links previous).next? =
      some ⟨x.token, e.before links x.token, Nat.lt_succ_self _⟩ :=
  Cursor.next_cons (by simp [x.kind]) (links.tokens ++ e.tail) e.last previous

theorem operand_row (x : Operand) (links : Links) (previous : Token) :
    ∃ lt, operand expr blocks (e.beforeOperand x links previous) =
      .ok ⟨(Grouping.operand x).tree, e.before links x.token, lt⟩ := by
  have next := next_operand e x links previous
  have first : primary expr blocks (e.beforeOperand x links previous) =
      .ok ⟨(Grouping.operand x).tree, e.before links x.token, Nat.lt_succ_self _⟩ := by
    simp only [primary, next, x.kind]
    rfl
  have alone : suffixes expr blocks (Grouping.operand x).tree (e.before links x.token) =
      .ok ((e.before links x.token).stay (Grouping.operand x).tree) := by
    rw [suffixes, iterate, suffix_links]
  have noSymbol (op : String) : x.token.isOp op = false := by simp [Token.isOp, x.kind]
  have noSign : unaryName? x.token = none := by simp [unaryName?, x.kind, noSymbol]
  simp only [operand, next, x.kind, noSymbol, noSign, first, bind, Except.bind, Parsed.andMaybe,
    alone, Except.map, reduceCtorEq, if_false, Bool.false_eq_true]
  exact ⟨Nat.lt_succ_self _, rfl⟩

/-- An operator that binds looser is left to others. -/
theorem climb_stop {level : Nat} (left : Tree) {links : Links}
    (looser : ∀ link ∈ links.head?, link.1.op.level < level) (previous : Token) :
    MaybeParsed.outcome (climb expr level blocks left (e.before links previous)) =
      .ok (left, e.before links previous) := by
  have none : application? expr level blocks left (e.before links previous) = .ok none := by
    cases links with
    | nil => rw [application?, e.operator_end]
    | cons link links =>
      obtain ⟨previous', lt, found⟩ := e.operator_link link.1 link.2 links previous
      rw [application?, found]
      exact if_pos (looser link rfl)
  rw [climb, iterate, none]
  rfl

/-- An operator that binds tight enough is applied to what has been read and to its right operand.
-/
theorem climb_link {level : Nat} (left : Tree) {link : Link} (tight : level ≤ link.op.level)
    (x : Operand) (links : Links) (previous : Token) :
    ∃ previous', MaybeParsed.outcome
        (climb expr level blocks left (e.before ((link, x) :: links) previous)) =
      (do
        let right ← Parsed.outcome
          (expr link.op.operandLevel blocks (e.beforeOperand x links previous'))
        MaybeParsed.outcome (climb expr level blocks (link.op.apply left right.1) right.2)) := by
  obtain ⟨previous', lt, found⟩ := e.operator_link link x links previous
  let c := e.beforeOperand x links previous'
  have noKey : c.sees .keywordKey = false := by
    simp [c, Cursor.sees, Cursor.peek, Ending.beforeOperand, x.kind]
  have read : rightOperand expr blocks link.op c = expr link.op.operandLevel blocks c := by
    simp [rightOperand, noKey]
  have applied : application? expr level blocks left (e.before ((link, x) :: links) previous) =
      (expr link.op.operandLevel blocks c).map fun right =>
        some ⟨link.op.apply left right.value, right.rest, Nat.lt_trans right.size_lt lt⟩ := by
    rw [application?, found]
    dsimp only
    rw [if_neg (Nat.not_lt.mpr tight), Parsed.andThen]
    dsimp only
    rw [read]
    cases expr link.op.operandLevel blocks c <;> rfl
  refine ⟨previous', ?_⟩
  rw [climb, iterate, applied]
  change _ = (Parsed.outcome (expr link.op.operandLevel blocks c) >>= _)
  cases expr link.op.operandLevel blocks c with
  | error err => rfl
  | ok right => exact MaybeParsed.outcome_followedBy _ _

end Row

/-! ### The whole row -/

/-- Fails because expressions are nested too deep. -/
def TooDeep {α : Type} (r : Attempt α) : Prop :=
  ∃ found, r = .error (.unexpected .lessNesting found)

namespace Grouping

theorem depth_pos (g : Grouping) : 0 < g.depth := by
  induction g with
  | operand x => exact Nat.one_pos
  | apply left link right ihl _ => exact Nat.lt_of_lt_of_le ihl (Nat.le_max_left _ _)

/-- Climbing over the operators of a grouping from its first operand comes to the tree of the
grouping, from which it goes on with the operators behind. -/
def Climbs (g : Grouping) : Prop :=
  ∀ (e : Ending) (limit level : Nat) (blocks : Bool) (links : Links),
    (∀ root ∈ g.root?, level ≤ root.op.level) →
    (∀ link ∈ links.head?, ∀ root ∈ g.root?, link.1.op.level < root.op.operandLevel) →
    let climbed := MaybeParsed.outcome (climb (expressionAt limit) level blocks
      (operand g.first).tree (e.before (g.links ++ links) g.first.token))
    (g.depth ≤ limit + 1 → climbed = MaybeParsed.outcome
      (climb (expressionAt limit) level blocks g.tree (e.before links g.last.token))) ∧
    (limit + 1 < g.depth → TooDeep climbed)

/-- An expression is read to the end of the grouping if what follows binds looser. -/
theorem Climbs.reads {g : Grouping} (h : g.Climbs) (e : Ending) (limit : Nat) {level : Nat}
    (blocks : Bool) (links : Links) (tight : ∀ root ∈ g.root?, level ≤ root.op.level)
    (looser : ∀ link ∈ links.head?, link.1.op.level < level) (previous : Token) :
    let read := Parsed.outcome (expressionAt limit level blocks
      (e.beforeOperand g.first (g.links ++ links) previous))
    (g.depth ≤ limit → read = .ok (g.tree, e.before links g.last.token)) ∧
    (limit < g.depth → TooDeep read) := by
  intro read
  cases limit with
  | zero =>
    have pos := g.depth_pos
    exact ⟨fun small => by omega, fun _ => ⟨_, rfl⟩⟩
  | succ limit =>
    obtain ⟨lt, first⟩ :=
      operand_row e (expressionAt limit) blocks g.first (g.links ++ links) previous
    have climbed : read = MaybeParsed.outcome (climb (expressionAt limit) level blocks
        (operand g.first).tree (e.before (g.links ++ links) g.first.token)) := by
      simp only [read, expressionAt, expression, first, bind, Except.bind]
      exact Parsed.outcome_andMaybe _ _
    obtain ⟨shallow, deep⟩ := h e limit level blocks links tight fun link hlink root hroot =>
      calc link.1.op.level
        _ < level := looser link hlink
        _ ≤ root.op.level := tight root hroot
        _ ≤ root.op.operandLevel := root.op.level_le_operandLevel
    rw [climbed]
    refine ⟨fun small => ?_, deep⟩
    rw [shallow small]
    exact climb_stop e (expressionAt limit) blocks g.tree looser g.last.token

/-- Over an operator the climb comes to the left operand, takes the operator, reads the right
operand up to the first operator that binds looser, and goes on from there. -/
theorem Binds.climbs {g : Grouping} (h : g.Binds) : g.Climbs := by
  induction g with
  | operand x =>
    intro e limit level blocks links _ _ climbed
    exact ⟨fun _ => rfl, fun deep => by simp [depth] at deep⟩
  | apply left link right ihl ihr =>
    obtain ⟨hl, hr, fitsLeft, fitsRight⟩ := h
    intro e limit level blocks links tight looser climbed
    have here : level ≤ link.op.level := tight link rfl
    have tightLeft : ∀ root ∈ left.root?, level ≤ root.op.level := by
      intro root hroot
      exact here.trans (fitsLeft root hroot).level_le
    have looserLeft : ∀ root ∈ left.root?, link.op.level < root.op.operandLevel :=
      fun root hroot => Link.fitsLeft_iff.mp (fitsLeft root hroot)
    obtain ⟨shallowLeft, deepLeft⟩ :=
      ihl hl e limit level blocks ((link, right.first) :: (right.links ++ links)) tightLeft
        (by simpa using looserLeft)
    obtain ⟨previous, step⟩ := climb_link e (expressionAt limit) blocks left.tree here right.first
      (right.links ++ links) left.last.token
    obtain ⟨shallowRight, deepRight⟩ := (ihr hr).reads e limit blocks links
      (fun root hroot => Operator.fitsRight_iff.mp (fitsRight root hroot))
      (fun other ho => looser other ho link rfl) previous
    have row : climbed = MaybeParsed.outcome (climb (expressionAt limit) level blocks
        (operand left.first).tree
        (e.before (left.links ++ (link, right.first) :: (right.links ++ links))
          left.first.token)) := by
      change MaybeParsed.outcome (climb _ _ _ _ (e.before (_ ++ _ :: _ ++ links) _)) = _
      rw [List.append_assoc, List.cons_append]
      rfl
    rw [row, depth]
    constructor
    · intro small
      obtain ⟨smallLeft, smallRight⟩ := Nat.max_le.mp small
      rw [shallowLeft smallLeft, step, shallowRight (Nat.le_of_succ_le_succ smallRight)]
      rfl
    · intro big
      by_cases smallLeft : left.depth ≤ limit + 1
      · rw [shallowLeft smallLeft, step]
        obtain ⟨found, failed⟩ := deepRight (by omega)
        rw [failed]
        exact ⟨found, rfl⟩
      · exact deepLeft (Nat.lt_of_not_le smallLeft)

end Grouping

theorem Operator.SpelledBy.kind_ne_eof {op : Operator} {ts : List Token} (h : op.SpelledBy ts) :
    ∀ t ∈ ts, t.kind ≠ .eof := by
  cases h with
  | symbol mem kind lexeme => simp [kind]
  | word mem =>
    rw [List.forall_mem_singleton]
    intro eof
    simp [eof, words] at mem
  | notIn hf hs => simp [hf, hs]

theorem Links.kind_ne_eof (links : Links) : ∀ t ∈ links.tokens, t.kind ≠ .eof := by
  intro t ht
  obtain ⟨link, -, ht⟩ := List.mem_flatMap.mp ht
  rcases List.mem_append.mp ht with ht | ht
  · exact link.1.spelled.kind_ne_eof t ht
  · obtain rfl := List.mem_singleton.mp ht
    simp [link.2.kind]

/-- A row that is a whole token list, with or without an end-of-file token, is read from its
start. -/
theorem ofTokens_row (x : Operand) (links : Links) {tail : List Token}
    (ended : ∀ t ∈ tail, t.kind = .eof) :
    ∃ e : Ending, ∃ previous,
      Cursor.ofTokens (x.token :: (links.tokens ++ tail)) = e.beforeOperand x links previous := by
  have real : NoEnd (x.token :: links.tokens) :=
    noEnd_cons.mpr ⟨by simp [x.kind], links.kind_ne_eof⟩
  obtain ⟨more, last, previous, before, eof, -, start⟩ := Cursor.ofTokens_of_noEnd real ended
  exact ⟨⟨more, last, before, eof⟩, previous, start⟩

theorem parseExpression_row {tokens : List Token} {e : Ending} {x : Operand} {links : Links}
    {previous : Token} (start : Cursor.ofTokens tokens = e.beforeOperand x links previous) :
    parseExpression tokens = (Parsed.outcome (expressionAt maxNesting 0 true
      (e.beforeOperand x links previous))).map Prod.fst := by
  let c := e.beforeOperand x links previous
  have solid : c.skipNewlines = c := by
    rw [Cursor.skipNewlines]
    simp [c, Cursor.take?, Cursor.takeIf?, Cursor.peek, Ending.beforeOperand, x.kind]
  have here : c.newlines = c.stay () := by simp [Cursor.newlines, Cursor.stay, solid]
  rw [parseExpression, start, loosely]
  change (c.newlines.andThen (expressionAt maxNesting 0 true) >>= _) = _
  rw [here]
  change ((expressionAt maxNesting 0 true c).map _ >>= _) =
    (Parsed.outcome (expressionAt maxNesting 0 true c)).map _
  cases expressionAt maxNesting 0 true c <;> rfl

/-- Of all groupings of a row of integers and binary operators exactly one has every operator bind
looser than those in its operands, or equally tight on the side to which its level groups. Reading
the row gives the tree of this grouping, in which `=>` makes pairs, unless right operands are nested
deeper than is allowed; then the error says so. -/
theorem row_grouped_by_level (x : Operand) (links : Links) {tail : List Token}
    (ended : ∀ t ∈ tail, t.kind = .eof) :
    ∃ g : Grouping, g.first = x ∧ g.links = links ∧ g.Binds ∧
      (∀ other : Grouping, other.first = x → other.links = links → other.Binds → other = g) ∧
      let parsed := parseExpression (x.token :: (links.tokens ++ tail))
      (g.depth ≤ maxNesting → parsed = .ok g.tree) ∧ (maxNesting < g.depth → TooDeep parsed) := by
  let g := Grouping.ofRow (.operand x) links
  obtain ⟨binds, first, row⟩ : g.Binds ∧ g.first = x ∧ g.links = links :=
    Grouping.ofRow_spec (.operand x) trivial links
  refine ⟨g, first, row, binds, ?_, ?_⟩
  · rintro other rfl rfl bound
    exact bound.eq_ofRow.symm
  · obtain ⟨e, previous, start⟩ := ofTokens_row x links ended
    obtain ⟨shallow, deep⟩ := binds.climbs.reads e maxNesting true []
      (fun _ _ => Nat.zero_le _) (by simp) previous
    rw [first, row, List.append_nil] at shallow deep
    rw [parseExpression_row start]
    constructor
    · intro small
      rw [shallow small]
      rfl
    · intro big
      obtain ⟨found, failed⟩ := deep big
      rw [failed]
      exact ⟨found, rfl⟩

def plainInteger (digit : String) : Operand := ⟨{ kind := .integer, value := text digit }, rfl⟩

def plainSymbol (op : Operator) (mem : op ∈ Operator.symbols) : Link :=
  ⟨op, [{ kind := .operator, lexeme := op.name }], .symbol mem rfl rfl⟩

/-- `1 - 2 ++ 3 ++ 4` is read as `(1 - 2) ++ (3 ++ 4)`. -/
theorem sampleRow_grouped :
    let minus := plainSymbol ⟨text "-", 16, false⟩ (by decide)
    let join := plainSymbol ⟨text "++", 15, true⟩ (by decide)
    let links : Links :=
      [(minus, plainInteger "2"), (join, plainInteger "3"), (join, plainInteger "4")]
    let left : Grouping := .apply (.operand (plainInteger "1")) minus (.operand (plainInteger "2"))
    let right : Grouping := .apply (.operand (plainInteger "3")) join (.operand (plainInteger "4"))
    parseExpression ((plainInteger "1").token :: (links.tokens ++ [{ kind := .eof }])) =
      .ok (Grouping.apply left join right).tree := by
  intro minus join links left right
  let tail : List Token := [{ kind := .eof }]
  have ended : ∀ t ∈ tail, t.kind = .eof := by simp [tail]
  obtain ⟨g, -, -, -, unique, read, -⟩ := row_grouped_by_level (plainInteger "1") links ended
  have binds : (Grouping.apply left join right).Binds := by
    refine ⟨⟨trivial, trivial, by simp [Grouping.root?], by simp [Grouping.root?]⟩,
      ⟨trivial, trivial, by simp [Grouping.root?], by simp [Grouping.root?]⟩, ?_, ?_⟩
    · rintro inner ⟨⟩
      exact .inl (by decide)
    · rintro inner ⟨⟩
      exact .inr (by decide)
  obtain rfl := unique (.apply left join right) rfl rfl binds
  exact read (by decide)

end CallAtlas.Grammar
