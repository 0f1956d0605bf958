import CallAtlas.Proofs.Grammar.Height
import CallAtlas.Proofs.Grammar.Stops
import CallAtlas.Proofs.Token.TrailingText

/-! # Chains of any length

In `x.y.y.y` each member is put behind the field access before it, which becomes its child. The loop
that reads them never reads an expression inside another one, so a chain of any length is accepted,
and the tree of a chain of `n` members is `n + 2` levels high.
-/
namespace CallAtlas

/-- A dot and a name, `n` times. -/
def memberText : Nat → Bytes
  | 0 => []
  | n + 1 => '.' :: 'y' :: memberText n

/-- A field of a field of a field, `n` times. -/
def memberSource (n : Nat) : Source := ⟨Source.defaultName, 'x' :: memberText n⟩

/-- Dots and names in turn, with no blanks before the dots. -/
inductive Members : Nat → List Token → Prop
  | nil : Members 0 []
  | cons {n ts} {dot name : Token} : dot.kind = .dot → dot.spaceBefore = false →
      name.kind = .identifier → Members n ts → Members (n + 1) (dot :: name :: ts)

/-! ### Their tokens -/

namespace Lexer

theorem scan_dot (n : Nat) :
    scan (memberText (n + 1)) [] = ({ kind := .dot, width := 1 }, []) := rfl

theorem scan_name {b : UInt8} (hb : b = 'x' ∨ b = 'y') (n : Nat) :
    scan (b :: memberText n) [] = ({ kind := .identifier, width := 1, value := [b] }, []) := by
  rcases hb with rfl | rfl
  · cases n <;> rfl
  · cases n <;> rfl

theorem tokensFrom_members (lines : LineTable) (last : Kind) (offset n : Nat) :
    ∃ ts eof, tokensFrom lines last [] offset (memberText n) = (ts ++ [eof], []) ∧ Members n ts ∧
      eof.kind = .eof ∧ eof.spaceBefore = false := by
  induction n generalizing last offset with
  | zero =>
    exact ⟨[], _, tokensFrom_nil lines last offset, .nil, rfl, rfl⟩
  | succ n ih =>
    obtain ⟨ts, eof, more, members, hk, hs⟩ := ih .identifier (offset + 1 + 1)
    have name := tokensFrom_solid .dot (by decide) (scan_name (.inr rfl) n) rfl more
    have dot := tokensFrom_solid last (by decide) (scan_dot n) rfl name
    exact ⟨_ :: _ :: ts, eof, dot, .cons rfl rfl rfl members, hk, hs⟩

theorem tokenize_members (n : Nat) :
    ∃ first ts eof, tokenize (memberSource n) = (first :: ts ++ [eof], []) ∧
      first.kind = .identifier ∧ Members n ts ∧ eof.kind = .eof ∧ eof.spaceBefore = false := by
  obtain ⟨ts, eof, more, members, hk, hs⟩ :=
    tokensFrom_members (memberSource n).lineTable .identifier (0 + 1) n
  have first := tokensFrom_solid .newline (by decide) (scan_name (.inl rfl) n) rfl more
  exact ⟨_, ts, eof, first, rfl, members, hk, hs⟩

end Lexer

/-! ### Their trees -/

namespace Grammar

theorem Cursor.next_cons {t : Token} (ht : t.kind ≠ .eof) (ts : List Token)
    (last previous : Token) :
    (Cursor.mk (t :: ts) last previous).next? = some ⟨t, ⟨ts, last, t⟩, Nat.lt_succ_self _⟩ := by
  simp [next?, ht]

/-- At the end nothing is taken. -/
theorem Cursor.take_end (kind : Kind) (last previous : Token) :
    (Cursor.mk [] last previous).take? kind = none := by
  simp [take?, takeIf?, next?]

theorem stops_end {last : Token} (hk : last.kind = .eof) (previous : Token) :
    stopsAt false (Cursor.mk [] last previous).peek.kind := by
  simp [Cursor.peek, hk, stopsAt]

theorem skipNewlines_end (last previous : Token) :
    (Cursor.mk [] last previous).skipNewlines = ⟨[], last, previous⟩ := by
  rw [Cursor.skipNewlines, Cursor.take_end]

theorem atBlockEnd_end {last : Token} (hk : last.kind = .eof) (previous : Token) :
    (Cursor.mk [] last previous).atBlockEnd :=
  have kind : (Cursor.mk [] last previous).peek.kind = .eof := hk
  Cursor.atBlockEnd_of_kind kind

section Members

variable {n : Nat} {ts : List Token} {eof : Token} (hk : eof.kind = .eof)
  (hs : eof.spaceBefore = false)

include hk hs

/-- A dot or the end of the file follows a name. -/
theorem peek_members (h : Members n ts) (previous : Token) :
    let next := (Cursor.mk ts eof previous).peek
    (next.kind = .dot ∨ next.kind = .eof) ∧ next.spaceBefore = false := by
  cases h with
  | nil => exact ⟨.inr hk, hs⟩
  | cons hd hds _ _ => exact ⟨.inl hd, hds⟩

theorem arguments_members (expr : Expr) (h : Members n ts) (previous : Token) :
    let c : Cursor := ⟨ts, eof, previous⟩
    arguments? expr c = .ok (c.stay none) := by
  intro c
  obtain ⟨kind, space⟩ := peek_members hk hs h previous
  have paren : c.peek.kind ≠ .lparen := by
    rcases kind with kind | kind <;> simp [c, kind]
  simp [arguments?, Cursor.take?, Cursor.takeIf?, startsArgument, c, space, paren]

/-- A dot and a name make one more level. -/
theorem suffix_member (expr : Expr) (blocks : Bool) {left : Tree} {dot name : Token}
    (previous : Token) (hd : dot.kind = .dot) (hn : name.kind = .identifier)
    (h : Members n ts) (hl : isModuleReceiver left = false) :
    ∃ p, suffix? expr blocks left ⟨dot :: name :: ts, eof, previous⟩ = .ok (some p) ∧
      p.rest = ⟨ts, eof, name⟩ ∧ isModuleReceiver p.value = false ∧
      p.value.height = left.height + 1 := by
  have dotNext := Cursor.next_cons (t := dot) (by simp [hd]) (name :: ts) eof previous
  have nameNext := Cursor.next_cons (t := name) (by simp [hn]) ts eof dot
  have none := arguments_members hk hs expr h name
  simp only [suffix?, dotNext, hd, Parsed.andThen, dotted, nameNext, hn, namesMember,
    Parsed.andMaybe, member, none, hl]
  refine ⟨_, rfl, rfl, rfl, ?_⟩
  simp [Tree.height, Tree.heightOf]

theorem suffixes_members (expr : Expr) (blocks : Bool) {left : Tree} (previous : Token)
    (h : Members n ts) (hl : isModuleReceiver left = false) :
    ∃ p, suffixes expr blocks left ⟨ts, eof, previous⟩ = .ok p ∧
      (∃ name, p.rest = ⟨[], eof, name⟩) ∧ p.value.height = left.height + n := by
  unfold suffixes
  induction h generalizing left previous with
  | nil =>
    rw [iterate]
    exact ⟨_, rfl, ⟨previous, rfl⟩, rfl⟩
  | @cons n ts dot name hd _ hn more ih =>
    obtain ⟨⟨member, _, _⟩, hp, rfl, receiver, high⟩ :=
      suffix_member hk hs expr blocks previous hd hn more hl
    obtain ⟨q, hq, ended, higher⟩ := ih name receiver
    rw [iterate, hp]
    dsimp only
    rw [hq]
    refine ⟨_, rfl, ended, ?_⟩
    calc q.value.height
      _ = member.height + n := higher
      _ = left.height + (n + 1) := by rw [high]; omega

theorem primary_members (expr : Expr) (blocks : Bool) {first : Token}
    (hf : first.kind = .identifier) (previous : Token) (h : Members n ts) :
    ∃ lt, primary expr blocks ⟨first :: ts, eof, previous⟩ =
      .ok ⟨leaf .var first first.value, ⟨ts, eof, first⟩, lt⟩ := by
  have next := Cursor.next_cons (t := first) (by simp [hf]) ts eof previous
  have none := arguments_members hk hs expr h first
  have word : (Cursor.mk ts eof first).sees .kwDo = false := by
    rcases (peek_members hk hs h first).1 with kind | kind <;> simp [Cursor.sees, kind]
  have var : identifier expr blocks first ⟨ts, eof, first⟩ =
      .ok ((Cursor.mk ts eof first).stay (leaf .var first first.value)) := by
    simp only [identifier, none, bind, Except.bind]
    simp [Cursor.stay, word, MaybeParsed.map, pure, Except.pure]
  simp only [primary, next, hf, Parsed.andMaybe, var]
  exact ⟨Nat.lt_succ_self _, rfl⟩

theorem expression_members (expr : Expr) (level : Nat) (blocks : Bool) {first : Token}
    (hf : first.kind = .identifier) (previous : Token) (h : Members n ts) :
    ∃ p, expression expr level blocks ⟨first :: ts, eof, previous⟩ = .ok p ∧
      (∃ name, p.rest = ⟨[], eof, name⟩) ∧ p.value.height = n + 1 := by
  have next := Cursor.next_cons (t := first) (by simp [hf]) ts eof previous
  obtain ⟨lt, hprimary⟩ := primary_members hk hs expr blocks hf previous h
  have receiver : isModuleReceiver (leaf .var first first.value) = false := rfl
  obtain ⟨⟨t, _, _⟩, hsuffixes, ⟨name, rfl⟩, high⟩ :=
    suffixes_members hk hs expr blocks first h receiver
  have hclimb := climb_of_stops (stops_end hk name) expr level blocks t
  refine ⟨⟨t, ⟨[], eof, name⟩, Nat.zero_lt_succ _⟩, ?_, ⟨name, rfl⟩, ?_⟩
  · simp [expression, operand, next, hf, Token.isOp, unaryName?, hprimary, bind, Except.bind,
      Parsed.andMaybe, hsuffixes, Except.map, hclimb, Cursor.stay]
  · have leafHeight : (leaf .var first first.value).height = 1 := by
      simp [leaf, Tree.height, Tree.heightOf]
    rw [high, leafHeight, Nat.add_comm]

/-- The names make up one line, which is a statement. -/
theorem line_members (expr : Expr) {first : Token} (hf : first.kind = .identifier)
    (previous : Token) (h : Members n ts) :
    ∃ t name lt, line (expression expr) ⟨first :: ts, eof, previous⟩ =
      .ok ⟨.statement t, ⟨[], eof, name⟩, lt⟩ ∧ t.height = n + 1 := by
  have arrow : (Cursor.mk (first :: ts) eof previous).take? .arrow = none := by
    simp [Cursor.take?, Cursor.takeIf?, Cursor.peek, hf]
  obtain ⟨⟨t, _, lt⟩, hexpr, ⟨name, rfl⟩, high⟩ :=
    expression_members hk hs expr 0 true hf previous h
  have ended := atBlockEnd_end hk name
  have alone := moreArguments_of_stops (stops_end hk name) (expression expr) true
  refine ⟨t, name, lt, ?_, high⟩
  simp [line, arrow, hexpr, bind, Except.bind, pure, Except.pure, Parsed.andMaybe, alone,
    Except.map, Parsed.map, Cursor.stay, Cursor.take_end, ended]

theorem block_members (expr : Expr) {first : Token} (hf : first.kind = .identifier)
    (previous : Token) (h : Members n ts) :
    ∃ p, block (expression expr) ⟨first :: ts, eof, previous⟩ = .ok p ∧
      (∃ name, p.rest = ⟨[], eof, name⟩) ∧ p.value.height = n + 2 := by
  let c : Cursor := ⟨first :: ts, eof, previous⟩
  have solid : c.skipNewlines = c := by
    rw [Cursor.skipNewlines]
    simp [c, Cursor.take?, Cursor.takeIf?, Cursor.peek, hf]
  have starts : c.atBlockEnd = false := by
    simp [c, Cursor.atBlockEnd, Cursor.atEnd, Cursor.sees, Cursor.peek, hf, Kind.isSection]
  obtain ⟨t, name, lt, hline, high⟩ := line_members hk hs expr hf previous h
  have first : nextLine (expression expr) c = .ok (some ⟨.statement t, ⟨[], eof, name⟩, lt⟩) := by
    have here : c.newlines = c.stay () := by simp [Cursor.newlines, Cursor.stay, solid]
    rw [nextLine, solid, starts, loosely, here]
    simp [MaybeParsed.andThen, Cursor.stay, hline, Except.map, c]
  have second : nextLine (expression expr) ⟨[], eof, name⟩ = .ok none := by
    simp [nextLine, skipNewlines_end, atBlockEnd_end hk]
  obtain ⟨le, lines⟩ : ∃ le, many (nextLine (expression expr)) c =
      .ok ⟨[.statement t], ⟨[], eof, name⟩, le⟩ := by
    rw [many, first]
    dsimp only
    rw [many, second]
    exact ⟨_, rfl⟩
  rw [block, lines]
  refine ⟨_, rfl, ⟨name, skipNewlines_end eof name⟩, ?_⟩
  simp [MaybeParsed.skipNewlines, assemble, Tree.height, Tree.heightOf, high]

theorem parseTokens_members {first : Token} (hf : first.kind = .identifier) (h : Members n ts) :
    ∃ t, parseTokens (first :: ts ++ [eof]) = .ok t ∧ t.height = n + 2 := by
  have start : Cursor.ofTokens (first :: ts ++ [eof]) = ⟨first :: ts, eof, first⟩ := by
    rw [Cursor.ofTokens, List.getLast?_concat, List.dropLast_concat]
    simp [hk]
  have inside : expressionAt maxNesting = expression (expressionAt (maxNesting - 1)) := rfl
  obtain ⟨⟨t, _, le⟩, hblock, ⟨name, rfl⟩, high⟩ :=
    block_members hk hs (expressionAt (maxNesting - 1)) hf first h
  refine ⟨t, ?_, high⟩
  rw [parseTokens, start, inside, hblock]
  simp [bind, Except.bind, pure, Except.pure, MaybeParsed.skipNewlines, MaybeParsed.followedBy,
    MaybeParsed.map, Cursor.newlines, skipNewlines_end, Cursor.atEnd, Cursor.sees, Cursor.peek, hk]

end Members

theorem parse_memberSource (n : Nat) : ∃ t, parse (memberSource n) = .ok t ∧ t.height = n + 2 := by
  obtain ⟨first, ts, eof, found, hf, members, hk, hs⟩ := Lexer.tokenize_members n
  obtain ⟨t, ht, high⟩ := parseTokens_members hk hs hf members
  refine ⟨t, ?_, high⟩
  rw [parse, found]
  dsimp only
  rw [ht]
  rfl

end Grammar
end CallAtlas
