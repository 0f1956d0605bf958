import CallAtlas.Proofs.Grammar.Seam.Call

/-! # A block attaches to the outermost call

A file is a call without a block, and `do`, a block and `end` are put behind it. The call takes the
block, as its last child. Where it does not, because it is in parentheses or a line break follows
it, no line goes on with `do`, and the file is not accepted.
-/
namespace CallAtlas.Grammar

open Seam

variable {s : Seam} {c : Cursor} {expr : Expr}

/-! ### Lines -/

/-- A loop stops at once, or it has a first round and goes on behind it. -/
theorem many_cases {α : Type} {read : OptionReader α} {p : MaybeParsed c (List α)}
    (h : many read c = .ok p) :
    read c = .ok none ∧ p = c.stay [] ∨
      ∃ q r, read c = .ok (some q) ∧ many read q.rest = .ok r ∧ p.value = q.value :: r.value ∧
        p.rest = r.rest := by
  rw [many] at h
  split at h
  · cases h
  · rename_i stop
    exact .inl ⟨stop, (Except.ok.inj h).symm⟩
  · rename_i q hq
    split at h
    · cases h
    · rename_i r hr
      obtain rfl := Except.ok.inj h
      exact .inr ⟨q, r, hq, hr, rfl, rfl⟩

theorem moreArguments_nil {blocks : Bool} {p : MaybeParsed c (List Tree)}
    (h : moreArguments expr blocks c = .ok p) (none : p.value = []) : p.rest = c := by
  obtain ⟨plain, hplain, h⟩ := bind_eq_ok h
  split at h
  · obtain rfl := Except.ok.inj h
    rcases many_cases hplain with ⟨-, rfl⟩ | ⟨q, r, -, -, value, -⟩
    · rfl
    · cases value.symm.trans none
  · obtain ⟨pairs, -, h⟩ := bind_eq_ok h
    obtain rfl := Except.ok.inj h
    exact absurd none (List.append_ne_nil_of_right_ne_nil _ (List.cons_ne_nil _ _))

/-- A statement is an expression up to a line break or the end of a block. -/
theorem of_line_statement {p : Parsed c Line} {t : Tree} (h : line expr c = .ok p)
    (ht : p.value = .statement t) :
    c.take? .arrow = none ∧
      ∃ first, expr 0 true c = .ok first ∧ first.value = t ∧ first.rest = p.rest := by
  unfold line at h
  dsimp only at h
  split at h
  · obtain rfl := Except.ok.inj h
    cases ht
  · rename_i noArrow
    obtain ⟨first, hfirst, h⟩ := bind_eq_ok h
    obtain ⟨more, hmore, h⟩ := bind_eq_ok h
    split at h
    · obtain rfl := Except.ok.inj h
      cases ht
    · split at h
      · cases h
      · rename_i single
        split at h
        · obtain rfl := Except.ok.inj h
          obtain ⟨others, hothers, rfl⟩ := map_eq_ok hmore
          have none : others.value = [] := by simpa using single
          exact ⟨noArrow, first, hfirst, Line.statement.inj ht,
            (moreArguments_nil hothers none).symm⟩
        · cases h

theorem line_of_stops (noArrow : c.take? .arrow = none) {first : Parsed c Tree}
    (hfirst : expr 0 true c = .ok first) (stops : stopsAt false first.rest.peek.kind)
    (other : first.rest.peek.kind ≠ .arrow) :
    line expr c = if first.rest.sees .newline || first.rest.atBlockEnd then
      .ok (first.map .statement) else first.rest.fail .endOfExpression := by
  have more : first.andMaybe (moreArguments expr true) = .ok (first.map fun _ => []) :=
    map_of_ok (moreArguments_of_stops stops expr true)
  have noArrow' : (first.map fun _ => ([] : List Tree)).rest.take? .arrow = none := by
    change first.rest.take? .arrow = none
    rw [Cursor.take?, Cursor.takeIf?, if_neg (by simpa using other)]
  unfold line
  dsimp only
  rw [noArrow]
  dsimp only
  rw [hfirst]
  dsimp only [bind, Except.bind]
  rw [more]
  dsimp only
  rw [noArrow']
  rfl

section Lines

variable {body : Tree} {behind : Cursor} (he : s.ExprMoves expr expr)
  (ho : s.Opens expr body behind)

include he ho

/-- A line that ends at the seam with a call ends behind the block in the new list, which the call
has taken. One that ends before the seam, with line breaks behind it, is the same line. -/
theorem meets_line {p : Parsed c Line} {call : Tree} (h : line (expression expr) c = .ok p)
    (hcall : p.value = .statement call) (awaits : call.AwaitsBlock) (hs : s.size ≤ p.rest.size)
    {p' : Parsed (s.move c) Line} (h' : line (expression expr) (s.move c) = .ok p') :
    p'.value = .statement (call.append body) ∧ p'.rest = behind ∨
      s.size < p.rest.size ∧ p'.rest = s.move p.rest := by
  rcases Nat.eq_or_lt_of_le hs with last | before
  · left
    obtain ⟨noArrow, first, hfirst, rfl, rest⟩ := of_line_statement h hcall
    have hp : first.rest.size = s.size := by rw [rest, last]
    have inside : s.size < c.size := Nat.lt_of_le_of_lt hs p.size_lt
    have noArrow' : (s.move c).take? .arrow = none := s.takeIf_move_none noArrow inside
    obtain ⟨first', hfirst'⟩ : ∃ first', expression expr 0 true (s.move c) = .ok first' := by
      unfold line at h'
      dsimp only at h'
      rw [noArrow'] at h'
      obtain ⟨first', hfirst', -⟩ := bind_eq_ok h'
      exact ⟨first', hfirst'⟩
    have meets := meets_expression he ho 0 hfirst hp awaits
    rw [hfirst'] at meets
    rcases meets with attached | alone
    · obtain ⟨value, rest'⟩ := Prod.mk.inj (attached _ rfl)
      have kind : first'.rest.peek.kind = .eof := rest' ▸ ho.ends
      have stops : stopsAt false first'.rest.peek.kind := by
        rw [kind]
        rfl
      have ended : first'.rest.atBlockEnd := Cursor.atBlockEnd_of_kind kind
      rw [line_of_stops noArrow' hfirst' stops (by rw [kind]; decide), ended, Bool.or_true,
        if_pos rfl] at h'
      obtain rfl := Except.ok.inj h'
      exact ⟨congrArg Line.statement value, rest'⟩
    · obtain ⟨-, rest'⟩ := Prod.mk.inj (Except.ok.inj alone)
      have kind : first'.rest.peek.kind = .kwDo := by
        rw [rest']
        exact ho.starts _ hp
      have stops : stopsAt false first'.rest.peek.kind := by
        rw [kind]
        rfl
      have goesOn : (first'.rest.sees .newline || first'.rest.atBlockEnd) = false := by
        rw [Cursor.atBlockEnd_of_kind kind, Cursor.sees, kind]
        rfl
      rw [line_of_stops noArrow' hfirst' stops (by rw [kind]; decide), goesOn] at h'
      cases h'
  · right
    have carried := moves_line (moves_expression he) c p hs h before
    obtain rfl := Except.ok.inj (carried.symm.trans h')
    exact ⟨before, rfl⟩

end Lines

/-! ### Files of one line -/

theorem assemble_statement (t : Tree) (ls : List Line) :
    assemble (.statement t :: ls) = t :: assemble ls := by
  rw [assemble_eq, assemble_eq]
  rfl

theorem assemble_clause (head : Tree) (span arrow : Span) (ls : List Line) :
    ∃ clause rest, assemble (.clause head span arrow :: ls) = clause :: rest ∧
      clause.form = .clause := by
  rw [assemble_eq]
  exact ⟨_, _, rfl, rfl⟩

/-- A block of one child that is no clause has one line. -/
theorem eq_single_of_assemble {ls : List Line} {t : Tree} (h : assemble ls = [t])
    (ht : t.form ≠ .clause) : ls = [.statement t] := by
  match ls with
  | [] => cases h
  | .clause head span arrow :: ls =>
    obtain ⟨clause, rest, same, form⟩ := assemble_clause head span arrow ls
    rw [h] at same
    exact absurd ((List.cons.inj same).1 ▸ form) ht
  | [.statement u] =>
    rw [assemble_statement] at h
    rw [(List.cons.inj h).1]
  | .statement u :: .statement v :: ls =>
    rw [assemble_statement, assemble_statement] at h
    cases (List.cons.inj h).2
  | .statement u :: .clause head span arrow :: ls =>
    obtain ⟨clause, rest, same, -⟩ := assemble_clause head span arrow ls
    rw [assemble_statement, same] at h
    cases (List.cons.inj h).2

theorem of_many_single {α : Type} {read : OptionReader α} {p : MaybeParsed c (List α)} {v : α}
    (h : many read c = .ok p) (single : p.value = [v]) :
    ∃ q, read c = .ok (some q) ∧ q.value = v ∧ p.rest = q.rest ∧ read q.rest = .ok none := by
  rcases many_cases h with ⟨-, rfl⟩ | ⟨q, r, hq, hr, value, rest⟩
  · cases single
  · obtain ⟨same, none⟩ := List.cons.inj (value.symm.trans single)
    rcases many_cases hr with ⟨stop, rfl⟩ | ⟨u, w, -, -, value, -⟩
    · exact ⟨q, hq, same, rest, stop⟩
    · cases value.symm.trans none

theorem of_nextLine {p : Parsed c Line} (h : nextLine expr c = .ok (some p)) :
    c.skipNewlines.atBlockEnd = false ∧
      ∃ l, line expr c.skipNewlines = .ok l ∧ l.value = p.value ∧ l.rest = p.rest := by
  unfold nextLine at h
  split at h
  · cases h
  · rename_i more
    obtain ⟨l, hl, rfl⟩ := map_eq_ok (eq_ok_of_map_some h)
    exact ⟨Bool.eq_false_iff.mpr more, l, hl, rfl, rfl⟩

/-- A block of one child that is no clause is one line, with line breaks around it. -/
theorem of_block_single {p : MaybeParsed c Tree} {t : Tree} (h : block expr c = .ok p)
    (children : p.value.children = [t]) (ht : t.form ≠ .clause) :
    ∃ q, nextLine expr c = .ok (some q) ∧ q.value = .statement t ∧
      p.rest = q.rest.skipNewlines ∧ p.rest.atBlockEnd ∧
        p.value.span = c.peek.span.to p.rest.previous.span := by
  obtain ⟨lines, hlines, h⟩ := bind_eq_ok h
  obtain rfl := Except.ok.inj h
  have single := eq_single_of_assemble children ht
  obtain ⟨q, hq, value, rest, stop⟩ := of_many_single hlines single
  have rest : lines.rest.skipNewlines = q.rest.skipNewlines := congrArg Cursor.skipNewlines rest
  refine ⟨q, hq, value, rest, ?_, ?_⟩
  · change lines.rest.skipNewlines.atBlockEnd
    unfold nextLine at stop
    split at stop
    · rename_i ends
      rwa [rest]
    · obtain ⟨_, _, stop⟩ := map_eq_ok stop
      cases stop
  change (if (assemble lines.value).isEmpty then c.peek.span
    else c.peek.span.to lines.rest.skipNewlines.previous.span) = _
  rw [show assemble lines.value = [t] from children]
  rfl

theorem of_block {p : MaybeParsed c Tree} (h : block expr c = .ok p)
    (more : c.skipNewlines.atBlockEnd = false) :
    ∃ q next, nextLine expr c = .ok (some q) ∧ nextLine expr q.rest = .ok next := by
  obtain ⟨lines, hlines, -⟩ := bind_eq_ok h
  rcases many_cases hlines with ⟨stop, -⟩ | ⟨q, others, hq, hothers, -⟩
  · unfold nextLine at stop
    rw [if_neg (Bool.eq_false_iff.mp more)] at stop
    obtain ⟨_, _, stop⟩ := map_eq_ok stop
    cases stop
  · rcases many_cases hothers with ⟨stop, -⟩ | ⟨r, _, hr, -⟩
    · exact ⟨q, none, hq, stop⟩
    · exact ⟨q, some r, hq, hr⟩

theorem block_of_single {q : Parsed c Line} (h : nextLine expr c = .ok (some q))
    (stop : q.rest.skipNewlines.atBlockEnd) {t : Tree} (hq : q.value = .statement t) :
    ∃ p, block expr c = .ok p ∧ p.rest = q.rest.skipNewlines ∧
      p.value = { form := .block
                  span := c.peek.span.to q.rest.skipNewlines.previous.span
                  children := [t] } := by
  have none : nextLine expr q.rest = .ok none := if_pos stop
  have lines : many (nextLine expr) c = .ok (q.maybe.map ([·])) := by
    rw [many, h]
    dsimp only
    rw [many, none]
    rfl
  refine ⟨_, bind_of_ok lines rfl, rfl, ?_⟩
  have single : assemble [q.value] = [t] := by rw [hq]; rfl
  change Tree.mk .block (if (assemble [q.value]).isEmpty then _ else _) _ (assemble [q.value])
    _ _ = _
  rw [single]
  rfl

theorem line_ne_ok (h : c.peek.kind = .kwDo) (p : Parsed c Line) :
    line (expression expr) c ≠ .ok p := by
  intro hp
  have noArrow : c.take? .arrow = none := by
    rw [Cursor.take?, Cursor.takeIf?, h]
    rfl
  unfold line at hp
  dsimp only at hp
  rw [noArrow] at hp
  obtain ⟨first, hfirst, -⟩ := bind_eq_ok hp
  obtain ⟨left, hleft, -⟩ := bind_eq_ok hfirst
  have starts := stops_of_operand hleft
  rw [h] at starts
  cases starts

theorem nextLine_ne_ok (h : c.skipNewlines.peek.kind = .kwDo) (next : Option (Parsed c Line)) :
    nextLine (expression expr) c ≠ .ok next := by
  intro hnext
  have goesOn : c.skipNewlines.atBlockEnd = false := Cursor.atBlockEnd_of_kind h
  unfold nextLine at hnext
  rw [if_neg (Bool.eq_false_iff.mp goesOn)] at hnext
  obtain ⟨u, hu, -⟩ := map_eq_ok hnext
  obtain ⟨v, hv, -⟩ := map_eq_ok hu
  exact line_ne_ok h v hv

section Blocks

variable {body : Tree} {behind : Cursor} (he : s.ExprMoves expr expr)
  (ho : s.Opens expr body behind)

include he ho

theorem meets_block {p : MaybeParsed c Tree} {call : Tree}
    (h : block (expression expr) c = .ok p) (children : p.value.children = [call])
    (awaits : call.AwaitsBlock) (hp : p.rest.size = s.size) {p' : MaybeParsed (s.move c) Tree}
    (h' : block (expression expr) (s.move c) = .ok p') :
    p'.rest = behind ∧
      p'.value = { form := .block
                   span := p.value.span.to behind.previous.span
                   children := [call.append body] } := by
  obtain ⟨q, hq, value, rest, -, span⟩ := of_block_single h children awaits.ne_clause
  obtain ⟨more, l, hl, lvalue, lrest⟩ := of_nextLine hq
  have hs : s.size ≤ l.rest.size := by
    rw [lrest, ← hp, rest]
    exact q.rest.size_skipNewlines_le
  have start : s.LineEnd c := Nat.lt_of_le_of_lt hs l.size_lt
  have more' : (s.move c).skipNewlines.atBlockEnd = false := by
    rw [start.skipNewlines, s.atBlockEnd_move start]
    exact more
  obtain ⟨q', next, hq', hnext⟩ := of_block h' more'
  obtain ⟨-, line'⟩ := of_nextLine hq'
  rw [start.skipNewlines] at line'
  obtain ⟨l', hl', lvalue', lrest'⟩ := line'
  rcases meets_line he ho hl (lvalue.trans value) awaits hs hl' with
    ⟨attached, ended⟩ | ⟨before, same⟩
  · have rest' : q'.rest = behind := lrest'.symm.trans ended
    have skipped : q'.rest.skipNewlines = behind := by
      rw [rest', Cursor.skipNewlines_eq_self (by rw [ho.ends]; decide)]
    have stop : q'.rest.skipNewlines.atBlockEnd :=
      Cursor.atBlockEnd_of_kind (skipped ▸ ho.ends)
    obtain ⟨found, hfound, frest, fvalue⟩ := block_of_single hq' stop (lvalue'.symm.trans attached)
    obtain rfl := Except.ok.inj (hfound.symm.trans h')
    refine ⟨frest.trans skipped, ?_⟩
    rw [fvalue, skipped, s.peek_move start.inside, span]
    rfl
  · have rest' : q'.rest = s.move q.rest := by rw [← lrest', same, lrest]
    have seen : (s.move q.rest.skipNewlines).peek.kind = .kwDo := ho.starts _ (rest ▸ hp)
    have skipped : (s.move q.rest).skipNewlines = s.move q.rest.skipNewlines := by
      refine s.skipNewlines_move ?_ (.inr ?_)
      · rw [← rest, hp]
      · rw [seen]
        decide
    exact absurd hnext (nextLine_ne_ok (by rw [rest', skipped, seen]) next)

end Blocks

/-! ### Token lists -/

/-- Tokens that are taken up to the end of the file are those before the end-of-file tokens. -/
theorem eq_of_ends {ts us more rest : List Token} {last : Token} (real : NoEnd ts)
    (taken : NoEnd us) (ended : ∀ t ∈ more, t.kind = .eof) (h : ts ++ more = us ++ rest)
    (ends : (rest.headD last).kind = .eof) : rest = more := by
  rcases List.append_eq_append_iff.mp h with ⟨vs, rfl, same⟩ | ⟨vs, rfl, rfl⟩
  · cases vs with
    | nil => exact same.symm
    | cons v vs =>
      rw [same] at ended
      exact absurd (ended v (by simp)) (taken v (by simp))
  · cases vs with
    | nil => rfl
    | cons v vs => exact absurd ends (real v (by simp))

theorem of_parseTokens {tokens : List Token} {t : Tree} (h : parseTokens tokens = .ok t) :
    ∃ p, block (expressionAt maxNesting) (.ofTokens tokens) = .ok p ∧ p.value = t ∧
      p.rest.skipNewlines.atEnd := by
  obtain ⟨p, hp, h⟩ := bind_eq_ok h
  dsimp only at h
  split at h
  · rename_i ends
    exact ⟨p, hp, Except.ok.inj h, ends⟩
  · cases h

/-- A file of one child that is no clause is read to the end-of-file tokens. -/
theorem rest_of_block_single {depth : Nat} {ts more : List Token} {last previous : Token}
    (real : NoEnd ts) (ended : ∀ t ∈ more, t.kind = .eof)
    {p : MaybeParsed ⟨ts ++ more, last, previous⟩ Tree} {t : Tree}
    (h : block (expressionAt depth) ⟨ts ++ more, last, previous⟩ = .ok p)
    (children : p.value.children = [t]) (ht : t.form ≠ .clause)
    (ends : p.rest.skipNewlines.atEnd) : p.rest.rest = more ∧ ts ≠ [] := by
  obtain ⟨q, -, -, rest, stop, -⟩ := of_block_single h children ht
  have solid : p.rest.skipNewlines = p.rest := by
    refine Cursor.skipNewlines_eq_self fun newline => ?_
    rw [Cursor.atBlockEnd_of_kind newline] at stop
    cases stop
  rw [solid] at ends
  obtain ⟨us, taken, ls, span, -, hd⟩ := reads_block (reads_expressionAt depth) _ p h
  have all : p.rest.rest = more :=
    eq_of_ends real hd.noEnd ended taken.1 (beq_iff_eq.mp ends)
  refine ⟨all, ?_⟩
  rintro rfl
  have shorter : p.rest.size < more.length := by
    rw [rest]
    exact Nat.lt_of_le_of_lt q.rest.size_skipNewlines_le q.size_lt
  rw [Cursor.size, all] at shorter
  exact absurd shorter (Nat.lt_irrefl _)

/-! ### The block -/

/-- A block is read the same with a larger nesting limit, and whatever stands behind it. -/
theorem doBlock_of_end {limit limit' : Nat} (le : limit ≤ limit') {opening last : Token}
    {inside : List Token} {p : Parsed ⟨inside, last, opening⟩ Tree}
    (h : doBlock (expressionAt limit) opening ⟨inside, last, opening⟩ = .ok p) (more : List Token)
    (last' : Token) :
    ∃ q, doBlock (expressionAt limit') opening ⟨inside ++ more, last', opening⟩ = .ok q ∧
      q.value = p.value ∧ q.rest = ⟨p.rest.rest ++ more, last', p.rest.previous⟩ := by
  let s : Seam := ⟨0, more, last'⟩
  have move (d : Cursor) : s.move d = ⟨d.rest ++ more, last', d.previous⟩ := by
    simp [s, Seam.move, Cursor.size]
  have carried := moves_doBlock (s := s) (moves_expressionAt le) opening _ p (Nat.zero_le _) h
    trivial
  have found : ∃ q, doBlock (expressionAt limit') opening (s.move ⟨inside, last, opening⟩) = .ok q ∧
      q.value = p.value ∧ q.rest = s.move p.rest := ⟨_, carried, rfl, rfl⟩
  rwa [move, move] at found

theorem stop_of_doBlock {opening : Token} {p : Parsed c Tree}
    (h : doBlock expr opening c = .ok p) : p.value.span.stop = p.rest.previous.span.stop := by
  obtain ⟨first, -, h⟩ := bind_eq_ok h
  obtain ⟨more, -, h⟩ := bind_eq_ok h
  obtain ⟨last, hlast, h⟩ := bind_eq_ok h
  obtain ⟨word, hword, rfl⟩ := map_eq_ok hlast
  obtain rfl := Except.ok.inj h
  have found := (Cursor.next_of_takeIf (take_of_expect hword)).1
  change word.value.span.stop = word.rest.previous.span.stop
  rw [(Cursor.of_next found).2.2.1]

theorem of_attach {call : Tree} {start : Parsed c Token} (hstart : c.take? .kwDo = some start)
    {p : MaybeParsed c Tree} (h : attach expr true call c = .ok p) :
    ∃ body, doBlock expr start.value start.rest = .ok body ∧ p.value = call.append body.value ∧
      p.rest = body.rest := by
  unfold attach at h
  rw [if_pos rfl, hstart] at h
  obtain ⟨taken, htaken, h⟩ := bind_eq_ok h
  obtain ⟨body, hbody, rfl⟩ := map_eq_ok htaken
  obtain rfl := Except.ok.inj h
  exact ⟨body, hbody, rfl, rfl⟩

/-- A block, read to its end alone, is what a call takes at a seam behind which it stands. -/
theorem opens_of_doBlock {limit limit' : Nat} {opening last : Token} {inside more : List Token}
    (ho : opening.kind = .kwDo) {p : Parsed ⟨inside, last, opening⟩ Tree}
    (h : doBlock (expressionAt limit) opening ⟨inside, last, opening⟩ = .ok p)
    (whole : p.rest.rest = []) (ended : ∀ t ∈ more, t.kind = .eof)
    (hs : s.tail = opening :: (inside ++ more)) (eof : s.last.kind = .eof) :
    s.Opens (expressionAt limit') p.value ⟨more, s.last, p.rest.previous⟩ := by
  have atSeam (c : Cursor) (hc : c.size = s.size) :
      s.move c = ⟨opening :: (inside ++ more), s.last, c.previous⟩ := by
    rw [move, hc, Nat.sub_self, List.take_zero, List.nil_append, hs]
  refine ⟨?_, ?_, ?_⟩
  · intro c hc
    rw [atSeam c hc]
    exact ho
  · cases more with
    | nil => exact eof
    | cons t ts => exact ended t List.mem_cons_self
  · intro call c q hc hq
    have start : ∃ found, (s.move c).take? .kwDo = some found ∧ found.value = opening ∧
        found.rest = ⟨inside ++ more, s.last, opening⟩ := by
      rw [atSeam c hc]
      exact ⟨_, (if_pos (by simp [Cursor.peek, ho])).trans (Cursor.next_cons (by simp [ho]) _ _ _),
        rfl, rfl⟩
    obtain ⟨found, hfound, token, place⟩ := start
    have taken := of_attach hfound hq
    rw [token, place] at taken
    obtain ⟨body, hbody, value, rest⟩ := taken
    have here := doBlock_of_end (Nat.le_max_right limit limit') hbody [] s.last
    have alone := doBlock_of_end (Nat.le_max_left limit limit') h more s.last
    rw [List.append_nil, List.append_nil] at here
    obtain ⟨r, hr, rvalue, rrest⟩ := here
    obtain ⟨r', hr', rvalue', rrest'⟩ := alone
    obtain rfl := Except.ok.inj (hr.symm.trans hr')
    obtain ⟨tokens, -, previous⟩ := Cursor.mk.inj (rrest.symm.trans rrest')
    obtain ⟨-, ⟨-, eof⟩, -⟩ := reads_doBlock (reads_expressionAt limit') ho _ body hbody
    rw [whole, List.nil_append] at tokens
    refine ⟨by rw [value, ← rvalue, ← rvalue'], rest.trans ?_⟩
    change Cursor.mk body.rest.rest body.rest.last body.rest.previous = _
    rw [tokens, eof, previous]

/-- A file of one call without a block, behind which a block is put, is a file of the same call with
the block as its last child, if it is accepted: neither the call's arguments nor any call in them
take the block. -/
theorem block_attached_to_call {E B tail tail' : List Token} (real : NoEnd E)
    (ended : ∀ t ∈ tail, t.kind = .eof) (ended' : ∀ t ∈ tail', t.kind = .eof) {t t' call : Tree}
    (parsed : parseTokens (E ++ tail) = .ok t) (single : t.children = [call])
    (awaits : call.AwaitsBlock) {opening closing last : Token} (ho : opening.kind = .kwDo)
    {limit : Nat} {body : Parsed ⟨B ++ [closing], last, opening⟩ Tree}
    (read : doBlock (expressionAt limit) opening ⟨B ++ [closing], last, opening⟩ = .ok body)
    (whole : body.rest.rest = [])
    (accepted : parseTokens (E ++ opening :: (B ++ closing :: tail')) = .ok t') :
    t' = { form := .block
           span := t.span.to body.value.span
           children := [call.append body.value] } := by
  have realBlock : NoEnd (B ++ [closing]) := by
    obtain ⟨ts, taken, hd⟩ := reads_doBlock (reads_expressionAt limit) ho _ body read
    have all : B ++ [closing] = ts := by simpa [whole] using taken.1
    exact all ▸ (noEnd_cons.mp hd.noEnd).2
  have real' : NoEnd (E ++ opening :: (B ++ [closing])) := by
    simp [real, ho, noEnd_append.mp realBlock]
  obtain ⟨more, eof, first, hmore, heof, hfirst, start⟩ := Cursor.ofTokens_of_noEnd real ended
  obtain ⟨more', eof', first', hmore', heof', hfirst', start'⟩ :=
    Cursor.ofTokens_of_noEnd real' ended'
  have old := of_parseTokens parsed
  rw [start] at old
  obtain ⟨p, hp, rfl, ends⟩ := old
  obtain ⟨all, nonempty⟩ := rest_of_block_single real hmore hp single awaits.ne_clause ends
  have same : first = first' := by
    obtain ⟨x, xs, rfl⟩ := List.exists_cons_of_ne_nil nonempty
    rw [hfirst x rfl, hfirst' x rfl]
  let s : Seam := ⟨more.length, opening :: (B ++ [closing] ++ more'), eof'⟩
  have move : s.move ⟨E ++ more, eof, first⟩ =
      ⟨E ++ opening :: (B ++ [closing]) ++ more', eof', first'⟩ := by
    simp [s, Seam.move, Cursor.size, same]
  have new := of_parseTokens accepted
  have joined :
      E ++ opening :: (B ++ closing :: tail') = E ++ opening :: (B ++ [closing]) ++ tail' := by
    simp
  rw [joined, start', ← move] at new
  obtain ⟨p', hp', rfl, -⟩ := new
  have opens : s.Opens (expressionAt 511) body.value ⟨more', eof', body.rest.previous⟩ :=
    opens_of_doBlock ho read whole hmore' rfl heof'
  have atSeam : p.rest.size = s.size := congrArg List.length all
  obtain ⟨-, value⟩ := meets_block (moves_expressionAt (Nat.le_refl 511)) opens hp single awaits
    atSeam hp'
  rw [value]
  simp only [Span.to, stop_of_doBlock read]

/-- In `f g x do z end` the block is the last child of the call of `f`. -/
theorem sampleCall_takes_block :
    let word (name : String) : Token :=
      { kind := .identifier, value := text name, spaceBefore := true }
    let E := [word "f", word "g", word "x"]
    let opening : Token := { kind := .kwDo }
    let closing : Token := { kind := .kwEnd }
    ∃ t t' call body, parseTokens (E ++ [({} : Token)]) = .ok t ∧ t.children = [call] ∧
      call.dump = text "(call f (call g (var x)))" ∧
      parseTokens (E ++ opening :: ([word "z"] ++ closing :: [{}])) = .ok t' ∧
      body.dump = text "(do-block (pair (atom do) (block (var z))))" ∧
      t'.children = [call.append body] := by
  intro word E opening closing
  have first : (parseTokens (E ++ [({} : Token)])).toOption.any fun t =>
      t.children.map Tree.dump = [text "(call f (call g (var x)))"] ∧
        ∀ call ∈ t.children,
          call.form.takesBlock ∧ ∀ child ∈ call.children, child.form ≠ .doBlock := by
    decide +kernel
  have second :
      (parseTokens (E ++ opening :: ([word "z"] ++ closing :: [{}]))).toOption.isSome := by
    decide +kernel
  let start : Cursor := ⟨[word "z"] ++ [closing], {}, opening⟩
  have alone : (doBlock (expressionAt 1) opening start).toOption.any fun body =>
      body.rest.rest = [] ∧
        body.value.dump = text "(do-block (pair (atom do) (block (var z))))" := by
    decide +kernel
  obtain ⟨t, parsed, found⟩ := exists_ok_of_any first
  obtain ⟨dumps, awaits⟩ := of_decide_eq_true found
  obtain ⟨call, single, dumped⟩ := List.map_eq_singleton_iff.mp dumps
  obtain ⟨takes, none⟩ := awaits call (by simp [single])
  obtain ⟨t', accepted⟩ := exists_ok_of_isSome second
  obtain ⟨body, read, found⟩ := exists_ok_of_any alone
  obtain ⟨whole, bodyDump⟩ := of_decide_eq_true found
  have real : NoEnd E := by simp [E, word]
  have ended : ∀ t ∈ [({} : Token)], t.kind = .eof := by simp
  have attached := block_attached_to_call real ended ended parsed single ⟨takes, none⟩ rfl read
    whole accepted
  exact ⟨t, t', call, body.value, parsed, single, dumped, accepted, bodyDump, by rw [attached]⟩

end CallAtlas.Grammar
