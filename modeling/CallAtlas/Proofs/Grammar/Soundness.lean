import CallAtlas.Proofs.Grammar.Construct

/-! # Every tree is derived from its tokens

Operators and suffixes go on behind a term that has been read, so each round of their loops keeps
the derivation of all tokens so far. One expression is derived if those inside it are, and induction
over the nesting depth closes the circle: `parseTokens` and `parseExpression` give trees that the
rules of `Derives` allow for the tokens they were read from.
-/
namespace CallAtlas.Grammar

/-- The binary operator that stands next. -/
theorem Cursor.takes_operator {c : Cursor} {p : Parsed c Operator} (h : c.operator? = some p) :
    ∃ ts, c.Takes ts p.rest ∧ Operates ts p.value := by
  unfold operator? at h
  split at h
  · rename_i op hop
    obtain ⟨token, hnext, rfl⟩ := Option.map_eq_some_iff.mp h
    rw [peek_of_next hnext] at hop
    exact ⟨[token.value], takes_next hnext, .single hop⟩
  · simp only [Option.bind_eq_bind, Option.bind_eq_some_iff] at h
    obtain ⟨first, hfirst, second, hsecond, h⟩ := h
    obtain rfl := Option.some.inj h
    obtain ⟨taken, hnot⟩ := takes_take hfirst
    obtain ⟨more, hin⟩ := takes_take hsecond
    exact ⟨[first.value] ++ [second.value], taken.trans more, .notIn hnot hin⟩

theorem reads_operatorCapture {mark op : Token} (hm : mark.isOp "&") (ho : op.kind = .operator)
    (start : Span) :
    Reads (operatorCapture start op) fun ts t => Derives (mark :: op :: ts) (.term t) := by
  intro c p h
  obtain ⟨slash, hslash, h⟩ := bind_eq_ok h
  obtain ⟨arity, harity, h⟩ := bind_eq_ok h
  obtain rfl := Except.ok.inj h
  obtain ⟨_, first, rfl, hs⟩ := reads_expect _ _ c slash hslash
  obtain ⟨_, more, rfl, ha⟩ := (reads_expect _ _).andThen harity
  exact ⟨[slash.value] ++ [arity.value], first.trans more, .operatorCapture hm ho hs ha⟩

section Parts

variable {expr : Expr} (he : ∀ level blocks, Reads (expr level blocks) (Yields .term))

include he

/-! ### Operators -/

theorem reads_rightOperand (blocks : Bool) (op : Operator) :
    Reads (rightOperand expr blocks op) (Yields .term) := by
  intro c p h
  unfold rightOperand at h
  split at h
  · exact reads_keywordList he blocks c p h
  · exact he _ blocks c p h

theorem reads_application (level : Nat) (blocks : Bool) (left : Tree) :
    OptionReads (application? expr level blocks left) (Continues left) := by
  intro c p h
  unfold application? at h
  split at h
  · cases h
  · rename_i op hop
    split at h
    · cases h
    · obtain ⟨right, hright, h⟩ := bind_eq_ok h
      obtain rfl := Option.some.inj (Except.ok.inj h)
      obtain ⟨us, first, ho⟩ := Cursor.takes_operator hop
      obtain ⟨vs, more, hr⟩ := (reads_rightOperand he blocks op.value).andThen hright
      refine ⟨us ++ vs, first.trans more, by simp [ho.noEnd, hr.noEnd], fun hl => ?_⟩
      simpa using hl.binary ho hr

theorem reads_climb (level : Nat) (blocks : Bool) {ts : List Token} {left : Tree}
    (hl : Derives ts (.term left)) :
    MaybeReads (climb expr level blocks left) fun us t => Derives (ts ++ us) (.term t) :=
  OptionReads.iterateYields (reads_application he level blocks) hl

/-! ### Suffixes -/

theorem reads_anonCall (left : Tree) {opening : Token} (ho : opening.kind = .lparen)
    (dots : List Token) (hdots : ∀ d ∈ dots, d.kind = .dot) :
    Reads (anonCall expr left) fun us => Continues left (dots ++ opening :: us) := by
  have delimits (last : Token) (hr : last.kind = .rparen) : Delimits opening last := by
    simp [Delimits, ho, hr]
  intro c p h
  obtain ⟨arguments, harguments, h⟩ := bind_eq_ok h
  obtain rfl := Except.ok.inj h
  obtain ⟨us, taken, hd⟩ := reads_items he true delimits c arguments harguments
  refine ⟨us, taken, ?_, fun hl => ?_⟩
  · exact noEnd_append.mpr ⟨noEnd_of_kind hdots (by simp), hd.noEnd⟩
  · simpa using hl.anonCall hdots ho hd

theorem reads_member (blocks : Bool) (left : Tree) {dot name : Token} (hdot : dot.kind = .dot)
    (hname : namesMember name) :
    MaybeReads (member expr blocks left name) fun us => Continues left (dot :: name :: us) := by
  have start : dot.kind ≠ .eof ∧ name.kind ≠ .eof := ⟨by simp [hdot], ne_eof_of_namesMember hname⟩
  intro c p h
  obtain ⟨arguments, harguments, h⟩ := bind_eq_ok h
  obtain ⟨us, first, hd, alone⟩ := reads_arguments he c arguments harguments
  split at h
  · rename_i hfield
    obtain rfl := Except.ok.inj h
    have hnone : arguments.value = none := by simp_all
    obtain rfl := alone hnone
    exact ⟨[], first, by simp [start], fun hl => hl.field hdot hname⟩
  · obtain ⟨ws, more, blocks, span, ht, hb⟩ := (reads_attach he blocks _).behindMaybe h
    refine ⟨us ++ ws, first.trans more, by simp [start, hd.noEnd, hb.noEnd], fun hl => ?_⟩
    rw [ht]
    exact hl.remoteCall hdot hname hd hb

theorem reads_dotted (blocks : Bool) (left : Tree) {dot : Token} (hdot : dot.kind = .dot) :
    Reads (dotted expr blocks left) fun us => Continues left (dot :: us) := by
  intro c p h
  unfold dotted at h
  split at h
  · cases h
  · rename_i token hnext
    have first := Cursor.takes_next hnext
    split at h
    · rename_i hk
      obtain rfl := Except.ok.inj h
      exact ⟨[token.value], first, by simp [hdot, hk], fun hl => hl.extend hdot hk⟩
    · rename_i hk
      obtain ⟨entries, hentries, h⟩ := bind_eq_ok h
      obtain rfl := Except.ok.inj h
      have delimits (last : Token) (hr : last.kind = .rbrace) : Delimits token.value last := by
        simp [Delimits, hk, hr]
      obtain ⟨us, more, hd⟩ := (reads_items he false delimits).andThen hentries
      refine ⟨[token.value] ++ us, first.trans more, ?_, fun hl => hl.multiAlias hdot hk hd⟩
      exact noEnd_cons.mpr ⟨by simp [hdot], hd.noEnd⟩
    · rename_i hk
      obtain ⟨us, more, continues⟩ := (reads_anonCall he left hk [dot] (by simp [hdot])).andThen h
      exact ⟨[token.value] ++ us, first.trans more, continues⟩
    · split at h
      · rename_i hname
        obtain ⟨us, more, continues⟩ := (reads_member he blocks left hdot hname).andMaybe h
        exact ⟨[token.value] ++ us, first.trans more, continues⟩
      · cases h

theorem reads_access (left : Tree) {opening : Token} (ho : opening.kind = .lbracket) :
    Reads (access expr left) fun us => Continues left (opening :: us) := by
  intro c p h
  obtain ⟨key, hkey, h⟩ := bind_eq_ok h
  obtain ⟨last, hlast, h⟩ := bind_eq_ok h
  obtain rfl := Except.ok.inj h
  obtain ⟨us, first, hd⟩ := (he 0 true).looselyYields c key hkey
  obtain ⟨_, close, breaks, _, rfl, hb, rfl, hk⟩ := (reads_expect _ _).loosely.andThen hlast
  have inside := hd.behindAll (separates_of_newline hb)
  refine ⟨us ++ (breaks ++ [last.value]), first.trans close, ?_, fun hl => ?_⟩
  · simp [ho, hk, noEnd_append.mp inside.noEnd]
  · simpa using hl.access ho hk inside

theorem reads_suffix (blocks : Bool) (left : Tree) :
    OptionReads (suffix? expr blocks left) (Continues left) := by
  intro c p h
  unfold suffix? at h
  split at h
  · cases h
  · rename_i token hnext
    have first := Cursor.takes_next hnext
    split at h
    · rename_i hk
      obtain ⟨q, hq, hp⟩ := map_eq_ok h
      obtain rfl := Option.some.inj hp
      obtain ⟨us, more, continues⟩ := (reads_dotted he blocks left hk).andThen hq
      exact ⟨[token.value] ++ us, first.trans more, continues⟩
    · rename_i hk
      split at h
      · cases h
      · obtain ⟨q, hq, hp⟩ := map_eq_ok h
        obtain rfl := Option.some.inj hp
        obtain ⟨us, more, continues⟩ := (reads_access he left hk).andThen hq
        exact ⟨[token.value] ++ us, first.trans more, continues⟩
    · rename_i hk
      split at h
      · cases h
      · obtain ⟨q, hq, hp⟩ := map_eq_ok h
        obtain rfl := Option.some.inj hp
        obtain ⟨us, more, continues⟩ := (reads_anonCall he left hk [] (by simp)).andThen hq
        exact ⟨[token.value] ++ us, first.trans more, continues⟩
    · cases h

theorem reads_suffixes {ts : List Token} {left : Tree} (hl : Derives ts (.term left))
    (blocks : Bool) :
    MaybeReads (suffixes expr blocks left) fun us t => Derives (ts ++ us) (.term t) :=
  OptionReads.iterateYields (reads_suffix he blocks) hl

/-! ### Operands -/

theorem reads_identifier (blocks : Bool) {name : Token} (hname : name.kind = .identifier) :
    MaybeReads (identifier expr blocks name) fun ts t => Derives (name :: ts) (.term t) := by
  intro c p h
  obtain ⟨arguments, harguments, h⟩ := bind_eq_ok h
  obtain ⟨ts, first, hd, alone⟩ := reads_arguments he c arguments harguments
  split at h
  · rename_i hvar
    obtain rfl := Except.ok.inj h
    have hnone : arguments.value = none := by simp_all
    obtain rfl := alone hnone
    exact ⟨[], first, .word (by simp [word?, hname])⟩
  · obtain ⟨us, more, blocks, span, ht, hb⟩ := (reads_attach he blocks _).behindMaybe h
    refine ⟨ts ++ us, first.trans more, ?_⟩
    rw [ht]
    refine .call hname ?_ hd hb
    split <;> simp

theorem reads_primary (blocks : Bool) : Reads (primary expr blocks) (Yields .term) := by
  intro c p h
  unfold primary at h
  split at h
  · cases h
  · rename_i token hnext
    have first := Cursor.takes_next hnext
    -- What follows the first token is read up to the closing delimiter of that token.
    have closed {form : Form} {closer : Kind} (hf : form ∈ [Form.list, .tuple, .bitstring])
        (delimits : ∀ last : Token, last.kind = closer → Delimits token.value last)
        (hp : token.andThen (container expr form closer token.value.span) = .ok p) :
        ∃ ts, c.Takes ts p.rest ∧ Derives ts (.term p.value) := by
      obtain ⟨ts, more, vs, span, ht, hd⟩ := (reads_container he form _ delimits).andThen hp
      refine ⟨[token.value] ++ ts, first.trans more, ?_⟩
      rw [ht]
      exact hd.container hf
    dsimp only at h
    split at h
    case h_1 hk =>
      obtain ⟨ts, more, hd⟩ := (reads_identifier he blocks hk).andMaybe h
      exact ⟨[token.value] ++ ts, first.trans more, hd⟩
    case h_14 hk =>
      obtain ⟨ts, more, hd⟩ := (reads_interpolated he hk).andThen h
      exact ⟨[token.value] ++ ts, first.trans more, hd⟩
    case h_15 hk =>
      obtain ⟨ts, more, hd⟩ := (reads_parenthesised he hk _).andThen h
      exact ⟨[token.value] ++ ts, first.trans more, hd⟩
    case h_16 hk => exact closed (by simp) (fun last hl => by simp [Delimits, hk, hl]) h
    case h_17 hk => exact closed (by simp) (fun last hl => by simp [Delimits, hk, hl]) h
    case h_18 hk => exact closed (by simp) (fun last hl => by simp [Delimits, hk, hl]) h
    case h_19 hk =>
      obtain ⟨ts, more, hd⟩ := (reads_mapOrStruct he hk _).andThen h
      exact ⟨[token.value] ++ ts, first.trans more, hd⟩
    case h_20 hk =>
      obtain ⟨ts, more, hd⟩ := (reads_fn he hk).andThen h
      exact ⟨[token.value] ++ ts, first.trans more, hd⟩
    case h_21 => exact reads_keywordList he blocks c p h
    case h_22 => cases h
    case h_23 => cases h
    -- The others are terms by themselves.
    all_goals
      rename_i hk
      obtain rfl := Except.ok.inj h
      exact ⟨[token.value], first, .word (by simp [word?, hk])⟩

theorem reads_moduleAttribute (blocks : Bool) {mark : Token} (hm : mark.kind = .at)
    (start : Span) :
    Reads (moduleAttribute expr blocks start) fun ts t => Derives (mark :: ts) (.term t) := by
  intro c p h
  obtain ⟨name, hname, h⟩ := bind_eq_ok h
  obtain ⟨_, first, rfl, hk⟩ := reads_expect _ _ c name hname
  dsimp only at h
  split at h
  · obtain ⟨value, hvalue, h⟩ := bind_eq_ok h
    obtain rfl := Except.ok.inj h
    obtain ⟨ts, more, hd⟩ := (he 0 blocks).andThen hvalue
    exact ⟨[name.value] ++ ts, first.trans more, hd.moduleAttributeValue hm hk⟩
  · obtain ⟨ts, more, hd⟩ := (reads_suffixes he (.moduleAttribute hm hk) blocks).andMaybe h
    exact ⟨[name.value] ++ ts, first.trans more, hd⟩

theorem reads_capture (blocks : Bool) {mark : Token} (hm : mark.isOp "&") (start : Span) :
    Reads (capture expr blocks start) fun ts t => Derives (mark :: ts) (.term t) := by
  have precedes : Precedes mark (text "&") := .inr ⟨hm, rfl⟩
  intro c p h
  unfold capture at h
  dsimp only at h
  split at h
  · rename_i number hnumber
    split at hnumber
    · cases hnumber
    · obtain ⟨first, hk⟩ := Cursor.takes_take hnumber
      have argument : Derives [number.value]
          (.term (leaf .integer number.value number.value.value)) := .word (by simp [word?, hk])
      obtain ⟨ts, more, hd⟩ :=
        (reads_suffixes he (argument.unary precedes) blocks).andMaybe h
      exact ⟨[number.value] ++ ts, first.trans more, hd⟩
  · split at h
    · rename_i op hop
      split at hop
      · rename_i hnames
        have first := Cursor.takes_next hop
        rw [Cursor.peek_of_next hop] at hnames
        have hk : op.value.kind = .operator := by
          simp only [namesFunction, Bool.and_eq_true, beq_iff_eq] at hnames
          exact hnames.1.1
        obtain ⟨ts, more, hd⟩ := (reads_operatorCapture hm hk start).andThen h
        exact ⟨[op.value] ++ ts, first.trans more, hd⟩
      · cases hop
    · obtain ⟨value, hvalue, rfl⟩ := map_eq_ok h
      obtain ⟨ts, taken, hd⟩ := he _ blocks c value hvalue
      exact ⟨ts, taken, hd.unary precedes⟩

theorem reads_operand (blocks : Bool) : Reads (operand expr blocks) (Yields .term) := by
  intro c p h
  unfold operand at h
  split at h
  · cases h
  · rename_i token hnext
    have first := Cursor.takes_next hnext
    dsimp only at h
    split at h
    · rename_i hk
      obtain ⟨ts, more, hd⟩ := (reads_moduleAttribute he blocks hk _).andThen h
      exact ⟨[token.value] ++ ts, first.trans more, hd⟩
    · split at h
      · rename_i hk
        obtain ⟨ts, more, hd⟩ := (reads_capture he blocks hk _).andThen h
        exact ⟨[token.value] ++ ts, first.trans more, hd⟩
      · split at h
        · rename_i hdots
          obtain rfl := Except.ok.inj h
          have hk : token.value.kind = .operator := by simp_all [Token.isOp]
          exact ⟨[token.value], first, .word (by simp [word?, hk, hdots])⟩
        · split at h
          · rename_i name hname
            obtain ⟨value, hvalue, h⟩ := bind_eq_ok h
            obtain rfl := Except.ok.inj h
            obtain ⟨ts, more, hd⟩ := (he _ blocks).andThen hvalue
            exact ⟨[token.value] ++ ts, first.trans more, hd.unary (.inl hname)⟩
          · obtain ⟨left, hleft, h⟩ := bind_eq_ok h
            obtain ⟨ts, taken, hl⟩ := reads_primary he blocks c left hleft
            obtain ⟨us, more, hd⟩ := (reads_suffixes he hl blocks).andMaybe h
            exact ⟨ts ++ us, taken.trans more, hd⟩

/-! ### Expressions -/

theorem reads_expression (level : Nat) (blocks : Bool) :
    Reads (expression expr level blocks) (Yields .term) := by
  intro c p h
  obtain ⟨left, hleft, h⟩ := bind_eq_ok h
  obtain ⟨ts, first, hl⟩ := reads_operand he blocks c left hleft
  obtain ⟨us, more, hd⟩ := (reads_climb he level blocks hl).andMaybe h
  exact ⟨ts ++ us, first.trans more, hd⟩

end Parts

theorem reads_expressionAt (depth level : Nat) (blocks : Bool) :
    Reads (expressionAt depth level blocks) (Yields .term) := by
  induction depth generalizing level blocks with
  | zero =>
    intro c p h
    cases h
  | succ depth ih => exact reads_expression ih level blocks

/-! ### Token lists -/

/-- What is taken from the start of a token list is the front of it. Where nothing more can be read
the list ends, or an end-of-file token stands next. -/
theorem Cursor.takes_ofTokens {tokens ts : List Token} {c : Cursor}
    (h : (ofTokens tokens).Takes ts c) :
    ∃ us, tokens = ts ++ us ∧ (c.atEnd → ∀ u ∈ us.head?, u.kind = .eof) := by
  obtain ⟨hrest, hlast⟩ := h
  have atEnd_iff (hc : c.atEnd) : (c.rest.headD c.last).kind = .eof := beq_iff_eq.mp hc
  unfold ofTokens at hrest hlast
  split at hrest
  · rename_i last hl
    obtain ⟨init, rfl⟩ := List.getLast?_eq_some_iff.mp hl
    split at hrest
    · rename_i hk
      simp only [List.dropLast_concat] at hrest
      refine ⟨c.rest ++ [last], by rw [hrest, List.append_assoc], ?_⟩
      intro hc u hu
      have hend := atEnd_iff hc
      cases hr : c.rest with
      | nil => simp_all
      | cons first rest => simp_all
    · refine ⟨c.rest, hrest, ?_⟩
      intro hc u hu
      have hend := atEnd_iff hc
      cases hr : c.rest with
      | nil => simp_all
      | cons first rest => simp_all
  · rename_i hnone
    obtain rfl := List.getLast?_eq_none_iff.mp hnone
    refine ⟨[], ?_, by simp⟩
    simp_all

/-- A token list, with or without end-of-file tokens behind it, is read from its start. -/
theorem Cursor.ofTokens_of_noEnd {ts tail : List Token} (real : NoEnd ts)
    (ended : ∀ t ∈ tail, t.kind = .eof) :
    ∃ more last previous, (∀ t ∈ more, t.kind = .eof) ∧ last.kind = .eof ∧
      (∀ first ∈ ts.head?, previous = first) ∧
      ofTokens (ts ++ tail) = ⟨ts ++ more, last, previous⟩ := by
  rcases List.eq_nil_or_concat tail with rfl | ⟨more, last, rfl⟩
  · cases ts with
    | nil => exact ⟨[], {}, {}, by simp, rfl, by simp, rfl⟩
    | cons first ts =>
      refine ⟨[], {}, first, by simp, rfl, by simp, ?_⟩
      have nonempty := List.getLast?_eq_some_getLast (List.cons_ne_nil first ts)
      have last := real _ (List.getLast_mem (List.cons_ne_nil first ts))
      rw [List.append_nil, ofTokens, nonempty]
      dsimp only
      rw [if_neg last]
      rfl
  · rw [List.concat_eq_append] at ended ⊢
    obtain ⟨before, eof⟩ := List.forall_mem_append.mp ended
    have eof : last.kind = .eof := eof last (List.mem_singleton.mpr rfl)
    refine ⟨more, last, (ts ++ (more ++ [last])).headD last, before, eof, ?_, ?_⟩
    · cases ts <;> simp
    · rw [← List.append_assoc, ofTokens, List.getLast?_concat, List.dropLast_concat]
      simp [eof]

/-- The front of a token list makes up the expression that is read from the list. -/
theorem derives_parseExpression {tokens : List Token} {t : Tree}
    (h : parseExpression tokens = .ok t) :
    ∃ ts us, tokens = ts ++ us ∧ Derives ts (.term t) := by
  obtain ⟨p, hp, h⟩ := bind_eq_ok h
  obtain rfl := Except.ok.inj h
  obtain ⟨ts, taken, hd⟩ := (reads_expressionAt _ _ _).looselyYields _ p hp
  obtain ⟨us, hus, -⟩ := Cursor.takes_ofTokens taken
  exact ⟨ts, us, hus, hd⟩

/-- A token list up to its end-of-file token makes up the lines of the tree that is read from it. -/
theorem derives_parseTokens {tokens : List Token} {t : Tree} (h : parseTokens tokens = .ok t) :
    ∃ ts us, tokens = ts ++ us ∧ (∀ u ∈ us.head?, u.kind = .eof) ∧
      ∃ ls span, t = blockOf span ls ∧ Derives ts (.lines ls) := by
  obtain ⟨file, hfile, h⟩ := bind_eq_ok h
  dsimp only at h
  split at h
  · rename_i hend
    obtain rfl := Except.ok.inj h
    obtain ⟨ts, taken, ls, span, ht, hd⟩ := reads_block (reads_expressionAt _) _ file hfile
    obtain ⟨breaks, skipped, hb⟩ := takes_breaksBehind file
    obtain ⟨us, hus, heof⟩ := Cursor.takes_ofTokens (taken.trans skipped)
    exact ⟨ts ++ breaks, us, hus, heof hend, ls, span, ht, hd.behindAll hb⟩
  · cases h

/-- The tree of a source text is read from its tokens, none of which is malformed. -/
theorem parseTokens_of_parse {s : Source} {t : Tree} (h : parse s = .ok t) :
    tokenize s = ((tokenize s).1, []) ∧ parseTokens (tokenize s).1 = .ok t := by
  unfold parse at h
  split at h
  · rename_i tokens htokens
    rw [htokens]
    cases ht : parseTokens tokens with
    | error e =>
      rw [ht] at h
      cases h
    | ok u =>
      rw [ht] at h
      exact ⟨rfl, congrArg _ (Except.ok.inj h)⟩
  · cases h

end CallAtlas.Grammar
