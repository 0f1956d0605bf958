import CallAtlas.Proofs.Grammar.Pieces

/-! # The words of a tree

A tree keeps every word of its source, in the order in which the source has them: nothing is
dropped, repeated or moved. What a phrase is read as is put together along the rules of `Derives`,
one rule at a time.
-/
namespace CallAtlas

namespace Grammar

/-! ### Single tokens -/

/-- A reserved word has its own text for its value. -/
theorem lexeme_of_reserved {t : Token} (spelled : t.Spelled)
    (h : t.kind ∈ Kind.keywords.map (·.2)) : t.lexeme = t.value := by
  obtain ⟨⟨word, kind⟩, hword, rfl⟩ := List.mem_map.mp h
  obtain ⟨lexeme, value⟩ := spelled.reserved word hword
  rw [lexeme, value]

theorem pieces_member {t : Token} (h : namesMember t) (spelled : t.Spelled) (rest : List Token) :
    t.kind ≠ .dot ∧ t.pieces true rest = [.word (memberName t)] := by
  have kinds : ∀ kind ∈ memberKinds, kind = .identifier ∨ kind = .string ∨ kind = .operator ∨
      kind ∈ Kind.keywords.map (·.2) ∧ kind.isRaw ∧ kind.isSilent = false ∧ kind ≠ .dot := by decide
  rcases kinds _ (kind_of_namesMember h) with hk | hk | hk | ⟨hk, raw, loud, notDot⟩
  · have ne := spelled.identifier hk
    simp [Token.pieces, hk, Kind.isSilent, Kind.isRaw, memberName, ne]
  · simp [Token.pieces, hk, Kind.isSilent, Kind.isRaw, memberName]
  · have value := (spelled.operator hk).1
    simp [Token.pieces, hk, Kind.isSilent, Kind.isRaw, memberName, value]
  · have same := lexeme_of_reserved spelled hk
    simp [Token.pieces, raw, loud, notDot, memberName, same]

theorem carries_word {t : Token} {tree : Tree} (h : word? t = some tree) :
    Carries [t] tree.yield := by
  intro spelled rest
  obtain ⟨spelled, -⟩ := List.forall_mem_cons.mp spelled
  cases hk : t.kind <;> simp only [word?, hk, reduceCtorEq] at h
  case moduleSelf =>
    obtain rfl := Option.some.inj h
    simp [payload, Token.pieces, hk, Kind.isSilent, Kind.isRaw, moduleSelf, leaf, Form.arrange,
      spelled.moduleSelf hk]
  case operator =>
    split at h
    · obtain rfl := Option.some.inj h
      simp [payload, Token.pieces, hk, Kind.isSilent, Kind.isRaw, leaf, Form.arrange]
    · cases h
  all_goals
    obtain rfl := Option.some.inj h
    simp [payload, Token.pieces, hk, Kind.isSilent, Kind.isRaw, leaf, reference, plainText,
      Form.arrange]

theorem carries_raw {t : Token} (h : t.kind.isRaw) : Carries [t] [.word t.lexeme] := by
  have notDot : t.kind ≠ .dot := by
    intro hk
    simp [hk, Kind.isRaw] at h
  have loud : t.kind.isSilent = false := by
    cases hk : t.kind <;> first | rfl | simp [hk, Kind.isRaw] at h
  refine Carries.nil.cons notDot fun _ rest => ?_
  simp [Token.pieces, loud, h]

/-- The name of an operator is the text of its token. -/
theorem name_ofToken {t : Token} {op : Operator} (h : Operator.ofToken? t = some op)
    (spelled : t.Spelled) : op.name = t.lexeme ∧ op.name ≠ text "not in" := by
  have word {name : Bytes} {kind : Kind} {op : Operator} (hk : t.kind = kind)
      (reserved : (name, kind) ∈ Kind.keywords) (hop : op.name = name) (ne : name ≠ text "not in") :
      op.name = t.lexeme ∧ op.name ≠ text "not in" := by
    rw [← hk] at reserved
    rw [hop, (spelled.reserved name reserved).1]
    exact ⟨rfl, ne⟩
  cases hk : t.kind <;> simp only [Operator.ofToken?, hk, reduceCtorEq] at h
  case operator =>
    have names : ∀ op ∈ Operator.symbols, op.name ≠ text "not in" := by decide
    have name : op.name == t.lexeme :=
      List.find?_some (p := fun op : Operator => op.name == t.lexeme) h
    exact ⟨beq_iff_eq.mp name, names op (List.mem_of_find?_eq_some h)⟩
  all_goals
    obtain rfl := Option.some.inj h
    exact word hk (by decide) rfl (by decide)

theorem isRaw_ofToken {t : Token} {op : Operator} (h : Operator.ofToken? t = some op) :
    t.kind.isRaw := by
  unfold Operator.ofToken? at h
  split at h <;> first | cases h; done | simp_all [Kind.isRaw]

theorem carries_operator {ts : List Token} {op : Operator} (h : Operates ts op) :
    Carries ts (operatorPieces op.name) := by
  intro spelled rest
  cases h with
  | @single t op h =>
    obtain ⟨name, ne⟩ := name_ofToken h (spelled t List.mem_cons_self)
    rw [operatorPieces, if_neg ne, name]
    exact carries_raw (isRaw_ofToken h) spelled rest
  | @notIn first second hfirst hsecond =>
    obtain ⟨hnot, spelled⟩ := List.forall_mem_cons.mp spelled
    obtain ⟨hin, -⟩ := List.forall_mem_cons.mp spelled
    have notLexeme := (hnot.reserved (text "not") (by rw [hfirst]; decide)).1
    have inLexeme := (hin.reserved (text "in") (by rw [hsecond]; decide)).1
    simp [payload, Token.pieces, hfirst, hsecond, Kind.isSilent, Kind.isRaw, operatorPieces,
      Operator.notIn, notLexeme, inLexeme]

theorem lexeme_of_isOp {t : Token} {op : String} (h : t.isOp op) : t.lexeme = text op := by
  simp only [Token.isOp, Bool.and_eq_true, beq_iff_eq] at h
  exact h.2

theorem carries_precedes {t : Token} {name : Bytes} (h : Precedes t name) :
    Carries [t] [.word name] := by
  intro spelled rest
  have raw (kind : t.kind.isRaw) (hname : name = t.lexeme) :
      payload false ([t] ++ rest) = [.word name] ++ payload false rest := by
    rw [hname]
    exact carries_raw kind spelled rest
  rcases h with h | ⟨h, rfl⟩
  · unfold unaryName? at h
    split at h
    · rename_i hk
      obtain rfl := Option.some.inj h
      have lexeme := ((spelled t List.mem_cons_self).reserved (text "not") (by rw [hk]; decide)).1
      exact raw (by rw [hk]; rfl) lexeme.symm
    · split at h
      · rename_i hop
        obtain ⟨op, -, hop⟩ := List.any_eq_true.mp hop
        obtain rfl := Option.some.inj h
        exact raw (by rw [kind_of_isOp hop]; rfl) rfl
      · cases h
  · exact raw (by rw [kind_of_isOp h]; rfl) (lexeme_of_isOp h).symm

theorem silent_separates {t : Token} (h : Separates t) : t.kind.isSilent := by
  rcases h with h | h <;> rw [h] <;> rfl

theorem Delimits.silent {first last : Token} (h : Delimits first last) :
    first.kind.isSilent ∧ last.kind.isSilent := by
  simp only [Delimits, List.mem_cons, Prod.mk.injEq, List.not_mem_nil, or_false] at h
  rcases h with h | h | h | h <;> rw [h.1, h.2] <;> exact ⟨rfl, rfl⟩

theorem silent_of_kind {t : Token} {kind : Kind} (h : t.kind = kind) (hk : kind.isSilent) :
    t.kind.isSilent := by
  rw [h, hk]

/-! ### Trees -/

theorem yield_extend (left : Tree) (segment : Token) :
    (extend left segment).yield = left.yield ++ [.word segment.value] := by
  obtain ⟨form, span, name, children, parens, interpolated⟩ := left
  unfold extend
  dsimp only
  split
  · rename_i hf
    subst hf
    simp [Tree.append, leaf, Form.arrange]
  · simp [leaf, Form.arrange]

theorem yield_apply (op : Operator) (left right : Tree) :
    (op.apply left right).yield = left.yield ++ operatorPieces op.name ++ right.yield := by
  unfold Operator.apply
  by_cases h : op.name = text "=>"
  · have name : (text "=>").isEmpty = false := by decide
    have single : operatorPieces (text "=>") = [.word (text "=>")] := by decide
    simp [h, Form.arrange, name, single]
  · simp [h, Form.arrange]

theorem yield_literalOf (opening : Token) (span : Span) (more : Bytes) (children : List Tree) :
    (literalOf opening span more children).yield =
      .literal (opening.value ++ more) :: Tree.yieldAll children := by
  unfold literalOf
  dsimp only
  split <;> split <;> simp [Form.arrange]

/-! ### Lines -/

/-- The pieces of a line. -/
def Line.yield : Line → List Piece
  | .statement t => t.yield
  | .clause head _ _ => head.yield

/-- The pieces of lines one behind the other. -/
def yieldLines (ls : List Line) : List Piece := (ls.map Line.yield).flatten

theorem yield_assembled (ls : List Line) :
    Tree.yieldAll (assembled ls).1 ++ Tree.yieldAll (assembled ls).2 = yieldLines ls := by
  induction ls with
  | nil => rfl
  | cons l ls ih =>
    rw [yieldLines, List.map_cons, List.flatten_cons, ← yieldLines, ← ih]
    cases l with
    | statement t => simp [assembled, addLine, Line.yield]
    | clause head span arrow => simp [assembled, addLine, Line.yield, Form.arrange]

theorem yieldAll_assemble (ls : List Line) : Tree.yieldAll (assemble ls) = yieldLines ls := by
  rw [assemble_eq, Tree.yieldAll_append, yield_assembled]

theorem yield_blockOf (span : Span) (ls : List Line) : (blockOf span ls).yield = yieldLines ls := by
  rw [blockOf, Tree.yield_mk]
  exact yieldAll_assemble ls

theorem yield_sectionOf (name : Bytes) (span inner : Span) (ls : List Line) :
    (sectionOf name span inner ls).yield = .word name :: yieldLines ls := by
  simp [sectionOf, Form.arrange, yield_blockOf]

/-! ### Phrases -/

/-- The pieces of a phrase. -/
def Phrase.yield : Phrase → List Piece
  | .term t => t.yield
  | .entries ts | .attached ts | .sections ts | .parts _ ts => Tree.yieldAll ts
  | .line l => l.yield
  | .lines ls => yieldLines ls

/-- The tokens behind the first fragment of a literal start with the text of its other fragments. -/
def Phrase.TextIs (ts : List Token) : Phrase → Prop
  | .parts more _ => ∀ us, ownText 0 (ts ++ us) = more
  | _ => True

theorem Derives.textIs {ts : List Token} {p : Phrase} (h : Derives ts p) : p.TextIs ts := by
  induction h with
  | @before s ts p hs _ ih =>
    cases p with
    | parts more vs =>
      intro us
      rw [List.cons_append, ownText_other (isFragment_plain (plain_separates hs))]
      exact ih us
    | _ => trivial
  | @behind s ts p hs _ ih =>
    cases p with
    | parts more vs =>
      intro us
      rw [List.append_assoc]
      exact ih ([s] ++ us)
    | _ => trivial
  | lastPart hk =>
    intro us
    exact ownText_end hk
  | innerPart hk _ ih =>
    intro us
    rw [List.cons_append, ownText_middle hk, ih us]
  | embedded ht _ _ ih =>
    intro us
    rw [List.append_assoc, ownText_nested (ht.nests none) nofun]
    exact ih us
  | _ => trivial

/-! ### What tokens of a phrase give -/

/-- A token that shows its value. -/
theorem carries_value {t : Token} {kind : Kind} (h : t.kind = kind)
    (hk : kind ∈ [.identifier, .alias, .keywordKey, .integer]) : Carries [t] [.word t.value] := by
  subst h
  simp only [List.mem_cons, List.not_mem_nil, or_false] at hk
  refine Carries.nil.cons ?_ fun _ rest => ?_
  · rcases hk with hk | hk | hk | hk <;> simp [hk]
  · rcases hk with hk | hk | hk | hk <;> simp [Token.pieces, hk, Kind.isSilent, Kind.isRaw]

/-- A literal with embedded expressions. -/
theorem carries_literal {opening : Token} {ts : List Token} {more : Bytes} {pieces : List Piece}
    (hk : opening.kind = .interpStart) (text : ∀ us, ownText 0 (ts ++ us) = more)
    (h : Carries ts pieces) :
    Carries (opening :: ts) (.literal (opening.value ++ more) :: pieces) := by
  intro spelled us
  have notDot : opening.kind ≠ .dot := by simp [hk]
  rw [List.cons_append, payload_cons notDot, h (List.forall_mem_cons.mp spelled).2]
  simp [Token.pieces, hk, Kind.isSilent, Kind.isRaw, text]

/-- The name of a member behind its dot. -/
theorem carries_member {dot name : Token} (hd : dot.kind = .dot) (hn : namesMember name) :
    Carries [dot, name] [.word (memberName name)] := by
  intro spelled us
  have hname := spelled name (by simp)
  obtain ⟨notDot, pieces⟩ := pieces_member hn hname us
  rw [List.cons_append, payload_dot hd, List.cons_append, payload_cons notDot, List.nil_append,
    pieces]

theorem isRaw_section {kind : Kind} (h : kind.isSection) : kind.isRaw := by
  cases kind <;> first | rfl | cases h

theorem carries_do {t : Token} (h : t.kind = .kwDo) : Carries [t] [.word (text "do")] := by
  intro spelled us
  have lexeme := ((spelled t List.mem_cons_self).reserved (text "do") (by rw [h]; decide)).1
  rw [← lexeme]
  exact carries_raw (by rw [h]; rfl) spelled us

theorem carries_operatorCapture {mark op slash arity : Token} (span inner : Span)
    (hm : mark.isOp "&") (ho : op.kind = .operator) (hs : slash.kind = .operator)
    (ha : arity.kind = .integer) :
    Carries [mark, op, slash, arity]
      (unary span (text "&")
        { form := .binaryOp, span := inner, name := slash.lexeme
          children := [leaf .var op op.lexeme, leaf .integer arity arity.value] }).yield := by
  have raw {t : Token} (h : t.kind = .operator) : Carries [t] [.word t.lexeme] :=
    carries_raw (by rw [h]; rfl)
  have written := (raw (kind_of_isOp hm)).append
    ((raw ho).append ((raw hs).append (carries_value ha (by simp))))
  intro spelled us
  -- The only operator of two words is longer than any token of an operator.
  have ne : slash.lexeme ≠ text "not in" := by
    have short := ((spelled slash (by simp)).operator hs).2
    intro long
    rw [long] at short
    exact absurd short (by decide)
  simpa [unary, leaf, Form.arrange, operatorPieces, ne, lexeme_of_isOp hm] using written spelled us

theorem Derives.carries {ts : List Token} {p : Phrase} (h : Derives ts p) : Carries ts p.yield := by
  -- The parts of a rule stand in the order in which its tree is read, so they only have to be put
  -- one behind the other.
  induction h with
  | before hs _ ih => exact ih.silent (silent_separates hs)
  | behind hs _ ih => exact ih.behind (silent_separates hs)
  | noEntry => exact .nil
  | entry _ ih => simpa [Phrase.yield] using ih
  | append _ _ left right => simpa [Phrase.yield] using left.append right
  | delimited hd _ ih => exact .closed hd.silent.1 ih hd.silent.2
  | word hw => exact carries_word hw
  | literal hk hd ih =>
    rw [Phrase.yield, yield_literalOf]
    exact carries_literal hk hd.textIs ih
  | lastPart hk => exact Carries.nil.silent (silent_of_kind hk rfl)
  | innerPart hk _ ih => exact ih.silent (silent_of_kind hk rfl)
  | embedded _ _ ih parts => exact ih.append parts
  | container hf _ ih =>
    simp only [List.mem_cons, List.not_mem_nil, or_false] at hf
    rcases hf with rfl | rfl | rfl
    all_goals simpa [Phrase.yield, Form.arrange] using ih
  | map hk _ ih =>
    simpa [Phrase.yield, Form.arrange] using ih.silent (silent_of_kind hk rfl)
  | struct hk _ _ name entries =>
    simpa [Phrase.yield, Form.arrange] using
      (name.append entries).silent (silent_of_kind hk rfl)
  | pair hk _ ih =>
    simpa [Phrase.yield, Form.arrange] using (carries_value hk (by simp)).append ih
  | grouped hf hl _ ih => exact .closed (silent_of_kind hf rfl) ih (silent_of_kind hl rfl)
  | statements _ ih => simpa [Phrase.yield, Form.arrange] using ih
  | groupedClause hf hl ha _ _ head body =>
    have clause := head.append (body.silent (silent_of_kind ha rfl))
    simpa [Phrase.yield, Form.arrange] using
      clause.closed (silent_of_kind hf rfl) (silent_of_kind hl rfl)
  | binary _ hop _ left right =>
    rw [Phrase.yield, yield_apply]
    exact (left.append (carries_operator hop)).append right
  | unary ht _ ih =>
    simpa [Phrase.yield, Grammar.unary, Form.arrange] using (carries_precedes ht).append ih
  | @operatorCapture _ _ _ _ span inner hm ho hs ha =>
    exact carries_operatorCapture span inner hm ho hs ha
  | moduleAttribute hm hn =>
    simpa [Phrase.yield, Form.arrange] using
      (carries_value hn (by simp)).silent (silent_of_kind hm rfl)
  | moduleAttributeValue hm hn _ ih =>
    simpa [Phrase.yield, Form.arrange] using
      ((carries_value hn (by simp)).append ih).silent (silent_of_kind hm rfl)
  | call hn hf _ _ arguments blocks =>
    have named := (carries_value hn (by simp)).append (arguments.append blocks)
    simp only [List.mem_cons, List.not_mem_nil, or_false] at hf
    rcases hf with rfl | rfl
    all_goals simpa [Phrase.yield, Form.arrange] using named
  | remoteCall hd hn _ _ _ left arguments blocks =>
    have called := (left.append (carries_member hd hn)).append (arguments.append blocks)
    simpa [Phrase.yield, Form.arrange] using called
  | field hd hn _ ih =>
    simpa [Phrase.yield, Form.arrange] using ih.append (carries_member hd hn)
  | extend hd hs _ ih =>
    rw [Phrase.yield, yield_extend]
    refine ih.append ((carries_value hs (by simp)).behindDot hd ?_)
    simp [hs]
  | multiAlias hd hf _ _ left entries =>
    have behind := entries.behindDot hd (by simp [hf])
    simpa [Phrase.yield, Form.arrange] using left.append behind
  | anonCall hd hf _ _ left arguments =>
    have behind := arguments.behindDots hd (by simp [hf])
    simpa [Phrase.yield, Form.arrange] using left.append behind
  | access hf hl _ _ left key =>
    have closed := key.closed (silent_of_kind hf rfl) (silent_of_kind hl rfl)
    simpa [Phrase.yield, Form.arrange] using left.append closed
  | statement _ ih => exact ih
  | clause ha _ ih =>
    simpa [Phrase.yield, Line.yield, clauseLine, Form.arrange] using
      ih.behind (silent_of_kind ha rfl)
  | noLine => exact .nil
  | moreLines _ _ first more => exact first.append more
  | noSection => exact .nil
  | moreSections hw _ _ lines more =>
    simpa [Phrase.yield, yield_sectionOf] using
      (carries_raw (isRaw_section hw)).append (lines.append more)
  | noBlock => exact .nil
  | doBlock hf hl _ _ lines more =>
    have opened := (carries_do hf).append (lines.append more)
    simpa [Phrase.yield, Form.arrange, yield_sectionOf] using opened.behind (silent_of_kind hl rfl)
  | fn hf hl _ _ _ lines =>
    simpa [Phrase.yield, Form.arrange, yieldAll_assemble] using
      lines.closed (silent_of_kind hf rfl) (silent_of_kind hl rfl)

end Grammar

open Grammar in
/-- The tree of a source is read from left to right as the words of its tokens. Each literal with
embedded expressions has the text of its own fragments. -/
theorem tree_yields_tokens (s : Source) (t : Tree) (h : parse s = .ok t) :
    t.yield = payload false (tokenize s).1 := by
  obtain ⟨ts, eof, tokens, hts, heof⟩ := Lexer.tokenize_ends s
  have accepted := (parseTokens_of_parse h).2
  rw [tokens] at accepted
  obtain ⟨_, _, _, _, ls, span, rfl, hd⟩ := derives_all hts heof accepted
  have spelled : ∀ u ∈ ts, u.Spelled := by
    intro u hu
    exact spelled_tokenize s u (tokens ▸ List.mem_append_left _ hu)
  calc (blockOf span ls).yield
    _ = yieldLines ls := yield_blockOf span ls
    _ = yieldLines ls ++ payload false [eof] := by
      rw [payload_silent (silent_of_kind heof rfl), payload, List.append_nil]
    _ = payload false (ts ++ [eof]) := (hd.carries spelled [eof]).symm
    _ = payload false (tokenize s).1 := by rw [tokens]

/-- An operator of two words, a member without a name, and a literal with two expressions. -/
def wordSample : Source :=
  ⟨Source.defaultName, text "x = F.\"\"(a not in b, k: \"p#\x7b@c\x7dq#\x7bd\x7d\")"⟩

theorem wordSample_yields : (∃ t, Grammar.parse wordSample = .ok t ∧
      t.yield = payload false (tokenize wordSample).1) ∧
    payload false (tokenize wordSample).1 =
      [.word (text "x"), .word (text "="), .word (text "F"), .word (text "\"\""), .word (text "a"),
        .word (text "not"), .word (text "in"), .word (text "b"), .word (text "k"),
        .literal (text "pq"), .word (text "c"), .word (text "d")] := by
  constructor
  · have ok : (Grammar.parse wordSample).toOption.isSome := by decide +kernel
    cases ht : Grammar.parse wordSample with
    | error e => simp [ht, Except.toOption] at ok
    | ok t => exact ⟨t, rfl, tree_yields_tokens wordSample t ht⟩
  · decide +kernel

end CallAtlas
