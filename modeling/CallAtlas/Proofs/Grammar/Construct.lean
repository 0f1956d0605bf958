import CallAtlas.Proofs.Grammar.Arguments

/-! # Blocks, literals and parentheses are derived from their tokens

An opening token has been read before most of these parts start, so their lemmas speak of the tokens
that follow together with that one.
-/
namespace CallAtlas.Grammar

/-- The line breaks behind a read. -/
theorem takes_breaksBehind {c : Cursor} {α : Type} (p : MaybeParsed c α) :
    ∃ breaks, p.rest.Takes breaks p.skipNewlines.rest ∧ ∀ s ∈ breaks, Separates s := by
  obtain ⟨breaks, taken, hb⟩ := p.rest.takes_skipNewlines
  exact ⟨breaks, taken, separates_of_newline hb⟩

theorem word_of_structHead {t : Token} {head : Tree} (h : structHead? t = some head) :
    word? t = some head := by
  unfold structHead? at h
  unfold word?
  split at h <;> simp_all

/-- Tokens that go on behind the term `left` and make it the term `t`, whatever `left` was read
from. -/
structure Continues (left : Tree) (us : List Token) (t : Tree) : Prop where
  noEnd : NoEnd us
  derives : ∀ {ts}, Derives ts (.term left) → Derives (ts ++ us) (.term t)

theorem reads_segment (name : Tree) : OptionReads (segment? name) (Continues name) := by
  intro c p hp
  simp only [segment?, Except.ok.injEq, Option.bind_eq_bind, Option.bind_eq_some_iff] at hp
  obtain ⟨dot, hdot, segment, hsegment, hp⟩ := hp
  obtain rfl := Option.some.inj hp
  obtain ⟨first, hk⟩ := Cursor.takes_take hdot
  obtain ⟨more, hs⟩ := Cursor.takes_take hsegment
  exact ⟨[dot.value] ++ [segment.value], first.trans more, by simp [hk, hs], (·.extend hk hs)⟩

/-- A loop that goes on behind a term goes on behind what it was read from. -/
theorem OptionReads.iterateYields {read : Tree → OptionReader Tree}
    (h : ∀ left, OptionReads (read left) (Continues left)) {ts : List Token} {left : Tree}
    (hl : Derives ts (.term left)) :
    MaybeReads (iterate read left) fun us t => Derives (ts ++ us) (.term t) :=
  MaybeReads.iterate (Q := Yields .term)
    (fun _ left hl => (h left).mono fun _ _ continues => continues.derives hl) hl

/-- Tokens of text and expressions inside a literal, of which more may follow. -/
def Precede (ts : List Token) (text : Bytes) (vs : List Tree) : Prop :=
  ∀ us more ws, Derives us (.parts more ws) → Derives (ts ++ us) (.parts (text ++ more) (vs ++ ws))

theorem Precede.append {ts us : List Token} {text more : Bytes} {vs ws : List Tree}
    (h : Precede ts text vs) (h' : Precede us more ws) :
    Precede (ts ++ us) (text ++ more) (vs ++ ws) := by
  intro ts' text' vs' hd
  simpa using h _ _ _ (h' _ _ _ hd)

section Parts

variable {expr : Expr} (he : ∀ level blocks, Reads (expr level blocks) (Yields .term))

include he

/-! ### Lines and blocks -/

theorem reads_line : Reads (line expr) (Yields .line) := by
  intro c p h
  unfold line at h
  dsimp only at h
  split at h
  · rename_i arrow ha
    obtain rfl := Except.ok.inj h
    obtain ⟨taken, hk⟩ := Cursor.takes_take ha
    exact ⟨[arrow.value], taken, Derives.noEntry.clause hk⟩
  · obtain ⟨first, hfirst, h⟩ := bind_eq_ok h
    obtain ⟨more, hmore, h⟩ := bind_eq_ok h
    obtain ⟨ts, head, hd⟩ := he 0 true c first hfirst
    obtain ⟨us, rest, alone, hds⟩ := (reads_moreArguments he true).andMaybe hmore
    split at h
    · rename_i arrow ha
      obtain rfl := Except.ok.inj h
      obtain ⟨mark, hk⟩ := Cursor.takes_take ha
      exact ⟨ts ++ us ++ [arrow.value], (head.trans rest).trans mark, (hd.cons hds).clause hk⟩
    · split at h
      · cases h
      · rename_i hempty
        split at h
        · obtain rfl := Except.ok.inj h
          have hv : more.value = [] := by simpa using hempty
          refine ⟨ts ++ us, head.trans rest, ?_⟩
          rw [alone hv, List.append_nil]
          exact hd.statement
        · cases h

theorem reads_nextLine : OptionReads (nextLine expr) (Yields .line) := by
  intro c p h
  unfold nextLine at h
  split at h
  · cases h
  · obtain ⟨q, hq, hp⟩ := map_eq_ok h
    obtain rfl := Option.some.inj hp
    exact (reads_line he).looselyYields c q hq

theorem reads_block :
    MaybeReads (block expr) fun ts t =>
      ∃ ls span, t = blockOf span ls ∧ Derives ts (.lines ls) := by
  intro c p h
  obtain ⟨found, hfound, h⟩ := bind_eq_ok h
  obtain rfl := Except.ok.inj h
  have lines : MaybeReads (many (nextLine expr)) (Yields .lines) :=
    (reads_nextLine he).many .noLine fun _ _ _ _ hl hls => hl.moreLines hls
  obtain ⟨ts, taken, hd⟩ := lines c found hfound
  obtain ⟨breaks, skipped, hb⟩ := takes_breaksBehind found
  exact ⟨ts ++ breaks, taken.trans skipped, found.value, _, rfl, hd.behindAll hb⟩

theorem reads_doSection (name : Bytes) (span : Span) :
    MaybeReads (doSection expr name span) fun ts t =>
      ∃ ls inner, t = sectionOf name span inner ls ∧ Derives ts (.lines ls) := by
  intro c p h
  obtain ⟨body, hbody, h⟩ := bind_eq_ok h
  obtain rfl := Except.ok.inj h
  obtain ⟨ts, taken, ls, inner, ht, hd⟩ := reads_block he c body hbody
  refine ⟨ts, taken, ls, inner, ?_, hd⟩
  simp [ht, sectionOf]

theorem reads_nextSection :
    OptionReads (nextSection expr) fun ts t =>
      ∃ word us ls inner, ts = word :: us ∧ word.kind.isSection ∧
        t = sectionOf word.lexeme word.span inner ls ∧ Derives us (.lines ls) := by
  intro c p h
  unfold nextSection at h
  split at h
  · rename_i word hw
    obtain ⟨q, hq, hp⟩ := map_eq_ok h
    obtain rfl := Option.some.inj hp
    obtain ⟨first, hk⟩ := Cursor.takes_takeIf hw
    obtain ⟨us, more, ls, inner, ht, hd⟩ := (reads_doSection he _ _).andMaybe hq
    exact ⟨[word.value] ++ us, first.trans more, word.value, us, ls, inner, rfl, hk, ht, hd⟩
  · cases h

theorem reads_doBlock {opening : Token} (ho : opening.kind = .kwDo) :
    Reads (doBlock expr opening) fun ts t => Derives (opening :: ts) (.attached [t]) := by
  intro c p h
  obtain ⟨body, hbody, h⟩ := bind_eq_ok h
  obtain ⟨more, hmore, h⟩ := bind_eq_ok h
  obtain ⟨last, hlast, h⟩ := bind_eq_ok h
  obtain rfl := Except.ok.inj h
  have sections : MaybeReads (many (nextSection expr)) (Yields .sections) := by
    refine (reads_nextSection he).many .noSection ?_
    rintro _ us _ pairs ⟨word, ts, ls, inner, rfl, hk, rfl, hd⟩ hds
    exact Derives.moreSections hk hd hds
  obtain ⟨ts, first, ls, inner, ht, hd⟩ := reads_doSection he _ _ c body hbody
  obtain ⟨us, rest, hds⟩ := sections.behindMaybe hmore
  obtain ⟨_, close, rfl, hk⟩ := (reads_expect _ _).behindMaybe hlast
  refine ⟨ts ++ us ++ [last.value], (first.trans rest).trans close, ?_⟩
  simp only [Parsed.value_map, ht]
  exact Derives.doBlock ho hk hd hds

/-- The call with the `do` block behind it, if there is one. -/
theorem reads_attach (blocks : Bool) (call : Tree) :
    MaybeReads (attach expr blocks call) fun ts t =>
      ∃ attached span, t = { call with span, children := call.children ++ attached } ∧
        Derives ts (.attached attached) := by
  intro c p h
  unfold attach at h
  split at h
  · rename_i opening ho
    obtain ⟨body, hbody, h⟩ := bind_eq_ok h
    obtain rfl := Except.ok.inj h
    split at ho
    · obtain ⟨first, hk⟩ := Cursor.takes_take ho
      obtain ⟨ts, more, hd⟩ := (reads_doBlock he hk).andThen hbody
      exact ⟨[opening.value] ++ ts, first.trans more, [body.value], _, rfl, hd⟩
    · cases ho
  · obtain rfl := Except.ok.inj h
    refine ⟨[], .refl c, [], call.span, ?_, .noBlock⟩
    cases call
    simp [Cursor.stay]

theorem reads_fn {opening : Token} (ho : opening.kind = .kwFn) :
    Reads (fn expr opening) fun ts t => Derives (opening :: ts) (.term t) := by
  intro c p h
  obtain ⟨body, hbody, h⟩ := bind_eq_ok h
  obtain ⟨last, hlast, h⟩ := bind_eq_ok h
  obtain ⟨ts, first, ls, inner, ht, hd⟩ := reads_block he c body hbody
  obtain ⟨_, close, rfl, hk⟩ := (reads_expect _ _).behindMaybe hlast
  have hchildren : body.value.children = assemble ls := by rw [ht]; rfl
  dsimp only at h
  rw [hchildren] at h
  split at h
  · cases h
  · rename_i hall
    split at h
    · cases h
    · rename_i hne
      obtain rfl := Except.ok.inj h
      refine ⟨ts ++ [last.value], first.trans close, hd.fn ho hk ?_ ?_⟩
      · simpa using hall
      · simpa using hne

/-! ### Containers -/

theorem reads_container {opening : Token} {closer : Kind} (form : Form) (start : Span)
    (delimits : ∀ last, last.kind = closer → Delimits opening last) :
    Reads (container expr form closer start) fun ts t =>
      ∃ vs span, t = { form, span, children := vs } ∧ Derives (opening :: ts) (.entries vs) := by
  intro c p h
  obtain ⟨found, hfound, h⟩ := bind_eq_ok h
  obtain rfl := Except.ok.inj h
  obtain ⟨ts, taken, hd⟩ := reads_items he _ delimits c found hfound
  exact ⟨ts, taken, found.value, _, rfl, hd⟩

theorem reads_mapOrStruct {mark : Token} (hm : mark.kind = .percent) (start : Span) :
    Reads (mapOrStruct expr start) fun ts t => Derives (mark :: ts) (.term t) := by
  have delimits {brace last : Token} (hb : brace.kind = .lbrace) (hl : last.kind = .rbrace) :
      Delimits brace last := by simp [Delimits, hb, hl]
  intro c p h
  unfold mapOrStruct at h
  split at h
  · rename_i brace hbrace
    obtain ⟨first, hb⟩ := Cursor.takes_take hbrace
    obtain ⟨ts, more, vs, span, ht, hd⟩ :=
      (reads_container he .map start fun _ => delimits hb).andThen h
    refine ⟨[brace.value] ++ ts, first.trans more, ?_⟩
    rw [ht]
    exact hd.map hm
  · split at h
    · rename_i head first hhead hfirst
      obtain ⟨name, hname, h⟩ := bind_eq_ok h
      obtain ⟨brace, hbrace, h⟩ := bind_eq_ok h
      obtain ⟨fields, hfields, h⟩ := bind_eq_ok h
      obtain rfl := Except.ok.inj h
      rw [Cursor.peek_of_next hfirst] at hhead
      have start : Derives [first.value] (.term head) := .word (word_of_structHead hhead)
      obtain ⟨us, rest, hn⟩ :=
        (OptionReads.iterateYields reads_segment start).andMaybe hname
      obtain ⟨_, open', rfl, hb⟩ := (reads_expect _ _).andThen hbrace
      obtain ⟨ws, close, vs, span, ht, hd⟩ :=
        (reads_container he .map _ fun _ => delimits hb).andThen hfields
      refine ⟨_, ((Cursor.takes_next hfirst).trans rest).trans (open'.trans close), ?_⟩
      simp only [Parsed.value_map, ht]
      exact hn.struct hm hd
    · cases h

/-! ### Text with embedded expressions -/

theorem reads_embedded : MaybeReads (embedded expr) fun ts vs => Precede ts [] vs := by
  intro c p h
  unfold embedded at h
  split at h
  · obtain rfl := Except.ok.inj h
    obtain ⟨breaks, taken, hb⟩ := c.takes_skipNewlines
    exact ⟨breaks, taken, fun us more ws hd => hd.beforeAll (separates_of_newline hb)⟩
  · obtain ⟨value, hvalue, h⟩ := bind_eq_ok h
    obtain rfl := Except.ok.inj h
    obtain ⟨ts, taken, ht⟩ := (he 0 true).looselyYields c value hvalue
    obtain ⟨breaks, skipped, hb⟩ := takes_breaksBehind (value.map ([·])).maybe
    refine ⟨ts ++ breaks, taken.trans skipped, fun us more ws hd => ?_⟩
    exact (ht.behindAll hb).embedded hd

theorem reads_nextFragment :
    OptionReads (nextFragment expr) fun ts f => Precede ts f.1 f.2 := by
  intro c p h
  unfold nextFragment at h
  split at h
  · rename_i fragment hfragment
    obtain ⟨values, hvalues, h⟩ := bind_eq_ok h
    obtain rfl := Option.some.inj (Except.ok.inj h)
    obtain ⟨first, hk⟩ := Cursor.takes_take hfragment
    obtain ⟨ts, more, hp⟩ := (reads_embedded he).andMaybe hvalues
    refine ⟨[fragment.value] ++ ts, first.trans more, ?_⟩
    exact fun us more ws hd => (hp _ _ _ hd).innerPart hk
  · cases h

theorem reads_fragments : Reads (fragments expr) fun ts f => Derives ts (.parts f.1 f.2) := by
  intro c p h
  obtain ⟨values, hvalues, h⟩ := bind_eq_ok h
  obtain ⟨more, hmore, h⟩ := bind_eq_ok h
  obtain ⟨last, hlast, h⟩ := bind_eq_ok h
  obtain rfl := Except.ok.inj h
  have inner : MaybeReads (many (nextFragment expr)) fun ts fs =>
      Precede ts (fs.flatMap (·.1)) (fs.flatMap (·.2)) := by
    refine (reads_nextFragment he).many (fun us more ws hd => hd) ?_
    intro ts us f fs hf hfs
    exact hf.append hfs
  obtain ⟨ts, first, hts⟩ := reads_embedded he c values hvalues
  obtain ⟨us, rest, hus⟩ := inner.behindMaybe hmore
  obtain ⟨_, close, rfl, hk⟩ := (reads_expect _ _).behindMaybe hlast
  refine ⟨ts ++ us ++ [last.value], (first.trans rest).trans close, ?_⟩
  simpa using (hts.append hus) _ _ _ (.lastPart hk)

theorem reads_interpolated {opening : Token} (ho : opening.kind = .interpStart) :
    Reads (interpolated expr opening) fun ts t => Derives (opening :: ts) (.term t) := by
  intro c p h
  obtain ⟨parts, hparts, h⟩ := bind_eq_ok h
  obtain rfl := Except.ok.inj h
  obtain ⟨ts, taken, hd⟩ := reads_fragments he c parts hparts
  exact ⟨ts, taken, hd.literal ho⟩

/-! ### Parentheses -/

/-- A further expression in parentheses behind a comma. -/
theorem reads_behindComma :
    OptionReads (fun c => behind (c.take? .comma) (loosely (expr 0 true))) (Yields .term) := by
  intro c p h
  obtain ⟨comma, hc, ts, more, hd⟩ := (he 0 true).looselyYields.behindToken h
  obtain ⟨first, hk⟩ := Cursor.takes_take hc
  exact ⟨[comma.value] ++ ts, first.trans more, hd.before (.inr hk)⟩

theorem reads_commaSeparated :
    Reads (commaSeparated expr) fun ts vs =>
      Derives ts (.entries vs) ∧ ∀ t, vs = [t] → Derives ts (.term t) := by
  intro c p h
  obtain ⟨value, hvalue, h⟩ := bind_eq_ok h
  obtain ⟨more, hmore, h⟩ := bind_eq_ok h
  obtain rfl := Except.ok.inj h
  obtain ⟨ts, first, hd⟩ := he 0 true c value hvalue
  obtain ⟨us, rest, alone, hds⟩ := (reads_many_entries (reads_behindComma he)).andMaybe hmore
  refine ⟨ts ++ us, first.trans rest, hd.cons hds, ?_⟩
  intro t ht
  obtain ⟨rfl, hv⟩ := List.cons.inj ht
  rwa [alone hv, List.append_nil]

theorem reads_nextStatement : OptionReads (nextStatement expr) (Yields .term) := by
  intro c p h
  unfold nextStatement at h
  split at h
  · cases h
  · split at h
    · cases h
    · obtain ⟨q, hq, hp⟩ := map_eq_ok h
      obtain rfl := Option.some.inj hp
      exact (he 0 true).looselyYields c q hq

/-- What stands behind the first expression in parentheses, with the closing one. -/
theorem reads_moreStatements :
    Reads (moreStatements expr) fun ts vs =>
      ∃ us breaks last, ts = us ++ (breaks ++ [last]) ∧ last.kind = .rparen ∧
        (∀ s ∈ breaks, Separates s) ∧ (vs = [] → us = []) ∧ Derives us (.entries vs) := by
  intro c p h
  obtain ⟨found, hfound, h⟩ := bind_eq_ok h
  obtain ⟨last, hlast, h⟩ := bind_eq_ok h
  obtain rfl := Except.ok.inj h
  obtain ⟨us, taken, alone, hd⟩ := reads_many_entries (reads_nextStatement he) c found hfound
  obtain ⟨_, close, breaks, _, rfl, hb, rfl, hk⟩ := (reads_expect _ _).loosely.behindMaybe hlast
  exact ⟨us ++ (breaks ++ [last.value]), taken.trans close, us, breaks, last.value, rfl, hk,
    separates_of_newline hb, alone, hd⟩

theorem reads_parenthesisedClause {opening arrow : Token} (ho : opening.kind = .lparen)
    (ha : arrow.kind = .arrow) (start : Span) {ts : List Token} {patterns : List Tree}
    (hp : Derives ts (.entries patterns)) :
    Reads (parenthesisedClause expr start patterns) fun us t =>
      Derives (opening :: (ts ++ arrow :: us)) (.term t) := by
  intro c p h
  obtain ⟨result, hresult, h⟩ := bind_eq_ok h
  obtain ⟨last, hlast, h⟩ := bind_eq_ok h
  obtain rfl := Except.ok.inj h
  obtain ⟨us, first, hd⟩ := he 0 true c result hresult
  obtain ⟨_, close, breaks, _, rfl, hb, rfl, hk⟩ := (reads_expect _ _).loosely.andThen hlast
  refine ⟨us ++ (breaks ++ [last.value]), first.trans close, ?_⟩
  have body := hd.behindAll (separates_of_newline hb)
  simpa using Derives.groupedClause ho hk ha hp body

theorem reads_parenthesised {opening : Token} (ho : opening.kind = .lparen) (start : Span) :
    Reads (parenthesised expr start) fun ts t => Derives (opening :: ts) (.term t) := by
  have delimits {last : Token} (hl : last.kind = .rparen) : Delimits opening last := by
    simp [Delimits, ho, hl]
  intro c p h
  unfold parenthesised at h
  split at h
  · rename_i last hlast
    obtain rfl := Except.ok.inj h
    obtain ⟨breaks, taken, hb, hk⟩ := takes_takeLoose hlast
    refine ⟨breaks ++ [last.value], taken, ?_⟩
    have inside := Derives.noEntry.behindAll (separates_of_newline hb)
    simpa using (inside.delimited (delimits hk)).statements
  · obtain ⟨values, hvalues, h⟩ := bind_eq_ok h
    obtain ⟨_, first, breaks, ts, rfl, hb, hd, single⟩ :=
      (reads_commaSeparated he).loosely c values hvalues
    have hb := separates_of_newline hb
    split at h
    · rename_i arrow harrow
      obtain ⟨mark, ha⟩ := Cursor.takes_take harrow
      obtain ⟨us, rest, ht⟩ :=
        (reads_parenthesisedClause he ho ha start (hd.beforeAll hb)).andThen h
      refine ⟨breaks ++ ts ++ ([arrow.value] ++ us), first.trans (mark.trans rest), ht⟩
    · split at h
      · rename_i value hvalue
        obtain ⟨more, hmore, h⟩ := bind_eq_ok h
        obtain rfl := Except.ok.inj h
        have hs := (single value hvalue).beforeAll hb
        obtain ⟨_, rest, us, breaks', last, rfl, hk, hb', alone, hds⟩ :=
          (reads_moreStatements he).andThen hmore
        refine ⟨breaks ++ ts ++ (us ++ (breaks' ++ [last])), first.trans rest, ?_⟩
        dsimp only [Parsed.value_map]
        split
        · rename_i hempty
          rw [alone (by simpa using hempty)]
          simpa using (hs.behindAll hb').grouped ho hk
        · simpa using (((hs.cons hds).behindAll hb').delimited (delimits hk)).statements
      · cases h

end Parts
end CallAtlas.Grammar
