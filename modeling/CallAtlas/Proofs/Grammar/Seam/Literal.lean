import CallAtlas.Proofs.Grammar.Seam.Block

/-! # Literals before a seam

Containers, text with embedded expressions and what stands in parentheses end with a token of their
own, so they move whatever is put behind it.
-/
namespace CallAtlas.Grammar

open Seam

variable {s : Seam} {c : Cursor} {expr expr' : Expr}

/-! ### Containers -/

theorem moves_container (he : s.ExprMoves expr expr') (form : Form) {closer : Kind}
    (hk : stopsAt true closer) (start : Span) :
    s.Moves Anywhere (container expr form closer start) (container expr' form closer start) := by
  intro c p hs h _
  obtain ⟨found, hfound, h⟩ := bind_eq_ok h
  obtain rfl := Except.ok.inj h
  exact bind_of_ok (moves_items he hk _ c found hs hfound trivial) rfl

/-- A place two tokens or more before the seam. -/
def Seam.TwoBefore (s : Seam) (d : Cursor) : Prop := s.size + 2 ≤ d.size

theorem leadsBack_segment (name : Tree) : s.LeadsBack s.TwoBefore (segment? name) := by
  intro c p _ _ fits
  exact Nat.le_trans fits (Nat.le_of_lt p.size_lt)

theorem moves_segment (name : Tree) :
    s.OptionMoves s.TwoBefore (segment? name) (segment? name) where
  goes c p hs h _ := by
    obtain ⟨dot, hdot, h⟩ := Option.bind_eq_some_iff.mp (Except.ok.inj h)
    obtain ⟨segment, hsegment, h⟩ := Option.bind_eq_some_iff.mp h
    obtain rfl := Option.some.inj h
    have behind : s.size ≤ segment.rest.size := hs
    have inside : s.size ≤ dot.rest.size := Nat.le_trans hs (Nat.le_of_lt segment.size_lt)
    have first : (s.move c).take? .dot = _ := s.takeIf_move hdot inside
    have second : (s.moved dot inside).rest.take? .alias = _ := s.takeIf_move hsegment behind
    unfold segment?
    rw [first, Option.bind_eq_bind, Option.bind_some, second]
    rfl
  stops c hs h fits := by
    unfold Seam.TwoBefore at fits
    unfold segment? at h ⊢
    cases hdot : c.take? .dot with
    | none =>
      have none : (s.move c).take? .dot = none := s.takeIf_move_none hdot (by omega)
      rw [none]
      rfl
    | some dot =>
      rw [hdot] at h
      have size := Cursor.size_next (Cursor.next_of_takeIf hdot).1
      have inside : s.size < dot.rest.size := by omega
      have first : (s.move c).take? .dot = _ := s.takeIf_move hdot (Nat.le_of_lt inside)
      have missing : dot.rest.take? .alias = none := by
        cases hsegment : dot.rest.take? .alias with
        | none => rfl
        | some segment =>
          rw [Option.bind_eq_bind, Option.bind_some, hsegment] at h
          cases Except.ok.inj h
      have second : (s.moved dot (Nat.le_of_lt inside)).rest.take? .alias = none :=
        s.takeIf_move_none missing inside
      rw [first, Option.bind_eq_bind, Option.bind_some, second]
      rfl

theorem moves_mapOrStruct (he : s.ExprMoves expr expr') (start : Span) :
    s.Moves Anywhere (mapOrStruct expr start) (mapOrStruct expr' start) := by
  intro c p hs h _
  have before := Nat.lt_of_le_of_lt hs p.size_lt
  have seen := s.peek_move before
  unfold mapOrStruct at h ⊢
  split at h
  · rename_i brace hbrace
    have inside : s.size ≤ brace.rest.size :=
      Nat.le_trans hs (Nat.le_of_lt (Parsed.size_andThen h))
    have first : (s.move c).take? .lbrace = _ := s.takeIf_move hbrace inside
    rw [first]
    exact (moves_container he .map rfl start).andThen h hs trivial inside
  · rename_i missing
    have none : (s.move c).take? .lbrace = none := s.takeIf_move_none missing before
    rw [none, seen]
    dsimp only
    split at h
    · rename_i head first hhead hfirst
      obtain ⟨name, hname, h⟩ := bind_eq_ok h
      obtain ⟨brace, hbrace, h⟩ := bind_eq_ok h
      obtain ⟨fields, hfields, h⟩ := bind_eq_ok h
      have size₁ := Parsed.size_andMaybe hname
      have size₂ := Parsed.size_andThen hbrace
      have size₃ := Parsed.size_andThen hfields
      obtain rfl := Except.ok.inj h
      have inside : s.size ≤ fields.rest.size := hs
      have inside₁ : s.size ≤ first.rest.size := by omega
      have inside₂ : s.size ≤ name.rest.size := by omega
      have inside₃ : s.size ≤ brace.rest.size := by omega
      have two : s.TwoBefore name.rest := by unfold Seam.TwoBefore; omega
      have word := s.next_move hfirst inside₁
      have named := (OptionMoves.iterate moves_segment leadsBack_segment head).andMaybe hname
        inside₂ two inside₁
      have opening := (moves_expect _ _).andThen hbrace inside₃ trivial inside₂
      have body := (moves_container he .map rfl brace.value.span).andThen hfields hs trivial
        inside₃
      rw [hhead, word]
      exact bind_of_ok named (bind_of_ok opening (bind_of_ok body rfl))
    · cases h

/-! ### Text -/

/-- The start of a fragment that is not the first, before the seam. -/
structure Seam.AtFragment (s : Seam) (d : Cursor) : Prop where
  inside : s.size < d.size
  kind : d.peek.kind = .interpMiddle ∨ d.peek.kind = .interpEnd

theorem Seam.AtFragment.stops (h : s.AtFragment c) : stopsAt true c.peek.kind := by
  rcases h.kind with kind | kind <;> rw [kind] <;> rfl

theorem moves_embedded (he : s.ExprMoves expr expr') :
    s.MaybeMoves s.AtFragment (embedded expr) (embedded expr') := by
  intro c p hs h fits
  unfold embedded at h ⊢
  split at h
  · rename_i ends
    obtain rfl := Except.ok.inj h
    have start : s.LineEnd c := fits.inside
    have ends' : ((s.move c).skipNewlines.sees .interpMiddle ||
        (s.move c).skipNewlines.sees .interpEnd) = true := by
      rwa [start.skipNewlines, s.sees_move start, s.sees_move start]
    rw [if_pos ends']
    simp only [Cursor.newlines, MaybeParsed.map, movedMaybe, start.skipNewlines]
  · rename_i more
    obtain ⟨value, hvalue, h⟩ := bind_eq_ok h
    have shorter := size_loosely hvalue
    obtain rfl := Except.ok.inj h
    have last : s.LineEnd value.rest := fits.inside
    have inside := Nat.le_of_lt last.inside
    have start : s.LineEnd c := Nat.lt_of_le_of_lt inside shorter
    have more' : ¬ ((s.move c).skipNewlines.sees .interpMiddle ||
        (s.move c).skipNewlines.sees .interpEnd) = true := by
      rwa [start.skipNewlines, s.sees_move start, s.sees_move start]
    have between : s.Fits true true value.rest := by
      refine fits_of_stops last.inside ?_
      by_cases newline : value.rest.peek.kind = .newline
      · rw [newline]
        rfl
      · rw [← Cursor.skipNewlines_eq_self newline]
        exact fits.stops
    rw [if_neg more']
    refine bind_of_ok ((he.moves 0 id).loosely c value inside hvalue between) ?_
    simp only [MaybeParsed.skipNewlines, MaybeParsed.map, MaybeParsed.followedBy, Cursor.newlines,
      movedMaybe, moved, Parsed.map, Parsed.maybe, last.skipNewlines]
    rfl

theorem leadsBack_nextFragment : s.LeadsBack s.AtFragment (nextFragment expr) := by
  intro c p h hs _
  unfold nextFragment at h
  split at h
  · rename_i fragment hfragment
    exact ⟨Nat.lt_of_le_of_lt hs p.size_lt, .inl (Cursor.peek_of_take hfragment)⟩
  · cases h

theorem moves_nextFragment (he : s.ExprMoves expr expr') :
    s.OptionMoves s.AtFragment (nextFragment expr) (nextFragment expr') where
  goes c p hs h fits := by
    unfold nextFragment at h ⊢
    split at h
    · rename_i fragment hfragment
      obtain ⟨values, hvalues, h⟩ := bind_eq_ok h
      have shorter := Parsed.size_andMaybe hvalues
      obtain rfl := Option.some.inj (Except.ok.inj h)
      have inside : s.size ≤ fragment.rest.size := Nat.le_trans hs shorter
      have first : (s.move c).take? .interpMiddle = _ := s.takeIf_move hfragment inside
      have body := (moves_embedded he).andMaybe hvalues hs fits inside
      rw [first]
      exact bind_of_ok body rfl
    · cases h
  stops c hs h fits := by
    unfold nextFragment at h ⊢
    split at h
    · obtain ⟨_, _, h⟩ := bind_eq_ok h
      cases h
    · rename_i missing
      rw [Cursor.take?, s.takeIf_move_none missing fits.inside]

theorem moves_fragments (he : s.ExprMoves expr expr') :
    s.Moves Anywhere (fragments expr) (fragments expr') := by
  intro c p hs h _
  obtain ⟨first, hfirst, h⟩ := bind_eq_ok h
  obtain ⟨more, hmore, h⟩ := bind_eq_ok h
  obtain ⟨last, hlast, h⟩ := bind_eq_ok h
  have size₂ := MaybeParsed.size_andMaybe hmore
  have size₃ := MaybeParsed.size_andThen hlast
  obtain rfl := Except.ok.inj h
  have inside₂ : s.size ≤ more.rest.size := Nat.le_trans hs (Nat.le_of_lt size₃)
  have inside₁ : s.size ≤ first.rest.size := Nat.le_trans inside₂ size₂
  have fits₂ : s.AtFragment more.rest := by
    obtain ⟨fragment, hfragment, rfl⟩ := map_eq_ok hlast
    exact ⟨Nat.lt_of_le_of_lt hs size₃, .inr (Cursor.peek_of_take (take_of_expect hfragment))⟩
  have fits₁ : s.AtFragment first.rest := by
    obtain ⟨others, hothers, rfl⟩ := map_eq_ok hmore
    exact leadsBack_nextFragment.many _ others hothers inside₂ fits₂
  have start := moves_embedded he c first inside₁ hfirst fits₁
  have others := ((moves_nextFragment he).many leadsBack_nextFragment).behindMaybe hmore inside₂
    fits₂ inside₁
  have stop := (moves_expect _ _).behindMaybe hlast hs trivial inside₂
  exact bind_of_ok start (bind_of_ok others (bind_of_ok stop rfl))

theorem moves_interpolated (he : s.ExprMoves expr expr') (opening : Token) :
    s.Moves Anywhere (interpolated expr opening) (interpolated expr' opening) := by
  intro c p hs h _
  obtain ⟨parts, hparts, h⟩ := bind_eq_ok h
  obtain rfl := Except.ok.inj h
  exact bind_of_ok (moves_fragments he c parts hs hparts trivial) rfl

/-! ### Parentheses -/

theorem leadsBack_furtherExpression :
    s.LeadsBack (s.Fits true true) fun c => behind (c.take? .comma) (loosely (expr 0 true)) := by
  refine leadsBack_behind ?_
  intro c p h
  rw [Cursor.peek_of_take h]
  decide

theorem moves_furtherExpression (he : s.ExprMoves expr expr') :
    s.OptionMoves (s.Fits true true) (fun c => behind (c.take? .comma) (loosely (expr 0 true)))
      (fun c => behind (c.take? .comma) (loosely (expr' 0 true))) := by
  refine .behind (he.moves 0 id).loosely ?_ ?_
  · intro c p hs h
    exact s.takeIf_move h _
  · intro c hs fits h
    exact fits.take_none rfl h

theorem moves_commaSeparated (he : s.ExprMoves expr expr') :
    s.Moves (s.Fits true true) (commaSeparated expr) (commaSeparated expr') := by
  intro c p hs h fits
  obtain ⟨first, hfirst, h⟩ := bind_eq_ok h
  obtain ⟨more, hmore, h⟩ := bind_eq_ok h
  have shorter := Parsed.size_andMaybe hmore
  obtain rfl := Except.ok.inj h
  have inside : s.size ≤ first.rest.size := Nat.le_trans hs shorter
  have between : s.Fits true true first.rest := by
    obtain ⟨others, hothers, rfl⟩ := map_eq_ok hmore
    exact leadsBack_furtherExpression.many _ others hothers hs fits
  have start := he.moves 0 id c first inside hfirst between
  have others := ((moves_furtherExpression he).many leadsBack_furtherExpression).andMaybe hmore hs
    fits inside
  exact bind_of_ok start (bind_of_ok others rfl)

theorem moves_parenthesisedClause (he : s.ExprMoves expr expr') (start : Span)
    (patterns : List Tree) :
    s.Moves Anywhere (parenthesisedClause expr start patterns)
      (parenthesisedClause expr' start patterns) := by
  intro c p hs h _
  obtain ⟨result, hresult, h⟩ := bind_eq_ok h
  obtain ⟨last, hlast, h⟩ := bind_eq_ok h
  have shorter := Parsed.size_andThen hlast
  obtain rfl := Except.ok.inj h
  have inside : s.size ≤ result.rest.size := Nat.le_trans hs (Nat.le_of_lt shorter)
  have between : s.Fits true true result.rest := by
    obtain ⟨closer, hcloser, rfl⟩ := map_eq_ok hlast
    exact fits_of_takeLoose (takeLoose_of_loosely hcloser) hs rfl
  have first := he.moves 0 id c result inside hresult between
  have stop := (moves_expect _ _).loosely.andThen hlast hs trivial inside
  exact bind_of_ok first (bind_of_ok stop rfl)

/-- The end of an expression in parentheses that are closed before the seam. -/
structure Seam.StatementEnd (s : Seam) (d : Cursor) : Prop where
  fits : s.Fits true true d
  line : s.LineEnd d

theorem leadsBack_nextStatement : s.LeadsBack s.StatementEnd (nextStatement expr) := by
  intro c p h hs fits
  unfold nextStatement at h
  split at h
  · cases h
  · split at h
    · cases h
    · have shorter := size_loosely (eq_ok_of_map_some h)
      have whole := c.size_skipNewlines_le
      have behind := fits.line.inside
      exact ⟨fits_of_two (by omega), Nat.lt_of_le_of_lt hs shorter⟩

theorem moves_nextStatement (he : s.ExprMoves expr expr') :
    s.OptionMoves s.StatementEnd (nextStatement expr) (nextStatement expr') where
  goes c p hs h fits := by
    have start : s.LineEnd c := (leadsBack_nextStatement c p h hs fits).line
    unfold nextStatement at h ⊢
    rw [isSome_takeLoose_move start, start.skipNewlines]
    split at h
    · cases h
    · rename_i more
      split at h
      · cases h
      · rename_i apart
        rw [if_neg more]
        refine (if_neg apart).trans (map_of_ok ?_)
        exact (he.moves 0 id).loosely c p hs (eq_ok_of_map_some h) fits.fits
  stops c hs h fits := by
    unfold nextStatement at h ⊢
    rw [isSome_takeLoose_move fits.line]
    split at h
    · rename_i ends
      rw [if_pos ends]
    · split at h
      · cases h
      · obtain ⟨_, _, h⟩ := map_eq_ok h
        cases h

theorem statementEnd_of_moreStatements {p : Parsed c (List Tree)}
    (h : moreStatements expr c = .ok p) (hs : s.size ≤ p.rest.size) :
    ∃ found, many (nextStatement expr) c = .ok found ∧ s.size ≤ found.rest.size ∧
      s.StatementEnd found.rest := by
  obtain ⟨found, hfound, h⟩ := bind_eq_ok h
  obtain ⟨last, hlast, h⟩ := bind_eq_ok h
  obtain rfl := Except.ok.inj h
  obtain ⟨closer, hcloser, rfl⟩ := map_eq_ok hlast
  have line : s.LineEnd found.rest := Nat.lt_of_le_of_lt hs (size_loosely hcloser)
  have fits : s.Fits true true found.rest :=
    fits_of_takeLoose (takeLoose_of_loosely hcloser) hs rfl
  exact ⟨found, hfound, Nat.le_of_lt line.inside, fits, line⟩

theorem moves_moreStatements (he : s.ExprMoves expr expr') :
    s.Moves Anywhere (moreStatements expr) (moreStatements expr') := by
  intro c p hs h _
  obtain ⟨found', hfound', inside, fits⟩ := statementEnd_of_moreStatements h hs
  obtain ⟨found, hfound, h⟩ := bind_eq_ok h
  obtain rfl := Except.ok.inj (hfound'.symm.trans hfound)
  obtain ⟨last, hlast, h⟩ := bind_eq_ok h
  obtain rfl := Except.ok.inj h
  have start := (moves_nextStatement he).many leadsBack_nextStatement c found' inside hfound fits
  have stop := (moves_expect _ _).loosely.behindMaybe hlast hs trivial inside
  exact bind_of_ok start (bind_of_ok stop rfl)

theorem moves_parenthesised (he : s.ExprMoves expr expr') (start : Span) :
    s.Moves Anywhere (parenthesised expr start) (parenthesised expr' start) := by
  intro c p hs h _
  unfold parenthesised at h ⊢
  split at h
  · rename_i last hlast
    obtain rfl := Except.ok.inj h
    rw [s.takeLoose_move hlast hs]
    rfl
  · rename_i missing
    obtain ⟨first, hfirst, h⟩ := bind_eq_ok h
    have shorter := size_loosely hfirst
    have entries (inside : s.size ≤ first.rest.size) (fits : s.Fits true true first.rest) :=
      (moves_commaSeparated he).loosely c first inside hfirst fits
    split at h
    · rename_i arrow harrow
      have inside₂ : s.size ≤ arrow.rest.size :=
        Nat.le_trans hs (Nat.le_of_lt (Parsed.size_andThen h))
      have before : s.size < first.rest.size := Nat.lt_of_le_of_lt inside₂ arrow.size_lt
      have fits : s.Fits true true first.rest := by
        refine fits_of_stops before ?_
        rw [Cursor.peek_of_take harrow]
        rfl
      have taken : (s.moved first (Nat.le_of_lt before)).rest.take? .arrow = _ :=
        s.takeIf_move harrow inside₂
      have clause := (moves_parenthesisedClause he start first.value).andThen h hs trivial inside₂
      rw [s.takeLoose_move_none missing (Nat.lt_trans before shorter)]
      refine bind_of_ok (entries (Nat.le_of_lt before) fits) ?_
      rw [taken]
      exact clause
    · rename_i noArrow
      split at h
      · rename_i single hsingle
        obtain ⟨more, hmore, h⟩ := bind_eq_ok h
        obtain rfl := Except.ok.inj h
        have fits : s.StatementEnd first.rest := by
          obtain ⟨q, hq, rfl⟩ := map_eq_ok hmore
          obtain ⟨found, hfound, inside, last⟩ := statementEnd_of_moreStatements hq hs
          exact leadsBack_nextStatement.many _ found hfound inside last
        have inside := Nat.le_of_lt fits.line.inside
        have none : (s.moved first inside).rest.take? .arrow = none :=
          s.takeIf_move_none noArrow fits.line.inside
        have others := (moves_moreStatements he).andThen hmore hs trivial inside
        rw [s.takeLoose_move_none missing (Nat.lt_of_le_of_lt inside shorter)]
        refine bind_of_ok (entries inside fits.fits) ?_
        rw [none]
        dsimp only [moved]
        rw [hsingle]
        exact bind_of_ok others rfl
      · cases h

end CallAtlas.Grammar
