import CallAtlas.Grammar.Expression
import CallAtlas.Proofs.Grammar.Seam.Literal

/-! # Expressions before a seam

An expression that ends where one may end in the new list too moves, whatever its nesting limit is:
a larger limit reads the same, and so does a permission for a block where none stands.
-/
namespace CallAtlas.Grammar

open Seam

variable {s : Seam} {c : Cursor} {expr expr' : Expr} {blocks blocks' : Bool}

/-! ### Binary operators -/

theorem Seam.operator_move {op : Parsed c Operator} (h : c.operator? = some op)
    (hs : s.size ≤ op.rest.size) : (s.move c).operator? = some (s.moved op hs) := by
  have seen := s.peek_move (Nat.lt_of_le_of_lt hs op.size_lt)
  unfold Cursor.operator? at h ⊢
  rw [seen]
  split at h
  · rename_i found
    obtain ⟨token, htoken, rfl⟩ := Option.map_eq_some_iff.mp h
    have inside : s.size ≤ token.rest.size := hs
    rw [s.next_move htoken inside]
    rfl
  · obtain ⟨first, hfirst, h⟩ := Option.bind_eq_some_iff.mp h
    obtain ⟨second, hsecond, h⟩ := Option.bind_eq_some_iff.mp h
    obtain rfl := Option.some.inj h
    have behind : s.size ≤ second.rest.size := hs
    have inside : s.size ≤ first.rest.size := Nat.le_trans behind (Nat.le_of_lt second.size_lt)
    have word : (s.move c).take? .kwNot = _ := s.takeIf_move hfirst inside
    have word' : (s.moved first inside).rest.take? .kwIn = _ := s.takeIf_move hsecond behind
    rw [word, Option.bind_eq_bind, Option.bind_some, word']
    rfl

theorem Seam.operator_move_none (h : c.operator? = none) (two : s.size + 2 ≤ c.size) :
    (s.move c).operator? = none := by
  unfold Cursor.operator? at h ⊢
  rw [s.peek_move (by omega)]
  split at h
  · rename_i found
    rw [s.next_move_none (Option.map_eq_none_iff.mp h) (by omega)]
    rfl
  · cases hfirst : c.take? .kwNot with
    | none =>
      have none : (s.move c).take? .kwNot = none := s.takeIf_move_none hfirst (by omega)
      rw [none]
      rfl
    | some first =>
      have size := Cursor.size_next (Cursor.next_of_takeIf hfirst).1
      have inside : s.size < first.rest.size := by omega
      have missing : first.rest.take? .kwIn = none := by
        rw [hfirst, Option.bind_eq_bind, Option.bind_some] at h
        cases hsecond : first.rest.take? .kwIn with
        | none => rfl
        | some second =>
          rw [hsecond] at h
          cases h
      have word : (s.move c).take? .kwNot = _ := s.takeIf_move hfirst (Nat.le_of_lt inside)
      have word' : (s.moved first (Nat.le_of_lt inside)).rest.take? .kwIn = none :=
        s.takeIf_move_none missing inside
      rw [word, Option.bind_eq_bind, Option.bind_some, word']
      rfl

/-- An operator is one token or two. -/
theorem Cursor.size_operator {op : Parsed c Operator} (h : c.operator? = some op) :
    c.size ≤ op.rest.size + 2 := by
  unfold Cursor.operator? at h
  split at h
  · obtain ⟨token, htoken, rfl⟩ := Option.map_eq_some_iff.mp h
    have size := Cursor.size_next htoken
    change c.size ≤ token.rest.size + 2
    omega
  · obtain ⟨first, hfirst, h⟩ := Option.bind_eq_some_iff.mp h
    obtain ⟨second, hsecond, h⟩ := Option.bind_eq_some_iff.mp h
    obtain rfl := Option.some.inj h
    have size₁ := Cursor.size_next (Cursor.next_of_takeIf hfirst).1
    have size₂ := Cursor.size_next (Cursor.next_of_takeIf hsecond).1
    change c.size ≤ second.rest.size + 2
    omega

/-- An operator is a word or a symbol, and a block is none. -/
theorem Cursor.peek_of_operator {op : Parsed c Operator} (h : c.operator? = some op) :
    c.peek.kind ≠ .kwDo := by
  intro block
  have stops : stopsAt false c.peek.kind := by
    rw [block]
    rfl
  have none : c.operator? = none := operator_of_stops stops
  rw [none] at h
  cases h

theorem moves_rightOperand (he : s.ExprMoves expr expr') (hb : blocks = true → blocks' = true)
    (op : Operator) :
    s.Moves (s.Fits blocks blocks') (rightOperand expr blocks op)
      (rightOperand expr' blocks' op) := by
  intro c p hs h fits
  unfold rightOperand at h ⊢
  rw [s.sees_move (Nat.lt_of_le_of_lt hs p.size_lt)]
  split at h
  · rename_i pairs
    rw [if_pos pairs]
    exact moves_keywordList he hb c p hs h fits
  · rename_i pairs
    rw [if_neg pairs]
    exact he.moves _ hb c p hs h fits

theorem leadsBack_application (level : Nat) (left : Tree) :
    s.LeadsBack (s.Fits blocks blocks') (application? expr level blocks left) := by
  refine leadsBack_of_two ?_
  intro c p h
  unfold application? at h
  split at h
  · cases h
  · rename_i op hop
    split at h
    · cases h
    · obtain ⟨right, hright, h⟩ := bind_eq_ok h
      have size₁ := op.size_lt
      have size₂ := Parsed.size_andThen hright
      obtain rfl := Option.some.inj (Except.ok.inj h)
      refine ⟨?_, Cursor.peek_of_operator hop⟩
      change right.rest.size + 2 ≤ c.size
      omega

theorem moves_application (he : s.ExprMoves expr expr') (hb : blocks = true → blocks' = true)
    (level : Nat) (left : Tree) :
    s.OptionMoves (s.Fits blocks blocks') (application? expr level blocks left)
      (application? expr' level blocks' left) where
  goes c p hs h fits := by
    unfold application? at h ⊢
    split at h
    · cases h
    · rename_i op hop
      split at h
      · cases h
      · rename_i tight
        obtain ⟨right, hright, h⟩ := bind_eq_ok h
        have shorter := Parsed.size_andThen hright
        obtain rfl := Option.some.inj (Except.ok.inj h)
        have inside : s.size ≤ op.rest.size := Nat.le_trans hs (Nat.le_of_lt shorter)
        have operand := (moves_rightOperand he hb op.value).andThen hright hs fits inside
        rw [s.operator_move hop inside]
        exact (if_neg tight).trans (bind_of_ok operand rfl)
  stops c hs h fits := by
    unfold application? at h ⊢
    rcases fits with ⟨stops, -⟩ | ⟨two, -⟩
    · rw [operator_of_stops stops]
    · split at h
      · rename_i none
        rw [s.operator_move_none none two]
      · rename_i op hop
        split at h
        · rename_i loose
          have size := Cursor.size_operator hop
          have inside : s.size ≤ op.rest.size := by omega
          rw [s.operator_move hop inside]
          exact if_pos loose
        · obtain ⟨_, _, h⟩ := bind_eq_ok h
          cases h

theorem moves_climb (he : s.ExprMoves expr expr') (hb : blocks = true → blocks' = true)
    (level : Nat) (left : Tree) :
    s.MaybeMoves (s.Fits blocks blocks') (climb expr level blocks left)
      (climb expr' level blocks' left) :=
  OptionMoves.iterate (moves_application he hb level) (leadsBack_application level) left

/-! ### Suffixes -/

theorem moves_anonCall (he : s.ExprMoves expr expr') (function : Tree) :
    s.Moves Anywhere (anonCall expr function) (anonCall expr' function) := by
  intro c p hs h _
  obtain ⟨arguments, harguments, h⟩ := bind_eq_ok h
  obtain rfl := Except.ok.inj h
  exact bind_of_ok (moves_items he rfl true c arguments hs harguments trivial) rfl

theorem moves_access (he : s.ExprMoves expr expr') (left : Tree) :
    s.Moves Anywhere (access expr left) (access expr' left) := by
  intro c p hs h _
  obtain ⟨key, hkey, h⟩ := bind_eq_ok h
  obtain ⟨last, hlast, h⟩ := bind_eq_ok h
  have shorter := Parsed.size_andThen hlast
  obtain rfl := Except.ok.inj h
  have inside : s.size ≤ key.rest.size := Nat.le_trans hs (Nat.le_of_lt shorter)
  have between : s.Fits true true key.rest := by
    obtain ⟨closer, hcloser, rfl⟩ := map_eq_ok hlast
    exact fits_of_takeLoose (takeLoose_of_loosely hcloser) hs rfl
  have first := (he.moves 0 id).loosely c key inside hkey between
  have stop := (moves_expect _ _).loosely.andThen hlast hs trivial inside
  exact bind_of_ok first (bind_of_ok stop rfl)

theorem moves_member (he : s.ExprMoves expr expr') (hb : blocks = true → blocks' = true)
    (left : Tree) (name : Token) :
    s.MaybeMoves (s.Fits blocks blocks') (member expr blocks left name)
      (member expr' blocks' left name) := by
  intro c p hs h fits
  obtain ⟨arguments, harguments, h⟩ := bind_eq_ok h
  dsimp only at h
  split at h
  · rename_i field
    obtain rfl := Except.ok.inj h
    refine bind_of_ok (moves_arguments he c arguments hs harguments fits.withoutBlocks) ?_
    exact if_pos field
  · rename_i called
    have shorter := MaybeParsed.size_andMaybe h
    have inside : s.size ≤ arguments.rest.size := Nat.le_trans hs shorter
    have between : s.Fits blocks blocks' arguments.rest := by
      obtain ⟨call, hcall, rfl⟩ := map_eq_ok h
      exact fits_of_attach hcall hs fits
    have found := moves_arguments he c arguments inside harguments between.withoutBlocks
    have call := (moves_attach he hb _).behindMaybe h hs fits inside
    exact bind_of_ok found ((if_neg called).trans call)

/-- The first token of what is read up to a place before the seam is before it. -/
theorem inside_of_next {α : Type} {token : Parsed c Token} (h : c.next? = some token)
    {p : Parsed c α} (hs : s.size ≤ p.rest.size) : s.size ≤ token.rest.size := by
  have size := Cursor.size_next h
  have shorter := p.size_lt
  omega

theorem moves_dotted (he : s.ExprMoves expr expr') (hb : blocks = true → blocks' = true)
    (left : Tree) :
    s.Moves (s.Fits blocks blocks') (dotted expr blocks left) (dotted expr' blocks' left) := by
  intro c p hs h fits
  unfold dotted at h ⊢
  split at h
  · cases h
  · rename_i token htoken
    have inside := inside_of_next htoken hs
    rw [s.next_move htoken inside]
    dsimp only [moved]
    split at h
    · obtain rfl := Except.ok.inj h
      rfl
    · obtain ⟨entries, hentries, h⟩ := bind_eq_ok h
      obtain rfl := Except.ok.inj h
      exact bind_of_ok ((moves_items he rfl false).andThen hentries hs trivial inside) rfl
    · exact (moves_anonCall he left).andThen h hs trivial inside
    · split at h
      · rename_i named
        rw [if_pos named]
        exact (moves_member he hb left token.value).andMaybe h hs fits inside
      · cases h

theorem two_of_suffix {left : Tree} {p : Parsed c Tree}
    (h : suffix? expr blocks left c = .ok (some p)) :
    p.rest.size + 2 ≤ c.size ∧ c.peek.kind ≠ .kwDo := by
  refine ⟨?_, ?_⟩
  · unfold suffix? at h
    split at h
    · cases h
    · rename_i token htoken
      have first := token.size_lt
      have goesOn {read : Reader Tree} (h : (token.andThen read).map some = .ok (some p)) :
          p.rest.size + 2 ≤ c.size := by
        have second := Parsed.size_andThen (eq_ok_of_map_some h)
        omega
      split at h
      · exact goesOn h
      · split at h
        · cases h
        · exact goesOn h
      · split at h
        · cases h
        · exact goesOn h
      · cases h
  · intro block
    rw [suffix_of_stops (by rw [block]; rfl : stopsAt false c.peek.kind)] at h
    cases h

theorem leadsBack_suffix (left : Tree) :
    s.LeadsBack (s.Fits blocks blocks') (suffix? expr blocks left) :=
  leadsBack_of_two fun _ _ => two_of_suffix

theorem moves_suffix (he : s.ExprMoves expr expr') (hb : blocks = true → blocks' = true)
    (left : Tree) :
    s.OptionMoves (s.Fits blocks blocks') (suffix? expr blocks left)
      (suffix? expr' blocks' left) where
  goes c p hs h fits := by
    unfold suffix? at h ⊢
    split at h
    · cases h
    · rename_i token htoken
      have inside := inside_of_next htoken hs
      rw [s.next_move htoken inside]
      dsimp only [moved]
      split at h
      · exact map_of_ok ((moves_dotted he hb left).andThen (eq_ok_of_map_some h) hs fits inside)
      · split at h
        · cases h
        · rename_i touches
          refine (if_neg touches).trans (map_of_ok ?_)
          exact (moves_access he left).andThen (eq_ok_of_map_some h) hs trivial inside
      · split at h
        · cases h
        · rename_i touches
          refine (if_neg touches).trans (map_of_ok ?_)
          exact (moves_anonCall he left).andThen (eq_ok_of_map_some h) hs trivial inside
      · cases h
  stops c hs h fits := by
    rcases fits with ⟨stops, -⟩ | ⟨two, -⟩
    · exact suffix_of_stops stops expr' blocks' left
    · unfold suffix? at h ⊢
      split at h
      · rename_i none
        rw [s.next_move_none none (by omega)]
      · rename_i token htoken
        have size := Cursor.size_next htoken
        have inside : s.size ≤ token.rest.size := by omega
        rw [s.next_move htoken inside]
        dsimp only [moved]
        split at h
        · obtain ⟨_, _, h⟩ := map_eq_ok h
          cases h
        · split at h
          · rename_i apart
            exact if_pos apart
          · obtain ⟨_, _, h⟩ := map_eq_ok h
            cases h
        · split at h
          · rename_i apart
            exact if_pos apart
          · obtain ⟨_, _, h⟩ := map_eq_ok h
            cases h
        · rfl

theorem moves_suffixes (he : s.ExprMoves expr expr') (hb : blocks = true → blocks' = true)
    (left : Tree) :
    s.MaybeMoves (s.Fits blocks blocks') (suffixes expr blocks left)
      (suffixes expr' blocks' left) :=
  OptionMoves.iterate (moves_suffix he hb) leadsBack_suffix left

/-! ### Operands -/

/-- A `do` that is seen behind a name is before the seam. -/
theorem before_of_attach {call : Tree} {p : MaybeParsed c Tree}
    (h : attach expr blocks call c = .ok p) (hs : s.size ≤ p.rest.size)
    (fits : s.Fits blocks blocks' p.rest) (permit : blocks = true) (sees : c.sees .kwDo) :
    s.Before c := by
  unfold attach at h
  split at h
  · obtain ⟨body, -, h⟩ := bind_eq_ok h
    obtain rfl := Except.ok.inj h
    exact Nat.lt_of_le_of_lt hs body.size_lt
  · rename_i missing
    obtain rfl := Except.ok.inj h
    have fits : s.Fits blocks blocks' c := fits
    rcases fits with ⟨-, known⟩ | ⟨two, -⟩
    · cases hrest : c.rest with
      | nil => exact absurd hrest (known permit sees)
      | cons t ts =>
        have kind : t.kind = .kwDo := by
          simpa [Cursor.sees, Cursor.peek, hrest] using sees
        have found := Cursor.next_eq_some (d := ⟨ts, c.last, t⟩) hrest rfl rfl (by simp [kind])
          (by simp [Cursor.size, hrest])
        have taken : c.take? .kwDo = _ := (if_pos sees).trans found
        rw [if_pos permit, taken] at missing
        cases missing
    · unfold Seam.Before
      omega

theorem moves_identifier (he : s.ExprMoves expr expr') (hb : blocks = true → blocks' = true)
    (name : Token) :
    s.MaybeMoves (s.Fits blocks blocks') (identifier expr blocks name)
      (identifier expr' blocks' name) := by
  intro c p hs h fits
  obtain ⟨arguments, harguments, h⟩ := bind_eq_ok h
  dsimp only at h
  split at h
  · rename_i alone
    obtain rfl := Except.ok.inj h
    have fits : s.Fits blocks blocks' arguments.rest := fits
    have inside : s.size ≤ arguments.rest.size := hs
    have found := moves_arguments he c arguments inside harguments fits.withoutBlocks
    obtain ⟨none, unseen⟩ := Bool.and_eq_true_iff.mp alone
    have unseen' := fits.sees_block (Bool.not_eq_true' _ |>.mp unseen)
    refine bind_of_ok found (if_pos ?_)
    change (arguments.value.isNone && !(blocks' && (s.move arguments.rest).sees .kwDo)) = true
    rw [none, unseen']
    rfl
  · rename_i called
    have shorter := MaybeParsed.size_andMaybe h
    have inside : s.size ≤ arguments.rest.size := Nat.le_trans hs shorter
    obtain ⟨call, hcall, hrest⟩ := map_eq_ok h
    subst hrest
    have between : s.Fits blocks blocks' arguments.rest := fits_of_attach hcall hs fits
    have found := moves_arguments he c arguments inside harguments between.withoutBlocks
    have attached := (moves_attach he hb _).behindMaybe h hs fits inside
    have called' : ¬ (arguments.value.isNone &&
        !(blocks' && (s.move arguments.rest).sees .kwDo)) = true := by
      intro alone
      obtain ⟨none, unseen⟩ := Bool.and_eq_true_iff.mp alone
      rw [none, Bool.true_and, Bool.not_eq_true', Bool.not_eq_false, Bool.and_eq_true_iff] at called
      have before := before_of_attach hcall hs fits called.1 called.2
      rw [hb called.1, s.sees_move before, called.2] at unseen
      cases unseen
    exact bind_of_ok found ((if_neg called').trans attached)

theorem moves_primary (he : s.ExprMoves expr expr') (hb : blocks = true → blocks' = true) :
    s.Moves (s.Fits blocks blocks') (primary expr blocks) (primary expr' blocks') := by
  intro c p hs h fits
  unfold primary at h ⊢
  split at h
  · cases h
  · rename_i first hfirst
    have inside := inside_of_next hfirst hs
    rw [s.next_move hfirst inside]
    revert h
    dsimp only [moved]
    cases first.value.kind with
    | identifier => exact fun h => (moves_identifier he hb _).andMaybe h hs fits inside
    | interpStart => exact fun h => (moves_interpolated he _).andThen h hs trivial inside
    | lparen => exact fun h => (moves_parenthesised he _).andThen h hs trivial inside
    | lbracket | lbrace | binOpen =>
      exact fun h => (moves_container he _ rfl _).andThen h hs trivial inside
    | percent => exact fun h => (moves_mapOrStruct he _).andThen h hs trivial inside
    | kwFn => exact fun h => (moves_fn he _).andThen h hs trivial inside
    | keywordKey => exact fun h => moves_keywordList he hb c p hs h fits
    | «alias» | moduleSelf | atom | kwTrue | kwFalse | kwNil | integer | char | float | string
    | charlist | sigil =>
      intro h
      obtain rfl := Except.ok.inj h
      rfl
    | _ =>
      intro h
      cases h

/-- What a literal or a name starts with. -/
theorem startsOperand_of_primary {p : Parsed c Tree} (h : primary expr blocks c = .ok p) :
    startsOperand c.peek.kind := by
  unfold primary at h
  split at h
  · cases h
  · rename_i first hfirst
    rw [Cursor.peek_of_next hfirst]
    revert h
    dsimp only
    cases first.value.kind with
    | identifier | «alias» | moduleSelf | atom | kwTrue | kwFalse | kwNil | integer | char | float
    | string | charlist | sigil | interpStart | lparen | lbracket | lbrace | binOpen | percent
    | kwFn | keywordKey => exact fun _ => rfl
    | _ =>
      intro h
      cases h

theorem moves_moduleAttribute (he : s.ExprMoves expr expr')
    (hb : blocks = true → blocks' = true) (start : Span) :
    s.Moves (s.Fits blocks blocks') (moduleAttribute expr blocks start)
      (moduleAttribute expr' blocks' start) := by
  intro c p hs h fits
  obtain ⟨name, hname, h⟩ := bind_eq_ok h
  dsimp only at h
  split at h
  · rename_i starts
    obtain ⟨value, hvalue, h⟩ := bind_eq_ok h
    have shorter := Parsed.size_andThen hvalue
    have known : name.rest.Begins value.rest.size := by
      obtain ⟨t, ht, rfl⟩ := map_eq_ok hvalue
      exact he.begins 0 blocks _ t ht
    obtain rfl := Except.ok.inj h
    have behind : s.size ≤ value.rest.size := hs
    have before : s.size < name.rest.size := Nat.lt_of_le_of_lt behind shorter
    have named := moves_expect _ _ c name (Nat.le_of_lt before) hname trivial
    have starts' : startsArgument (s.move name.rest) = true := by
      rwa [startsArgument_move before (known.mono behind)]
    have inner := (he.moves 0 hb).andThen hvalue behind fits (Nat.le_of_lt before)
    exact bind_of_ok named ((if_pos starts').trans (bind_of_ok inner rfl))
  · rename_i starts
    have shorter := Parsed.size_andMaybe h
    have inside : s.size ≤ name.rest.size := Nat.le_trans hs shorter
    have between : s.Fits blocks blocks' name.rest := by
      obtain ⟨t, ht, rfl⟩ := map_eq_ok h
      exact LeadsBack.iterate leadsBack_suffix _ _ t ht hs fits
    have named := moves_expect _ _ c name inside hname trivial
    have starts' : ¬ startsArgument (s.move name.rest) = true := by
      rw [startsArgument_move_of_fits between (Bool.eq_false_iff.mpr starts)]
      exact Bool.false_ne_true
    have inner := (moves_suffixes he hb _).andMaybe h hs fits inside
    exact bind_of_ok named ((if_neg starts').trans inner)

theorem moves_operatorCapture (start : Span) (op : Token) :
    s.Moves Anywhere (operatorCapture start op) (operatorCapture start op) := by
  intro c p hs h _
  obtain ⟨slash, hslash, h⟩ := bind_eq_ok h
  obtain ⟨arity, harity, h⟩ := bind_eq_ok h
  have shorter := Parsed.size_andThen harity
  obtain rfl := Except.ok.inj h
  have inside : s.size ≤ slash.rest.size := Nat.le_trans hs (Nat.le_of_lt shorter)
  have first := moves_expect _ _ c slash inside hslash trivial
  have second := (moves_expect _ _).andThen harity hs trivial inside
  exact bind_of_ok first (bind_of_ok second rfl)

theorem namesFunction_of_startsOperand {t : Token} (h : startsOperand t.kind ∨ t.isOp "...") :
    namesFunction t = false := by
  unfold namesFunction
  rcases h with operand | dots
  · have other : (t.kind == .operator) = false := by
      cases kind : t.kind <;> simp_all [startsOperand]
    rw [other, Bool.false_and]
  · obtain ⟨kind, lexeme⟩ := Bool.and_eq_true_iff.mp dots
    rw [beq_iff_eq] at kind lexeme
    have noBang : t.isOp "!" = false := by
      rw [Token.isOp, lexeme]
      exact Bool.and_eq_false_iff.mpr (.inr (by decide))
    have noOperator : Operator.ofToken? t = none := by
      unfold Operator.ofToken?
      rw [kind]
      dsimp only
      rw [lexeme]
      decide
    simp [noBang, noOperator]

theorem moves_capture (he : s.ExprMoves expr expr') (hb : blocks = true → blocks' = true)
    (start : Span) :
    s.Moves (s.Fits blocks blocks') (capture expr blocks start)
      (capture expr' blocks' start) := by
  intro c p hs h fits
  have before := Nat.lt_of_le_of_lt hs p.size_lt
  unfold capture at h ⊢
  dsimp only at h ⊢
  split at h
  · rename_i number hnumber
    have inside : s.size ≤ number.rest.size := Nat.le_trans hs (Parsed.size_andMaybe h)
    rw [touching_move hnumber inside]
    exact (moves_suffixes he hb _).andMaybe h hs fits inside
  · rename_i noNumber
    rw [touching_move_none noNumber before]
    dsimp only
    split at h
    · rename_i op hop
      have inside : s.size ≤ op.rest.size := Nat.le_trans hs (Nat.le_of_lt (Parsed.size_andThen h))
      have behind : s.size < op.rest.size := Nat.lt_of_le_of_lt hs (Parsed.size_andThen h)
      have size := op.size_lt
      have taken : (if namesFunction (s.move c).peek && ((s.move c).peekAt 1).isOp "/" then
          (s.move c).next? else none) = some (s.moved op inside) := by
        rw [s.peek_move before, s.peekAt_move (by omega)]
        split at hop
        · rename_i names
          rw [if_pos names]
          exact s.next_move hop inside
        · cases hop
      rw [taken]
      exact (moves_operatorCapture start op.value).andThen h hs trivial inside
    · rename_i noName
      obtain ⟨value, hvalue, rfl⟩ := map_eq_ok h
      have inside : s.size ≤ value.rest.size := hs
      have none : (if namesFunction (s.move c).peek && ((s.move c).peekAt 1).isOp "/" then
          (s.move c).next? else none) = none := by
        rw [s.peek_move before]
        rcases or_assoc.mpr (he.begins _ blocks c value hvalue) with one | two
        · rw [namesFunction_of_startsOperand one]
          rfl
        · rw [s.peekAt_move (by omega)]
          split at noName
          · rename_i names
            rw [if_pos names]
            exact s.next_move_none noName before
          · rename_i names
            rw [if_neg names]
      rw [none]
      exact map_of_ok (he.moves _ hb c value inside hvalue fits)

theorem exists_next_of_operand {p : Parsed c Tree} (h : operand expr blocks c = .ok p) :
    ∃ first, c.next? = some first := by
  unfold operand at h
  split at h
  · cases h
  · exact ⟨_, ‹_›⟩

/-- Two operands that start with the same token are read by the same rule. -/
theorem operand_by_rule {c' : Cursor} {first : Parsed c Token} {first' : Parsed c' Token}
    (hfirst : c.next? = some first) (hfirst' : c'.next? = some first')
    (same : first'.value = first.value) {p : Parsed c Tree} (h : operand expr blocks c = .ok p)
    {Q : Attempt (Parsed c' Tree) → Prop}
    (attributed : first.andThen (moduleAttribute expr blocks first.value.span) = .ok p →
      Q (first'.andThen (moduleAttribute expr' blocks' first.value.span)))
    (captured : first.andThen (capture expr blocks first.value.span) = .ok p →
      Q (first'.andThen (capture expr' blocks' first.value.span)))
    (dots : p = first.map (fun t => leaf .var t t.lexeme) →
      Q (.ok (first'.map fun t => leaf .var t t.lexeme)))
    (applied : ∀ name value, first.andThen (expr Operator.unaryLevel blocks) = .ok value →
      p = value.map (unary first.value.span name) →
      Q (first'.andThen (expr' Operator.unaryLevel blocks') >>= fun value =>
        .ok (value.map (unary first.value.span name))))
    (suffixed : ∀ left, primary expr blocks c = .ok left →
      left.andMaybe (suffixes expr blocks left.value) = .ok p →
      Q (primary expr' blocks' c' >>= fun left =>
        left.andMaybe (suffixes expr' blocks' left.value))) :
    Q (operand expr' blocks' c') := by
  unfold operand at h ⊢
  rw [hfirst] at h
  rw [hfirst']
  dsimp only at h ⊢
  rw [same]
  split at h
  · rename_i sign
    rw [if_pos sign]
    exact attributed h
  · rename_i noAt
    rw [if_neg noAt]
    split at h
    · rename_i ampersand
      rw [if_pos ampersand]
      exact captured h
    · rename_i noAmpersand
      rw [if_neg noAmpersand]
      split at h
      · rename_i sign
        rw [if_pos sign]
        exact dots (Except.ok.inj h).symm
      · rename_i noDots
        rw [if_neg noDots]
        split at h
        · obtain ⟨value, hvalue, h⟩ := bind_eq_ok h
          exact applied _ value hvalue (Except.ok.inj h).symm
        · obtain ⟨left, hleft, h⟩ := bind_eq_ok h
          exact suffixed left hleft h

theorem moves_operand (he : s.ExprMoves expr expr') (hb : blocks = true → blocks' = true) :
    s.Moves (s.Fits blocks blocks') (operand expr blocks) (operand expr' blocks') := by
  intro c p hs h fits
  obtain ⟨first, hfirst⟩ := exists_next_of_operand h
  have inside := inside_of_next hfirst hs
  refine operand_by_rule hfirst (s.next_move hfirst inside) rfl h (Q := fun found => found = _)
    ?_ ?_ ?_ ?_ ?_
  · intro h
    exact (moves_moduleAttribute he hb _).andThen h hs fits inside
  · intro h
    exact (moves_capture he hb _).andThen h hs fits inside
  · rintro rfl
    rfl
  · rintro name value hvalue rfl
    exact bind_of_ok ((he.moves _ hb).andThen hvalue hs fits inside) rfl
  · intro left hleft h
    have inside : s.size ≤ left.rest.size := Nat.le_trans hs (Parsed.size_andMaybe h)
    have between : s.Fits blocks blocks' left.rest := by
      obtain ⟨t, ht, rfl⟩ := map_eq_ok h
      exact LeadsBack.iterate leadsBack_suffix _ _ t ht hs fits
    have start := moves_primary he hb c left inside hleft between
    exact bind_of_ok start ((moves_suffixes he hb _).andMaybe h hs fits inside)

/-- An operand of a single token starts with a token that can only start an operand. -/
theorem begins_operand {p : Parsed c Tree} (h : operand expr blocks c = .ok p) :
    c.Begins p.rest.size := by
  unfold operand at h
  split at h
  · cases h
  · rename_i first hfirst
    have size := first.size_lt
    dsimp only at h
    have two {q : Parsed c Tree} (shorter : q.rest.size < first.rest.size) :
        c.Begins q.rest.size := .inr (.inr (by omega))
    split at h
    · exact two (Parsed.size_andThen h)
    · split at h
      · exact two (Parsed.size_andThen h)
      · split at h
        · rename_i dots
          rw [← Cursor.peek_of_next hfirst] at dots
          exact .inr (.inl dots)
        · split at h
          · obtain ⟨value, hvalue, h⟩ := bind_eq_ok h
            have shorter := Parsed.size_andThen hvalue
            obtain rfl := Except.ok.inj h
            exact two shorter
          · obtain ⟨left, hleft, h⟩ := bind_eq_ok h
            exact .inl (startsOperand_of_primary hleft)

/-- An operand starts with a token that stops none. -/
theorem stops_of_operand {p : Parsed c Tree} (h : operand expr blocks c = .ok p) :
    stopsAt false c.peek.kind = false := by
  unfold operand at h
  split at h
  · cases h
  · rename_i first hfirst
    rw [Cursor.peek_of_next hfirst]
    dsimp only at h
    have ofOperator {op : String} (h : first.value.isOp op) :
        stopsAt false first.value.kind = false := by
      rw [beq_iff_eq.mp (Bool.and_eq_true_iff.mp h).1]
      rfl
    split at h
    · rename_i sign
      rw [sign]
      rfl
    · split at h
      · exact ofOperator ‹_›
      · split at h
        · exact ofOperator ‹_›
        · split at h
          · rename_i name hname
            unfold unaryName? at hname
            split at hname
            · rename_i not
              rw [not]
              rfl
            · split at hname
              · rename_i sign
                obtain ⟨op, -, hop⟩ := List.any_eq_true.mp sign
                exact ofOperator hop
              · cases hname
          · obtain ⟨left, hleft, h⟩ := bind_eq_ok h
            have starts := startsOperand_of_primary hleft
            rw [Cursor.peek_of_next hfirst] at starts
            cases hk : first.value.kind <;> simp_all [startsOperand, stopsAt]

/-! ### Expressions -/

theorem moves_expression (he : s.ExprMoves expr expr') :
    s.ExprMoves (expression expr) (expression expr') where
  moves level blocks blocks' hb := by
    intro c p hs h fits
    obtain ⟨left, hleft, h⟩ := bind_eq_ok h
    have inside : s.size ≤ left.rest.size := Nat.le_trans hs (Parsed.size_andMaybe h)
    have between : s.Fits blocks blocks' left.rest := by
      obtain ⟨t, ht, rfl⟩ := map_eq_ok h
      exact LeadsBack.iterate (leadsBack_application level) _ _ t ht hs fits
    have start := moves_operand he hb c left inside hleft between
    exact bind_of_ok start ((moves_climb he hb level _).andMaybe h hs fits inside)
  begins level blocks c p h := by
    obtain ⟨left, hleft, h⟩ := bind_eq_ok h
    exact (begins_operand hleft).mono (Parsed.size_andMaybe h)

/-- Expressions are read the same before a seam, and with a larger nesting limit. -/
theorem moves_expressionAt {depth depth' : Nat} (h : depth ≤ depth') :
    s.ExprMoves (expressionAt depth) (expressionAt depth') := by
  induction depth generalizing depth' with
  | zero => exact ⟨fun _ _ _ _ _ _ _ h => (by cases h), fun _ _ _ _ h => (by cases h)⟩
  | succ depth ih =>
    obtain ⟨depth', rfl⟩ := Nat.exists_eq_add_of_lt h
    rw [show depth + depth' + 1 = (depth + depth') + 1 from rfl, expressionAt]
    exact moves_expression (ih (Nat.le_add_right _ _))

/-- An expression starts with a token that stops none. -/
theorem stops_of_expressionAt {depth level : Nat} {p : Parsed c Tree}
    (h : expressionAt depth level blocks c = .ok p) : stopsAt false c.peek.kind = false := by
  cases depth with
  | zero => cases h
  | succ depth =>
    obtain ⟨left, hleft, -⟩ := bind_eq_ok h
    exact stops_of_operand hleft

end CallAtlas.Grammar
