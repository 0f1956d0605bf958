import CallAtlas.Proofs.Grammar.Seam

/-! # Arguments before a seam

Every rule moves from the old list to the new one if the expressions inside it do. Rules that end
with a token of their own move whatever is put behind it; the others end where an expression may
end. These are the rules for arguments and entries between delimiters.
-/
namespace CallAtlas.Grammar

open Seam

/-! ### Tokens behind line breaks -/

section Loose

variable {c : Cursor} {α : Type}

theorem Cursor.size_next {p : Parsed c Token} (h : c.next? = some p) :
    p.rest.size + 1 = c.size := by
  rw [Cursor.size, Cursor.size, (Cursor.of_next h).1, List.length_cons]

theorem Cursor.next_of_takeIf {q : Kind → Bool} {p : Parsed c Token} (h : c.takeIf? q = some p) :
    c.next? = some p ∧ q c.peek.kind := by
  unfold Cursor.takeIf? at h
  split at h
  · rename_i hq
    exact ⟨h, hq⟩
  · cases h

theorem Cursor.peek_of_take {kind : Kind} {p : Parsed c Token} (h : c.take? kind = some p) :
    c.peek.kind = kind :=
  beq_iff_eq.mp (Cursor.next_of_takeIf h).2

theorem Cursor.skipNewlines_eq_self (h : c.peek.kind ≠ .newline) : c.skipNewlines = c := by
  have none : c.take? .newline = none := by
    rw [Cursor.take?, Cursor.takeIf?, if_neg (by simpa using h)]
  rw [Cursor.skipNewlines, none]

theorem Cursor.size_takeLoose {kind : Kind} {p : Parsed c Token} (h : c.takeLoose? kind = some p) :
    p.rest.size + 1 = c.skipNewlines.size := by
  obtain ⟨q, hq, rfl⟩ := Option.map_eq_some_iff.mp h
  exact Cursor.size_next (Cursor.next_of_takeIf hq).1

theorem Cursor.peek_of_takeLoose {kind : Kind} {p : Parsed c Token}
    (h : c.takeLoose? kind = some p) : c.peek.kind = .newline ∨ c.peek.kind = kind := by
  obtain ⟨q, hq, rfl⟩ := Option.map_eq_some_iff.mp h
  have seen := Cursor.peek_of_take hq
  by_cases hk : c.peek.kind = .newline
  · exact .inl hk
  · rw [Cursor.skipNewlines_eq_self hk] at seen
    exact .inr seen

theorem size_loosely {read : Reader α} {p : Parsed c α} (h : loosely read c = .ok p) :
    p.rest.size < c.skipNewlines.size :=
  MaybeParsed.size_andThen h

theorem take_of_expect {kind : Kind} {needed : Expectation} {p : Parsed c Token}
    (h : Cursor.expect kind needed c = .ok p) : c.take? kind = some p := by
  unfold Cursor.expect at h
  split at h
  · rename_i q hq
    obtain rfl := Except.ok.inj h
    exact hq
  · cases h

theorem takeLoose_of_loosely {kind : Kind} {needed : Expectation} {p : Parsed c Token}
    (h : loosely (Cursor.expect kind needed) c = .ok p) : c.takeLoose? kind = some p := by
  obtain ⟨q, hq, rfl⟩ := map_eq_ok h
  exact Option.map_eq_some_iff.mpr ⟨q, take_of_expect hq, rfl⟩

/-- What is read behind a token takes two tokens or more. -/
theorem two_of_behind {opening : Option (Parsed c Token)} {read : Reader α} {p : Parsed c α}
    (h : behind opening read = .ok (some p)) :
    ∃ first, opening = some first ∧ p.rest.size + 2 ≤ c.size := by
  obtain ⟨first, hfirst, hp⟩ := of_behind h
  have second := Parsed.size_andThen hp
  have := first.size_lt
  exact ⟨first, hfirst, by omega⟩

end Loose

/-- Whether two tokens or more stand before the last `n` ones, or the next token can only start an
operand. -/
def Cursor.Begins (c : Cursor) (n : Nat) : Prop :=
  startsOperand c.peek.kind ∨ c.peek.isOp "..." ∨ n + 2 ≤ c.size

theorem Cursor.Begins.mono {c : Cursor} {m n : Nat} (h : c.Begins n) (le : m ≤ n) : c.Begins m :=
  h.imp_right (.imp_right (Nat.le_trans (Nat.add_le_add_right le 2)))

/-- Expressions are read from the new list as from the old one. An expression of a single token
starts with a token that can only start an operand. -/
structure Seam.ExprMoves (s : Seam) (expr expr' : Expr) : Prop where
  moves : ∀ level {blocks blocks' : Bool}, (blocks = true → blocks' = true) →
    s.Moves (s.Fits blocks blocks') (expr level blocks) (expr' level blocks')
  begins : ∀ level blocks c p, expr level blocks c = .ok p → c.Begins p.rest.size

section Parts

variable {s : Seam} {c : Cursor} {α : Type} {expr expr' : Expr} {blocks blocks' : Bool}

/-- Nothing goes on at the line breaks before a token at which nothing does. -/
theorem fits_of_takeLoose {kind : Kind} {p : Parsed c Token} (h : c.takeLoose? kind = some p)
    (hs : s.size ≤ p.rest.size) (hk : stopsAt blocks' kind) : s.Fits blocks blocks' c := by
  refine fits_of_stops (Nat.lt_of_le_of_lt hs p.size_lt) ?_
  rcases Cursor.peek_of_takeLoose h with seen | seen
  · rw [seen]
    rfl
  · rwa [seen]

theorem isSome_takeLoose_move {kind : Kind} (hs : s.size < c.skipNewlines.size) :
    ((s.move c).takeLoose? kind).isSome = (c.takeLoose? kind).isSome := by
  cases h : c.takeLoose? kind with
  | none =>
    rw [s.takeLoose_move_none h hs]
    rfl
  | some p =>
    have size := Cursor.size_takeLoose h
    have inside : s.size ≤ p.rest.size := by omega
    rw [s.takeLoose_move h inside]
    rfl

/-- Rounds behind a token other than `do` start where an expression may end. -/
theorem leadsBack_behind {opening : (c : Cursor) → Option (Parsed c Token)} {read : Reader α}
    (other : ∀ c p, opening c = some p → c.peek.kind ≠ .kwDo) :
    s.LeadsBack (s.Fits blocks blocks') (fun c => behind (opening c) read) := by
  refine leadsBack_of_two ?_
  intro c p h
  obtain ⟨first, hfirst, two⟩ := two_of_behind h
  exact ⟨two, other c first hfirst⟩

section Arguments

variable (he : s.ExprMoves expr expr') (hb : blocks = true → blocks' = true)

/-! ### Pairs -/

include he hb in
theorem moves_keywordPair :
    s.Moves (s.Fits blocks blocks') (keywordPair expr blocks) (keywordPair expr' blocks') := by
  intro c p hs h fits
  obtain ⟨key, hkey, h⟩ := bind_eq_ok h
  obtain ⟨value, hvalue, h⟩ := bind_eq_ok h
  have shorter := Parsed.size_andThen hvalue
  obtain rfl := Except.ok.inj h
  have inside : s.size ≤ key.rest.size := Nat.le_trans hs (Nat.le_of_lt shorter)
  have first := moves_expect _ _ c key inside hkey trivial
  have second := (he.moves 0 hb).andThen hvalue hs fits inside
  exact bind_of_ok first (bind_of_ok second rfl)

theorem leadsBack_nextPair : s.LeadsBack (s.Fits blocks blocks') (nextPair expr blocks) := by
  refine leadsBack_behind ?_
  intro c p h
  split at h
  · rw [Cursor.peek_of_take h]
    decide
  · cases h

include he hb in
theorem moves_nextPair :
    s.OptionMoves (s.Fits blocks blocks') (nextPair expr blocks) (nextPair expr' blocks') := by
  refine .behind (moves_keywordPair he hb) ?_ ?_
  · intro c p hs h
    have two : s.size + 2 ≤ c.size := by have := p.size_lt; omega
    split at h
    · rename_i key
      rw [s.peekAt_move two, if_pos key]
      exact s.takeIf_move h _
    · cases h
  · intro c hs fits h
    rcases fits with ⟨stops, -⟩ | ⟨two, -⟩
    · rw [take_of_stops stops rfl, ite_self]
    · rw [s.peekAt_move two]
      split at h
      · rename_i key
        rw [if_pos key, Cursor.take?, s.takeIf_move_none h (by omega)]
      · rename_i key
        rw [if_neg key]

include he hb in
theorem moves_keywordList :
    s.Moves (s.Fits blocks blocks') (keywordList expr blocks) (keywordList expr' blocks') := by
  intro c p hs h fits
  obtain ⟨first, hfirst, h⟩ := bind_eq_ok h
  obtain ⟨more, hmore, h⟩ := bind_eq_ok h
  have shorter := Parsed.size_andMaybe hmore
  obtain rfl := Except.ok.inj h
  have inside : s.size ≤ first.rest.size := Nat.le_trans hs shorter
  have between : s.Fits blocks blocks' first.rest := by
    obtain ⟨pairs, hpairs, rfl⟩ := map_eq_ok hmore
    exact leadsBack_nextPair.many _ pairs hpairs hs fits
  have start := moves_keywordPair he hb c first inside hfirst between
  have pairs := ((moves_nextPair he hb).many leadsBack_nextPair).andMaybe hmore hs fits inside
  have seen := s.peek_move (Nat.lt_of_le_of_lt inside first.size_lt)
  refine bind_of_ok start (bind_of_ok pairs ?_)
  rw [seen]
  rfl

/-! ### Between delimiters -/

include he in
theorem moves_item (folds : Bool) :
    s.Moves (s.Fits true true) (item expr folds) (item expr' folds) := by
  intro c p hs h fits
  have seen := s.sees_move (Nat.lt_of_le_of_lt hs p.size_lt) .keywordKey
  unfold item at h ⊢
  rw [seen]
  split at h
  · rename_i key
    rw [if_pos key]
    cases folds with
    | true => exact moves_keywordList he id c p hs h fits
    | false => exact moves_keywordPair he id c p hs h fits
  · rename_i key
    rw [if_neg key]
    exact he.moves 0 id c p hs h fits

/-- The end of a list of entries, where the closing delimiter is before the seam, and so is what
stands behind a comma. -/
structure Seam.ListEnd (s : Seam) (d : Cursor) : Prop where
  fits : s.Fits true true d
  inside : s.size < d.skipNewlines.size
  behind : ∀ comma, d.takeLoose? .comma = some comma → s.size < comma.rest.skipNewlines.size

theorem listEnd_of_comma {comma : Parsed c Token} (h : c.takeLoose? .comma = some comma)
    (second : s.size < comma.rest.skipNewlines.size) : s.ListEnd c := by
  have skipped := comma.rest.size_skipNewlines_le
  have first := Cursor.size_takeLoose h
  have whole := c.size_skipNewlines_le
  refine ⟨fits_of_two (by omega), by omega, ?_⟩
  intro other hother
  obtain rfl := Option.some.inj (h.symm.trans hother)
  exact second

theorem leadsBack_nextItem (closer : Kind) (folds : Bool) :
    s.LeadsBack s.ListEnd (nextItem expr closer folds) := by
  intro c p h hs _
  unfold nextItem at h
  split at h
  · rename_i comma hcomma
    split at h
    · cases h
    · obtain ⟨q, hq, rfl⟩ := map_eq_ok (eq_ok_of_map_some h)
      exact listEnd_of_comma hcomma (Nat.lt_of_le_of_lt hs (size_loosely hq))
  · cases h

include he in
theorem moves_nextItem (closer : Kind) (folds : Bool) :
    s.OptionMoves s.ListEnd (nextItem expr closer folds) (nextItem expr' closer folds) where
  goes c p hs h fits := by
    unfold nextItem at h ⊢
    split at h
    · rename_i comma hcomma
      split at h
      · cases h
      · rename_i goesOn
        have hp := eq_ok_of_map_some h
        have inside : s.size < comma.rest.size :=
          Nat.lt_of_le_of_lt hs (Parsed.size_andThen hp)
        have second : s.size < comma.rest.skipNewlines.size := by
          obtain ⟨q, hq, rfl⟩ := map_eq_ok hp
          exact Nat.lt_of_le_of_lt hs (size_loosely hq)
        have first := s.takeLoose_move hcomma (Nat.le_of_lt inside)
        have still : ¬ ((s.move comma.rest).takeLoose? closer).isSome := by
          rwa [isSome_takeLoose_move second]
        have entry := (moves_item he folds).loosely.andThen hp hs fits.fits (Nat.le_of_lt inside)
        rw [first]
        change (if ((s.move comma.rest).takeLoose? closer).isSome then _ else _) = _
        rw [if_neg still, entry]
        rfl
    · cases h
  stops c hs h fits := by
    unfold nextItem at h ⊢
    split at h
    · rename_i comma hcomma
      split at h
      · rename_i closed
        have second := fits.behind comma hcomma
        have inside := Nat.le_of_lt (Nat.lt_of_lt_of_le second comma.rest.size_skipNewlines_le)
        have first := s.takeLoose_move hcomma inside
        rw [first]
        change (if ((s.move comma.rest).takeLoose? closer).isSome then _ else _) = _
        rw [isSome_takeLoose_move second, if_pos closed]
      · obtain ⟨_, _, h⟩ := map_eq_ok h
        cases h
    · rename_i missing
      rw [s.takeLoose_move_none missing fits.inside]

/-- A list of entries that is closed before the seam ends before it. -/
theorem listEnd_of_closing {closer : Kind} (hk : stopsAt true closer) {p : Parsed c Token}
    (h : closing closer c = .ok p) (hs : s.size ≤ p.rest.size) : s.ListEnd c := by
  unfold closing at h
  split at h
  · rename_i comma hcomma
    obtain ⟨q, hq, rfl⟩ := map_eq_ok h
    exact listEnd_of_comma hcomma (Nat.lt_of_le_of_lt hs (size_loosely hq))
  · rename_i missing
    have last := takeLoose_of_loosely h
    refine ⟨fits_of_takeLoose last hs hk, Nat.lt_of_le_of_lt hs (size_loosely h), ?_⟩
    intro comma hcomma
    rw [missing] at hcomma
    cases hcomma

theorem moves_closing {closer : Kind} (hk : stopsAt true closer) :
    s.Moves Anywhere (closing closer) (closing closer) := by
  intro c p hs h _
  have fits := listEnd_of_closing hk h hs
  unfold closing at h ⊢
  split at h
  · rename_i comma hcomma
    have inside : s.size ≤ comma.rest.size :=
      Nat.le_trans hs (Nat.le_of_lt (Parsed.size_andThen h))
    rw [s.takeLoose_move hcomma inside]
    exact (moves_expect _ _).loosely.andThen h hs trivial inside
  · rename_i missing
    rw [s.takeLoose_move_none missing fits.inside]
    exact (moves_expect _ _).loosely c p hs h trivial

include he in
theorem moves_items {closer : Kind} (hk : stopsAt true closer) (folds : Bool) :
    s.Moves Anywhere (items expr closer folds) (items expr' closer folds) := by
  intro c p hs h _
  unfold items at h ⊢
  split at h
  · rename_i last hlast
    obtain rfl := Except.ok.inj h
    rw [s.takeLoose_move hlast hs]
    rfl
  · rename_i missing
    obtain ⟨first, hfirst, h⟩ := bind_eq_ok h
    obtain ⟨more, hmore, h⟩ := bind_eq_ok h
    obtain ⟨last, hlast, h⟩ := bind_eq_ok h
    have size₁ := size_loosely hfirst
    have size₂ := Parsed.size_andMaybe hmore
    have size₃ := Parsed.size_andThen hlast
    obtain rfl := Except.ok.inj h
    have inside₂ : s.size ≤ more.rest.size := Nat.le_trans hs (Nat.le_of_lt size₃)
    have inside₁ : s.size ≤ first.rest.size := Nat.le_trans inside₂ size₂
    have fits₂ : s.ListEnd more.rest := by
      obtain ⟨q, hq, rfl⟩ := map_eq_ok hlast
      exact listEnd_of_closing hk hq hs
    have fits₁ : s.ListEnd first.rest := by
      obtain ⟨entries, hentries, rfl⟩ := map_eq_ok hmore
      exact (leadsBack_nextItem closer folds).many _ entries hentries inside₂ fits₂
    have start := (moves_item he folds).loosely c first inside₁ hfirst fits₁.fits
    have entries := ((moves_nextItem he closer folds).many
      (leadsBack_nextItem closer folds)).andMaybe hmore inside₂ fits₂ inside₁
    have stop := (moves_closing hk).andThen hlast hs trivial inside₂
    rw [s.takeLoose_move_none missing (Nat.lt_of_le_of_lt inside₁ size₁)]
    exact bind_of_ok start (bind_of_ok entries (bind_of_ok stop rfl))

/-! ### Without delimiters -/

theorem leadsBack_nextArgument :
    s.LeadsBack (s.Fits blocks blocks') (nextArgument expr blocks) := by
  refine leadsBack_behind ?_
  intro c p h
  split at h
  · cases h
  · rw [Cursor.peek_of_take h]
    decide

include he hb in
theorem moves_nextArgument :
    s.OptionMoves (s.Fits blocks blocks') (nextArgument expr blocks)
      (nextArgument expr' blocks') := by
  refine .behind (he.moves 0 hb) ?_ ?_
  · intro c p hs h
    have two : s.size + 2 ≤ c.size := by have := p.size_lt; omega
    split at h
    · cases h
    · rename_i key
      rw [s.peekAt_move two, if_neg key]
      exact s.takeIf_move h _
  · intro c hs fits h
    rcases fits with ⟨stops, -⟩ | ⟨two, -⟩
    · rw [take_of_stops stops rfl, ite_self]
    · rw [s.peekAt_move two]
      split at h
      · rename_i key
        rw [if_pos key]
      · rename_i key
        rw [if_neg key, Cursor.take?, s.takeIf_move_none h (by omega)]

/-- Behind the comma before the pairs of an argument list two tokens or more are read. -/
theorem fits_of_comma {comma : Parsed c Token} (h : c.take? .comma = some comma)
    (hs : s.size < comma.rest.size) : s.Fits blocks blocks' c := by
  have size := comma.size_lt
  refine .inr ⟨by omega, fun _ => .inr ?_⟩
  rw [Cursor.peek_of_take h]
  decide

theorem fits_of_moreArguments {p : MaybeParsed c (List Tree)}
    (h : moreArguments expr blocks c = .ok p) (hs : s.size ≤ p.rest.size)
    (fits : s.Fits blocks blocks' p.rest) : s.Fits blocks blocks' c := by
  obtain ⟨plain, hplain, h⟩ := bind_eq_ok h
  split at h
  · obtain rfl := Except.ok.inj h
    exact leadsBack_nextArgument.many _ plain hplain hs fits
  · rename_i comma hcomma
    obtain ⟨pairs, hpairs, h⟩ := bind_eq_ok h
    have shorter := Parsed.size_andThen hpairs
    obtain rfl := Except.ok.inj h
    have inside : s.size < comma.rest.size := Nat.lt_of_le_of_lt hs shorter
    exact leadsBack_nextArgument.many _ plain hplain
      (Nat.le_of_lt (Nat.lt_trans inside comma.size_lt)) (fits_of_comma hcomma inside)

include he hb in
theorem moves_moreArguments :
    s.MaybeMoves (s.Fits blocks blocks') (moreArguments expr blocks)
      (moreArguments expr' blocks') := by
  intro c p hs h fits
  have rounds := (moves_nextArgument he hb).many leadsBack_nextArgument
  obtain ⟨plain, hplain, h⟩ := bind_eq_ok h
  split at h
  · rename_i missing
    obtain rfl := Except.ok.inj h
    have none : (s.movedMaybe plain hs).rest.take? .comma = none := fits.take_none rfl missing
    refine bind_of_ok (rounds c plain hs hplain fits) ?_
    rw [none]
    rfl
  · rename_i comma hcomma
    obtain ⟨pairs, hpairs, h⟩ := bind_eq_ok h
    have shorter := Parsed.size_andThen hpairs
    obtain rfl := Except.ok.inj h
    have inside₂ : s.size < comma.rest.size := Nat.lt_of_le_of_lt hs shorter
    have inside₁ : s.size ≤ plain.rest.size := Nat.le_of_lt (Nat.lt_trans inside₂ comma.size_lt)
    have start := rounds c plain inside₁ hplain (fits_of_comma hcomma inside₂)
    have first : (s.movedMaybe plain inside₁).rest.take? .comma = _ :=
      s.takeIf_move hcomma (Nat.le_of_lt inside₂)
    have last := (moves_keywordList he hb).andThen hpairs hs fits (Nat.le_of_lt inside₂)
    refine bind_of_ok start ?_
    rw [first]
    exact bind_of_ok last rfl

include he in
theorem moves_openArguments :
    s.Moves (s.Fits false false) (openArguments expr) (openArguments expr') := by
  intro c p hs h fits
  have seen := s.sees_move (Nat.lt_of_le_of_lt hs p.size_lt) .keywordKey
  unfold openArguments at h ⊢
  rw [seen]
  split at h
  · rename_i key
    obtain ⟨pairs, hpairs, rfl⟩ := map_eq_ok h
    rw [if_pos key, moves_keywordList he id c pairs hs hpairs fits]
    rfl
  · rename_i key
    rw [if_neg key]
    obtain ⟨first, hfirst, h⟩ := bind_eq_ok h
    obtain ⟨more, hmore, h⟩ := bind_eq_ok h
    have shorter := Parsed.size_andMaybe hmore
    obtain rfl := Except.ok.inj h
    have inside : s.size ≤ first.rest.size := Nat.le_trans hs shorter
    have between : s.Fits false false first.rest := by
      obtain ⟨others, hothers, rfl⟩ := map_eq_ok hmore
      exact fits_of_moreArguments hothers hs fits
    have start := he.moves 0 id c first inside hfirst between
    have others := (moves_moreArguments he id).andMaybe hmore hs fits inside
    exact bind_of_ok start (bind_of_ok others rfl)

/-! ### The start of an argument -/

/-- Whether arguments start is seen from two tokens, or from one that can only start an operand. -/
theorem startsArgument_move (hs : s.size < c.size) (known : c.Begins s.size) :
    startsArgument (s.move c) = startsArgument c := by
  unfold startsArgument
  rw [s.peek_move hs]
  rcases known with operand | dots | two
  · simp [operand]
  · simp [dots]
  · rw [s.peekAt_move two]

theorem startsArgument_move_of_fits (fits : s.Fits blocks blocks' c)
    (h : startsArgument c = false) : startsArgument (s.move c) = false := by
  rcases fits with ⟨stops, -⟩ | ⟨two, -⟩
  · exact startsArgument_of_stops stops
  · rw [startsArgument_move (by omega) (.inr (.inr two)), h]

/-- Open arguments of a single token start with a token that can only start an operand. -/
theorem begins_openArguments (he : s.ExprMoves expr expr') {p : Parsed c (List Tree)}
    (h : openArguments expr c = .ok p) : c.Begins p.rest.size := by
  unfold openArguments at h
  split at h
  · rename_i key
    left
    rw [show c.peek.kind = .keywordKey from beq_iff_eq.mp key]
    rfl
  · obtain ⟨first, hfirst, h⟩ := bind_eq_ok h
    obtain ⟨more, hmore, h⟩ := bind_eq_ok h
    have shorter := Parsed.size_andMaybe hmore
    obtain rfl := Except.ok.inj h
    exact (he.begins 0 false c first hfirst).mono shorter

/-! A token that must touch the one before it. -/

theorem touching_move {kind : Kind} {p : Parsed c Token}
    (h : (if c.peek.spaceBefore then none else c.take? kind) = some p) (hs : s.size ≤ p.rest.size) :
    (if (s.move c).peek.spaceBefore then none else (s.move c).take? kind) =
      some (s.moved p hs) := by
  rw [s.peek_move (Nat.lt_of_le_of_lt hs p.size_lt)]
  split at h
  · cases h
  · rename_i touches
    rw [if_neg touches]
    exact s.takeIf_move h hs

theorem touching_move_none {kind : Kind}
    (h : (if c.peek.spaceBefore then none else c.take? kind) = none) (hs : s.size < c.size) :
    (if (s.move c).peek.spaceBefore then none else (s.move c).take? kind) = none := by
  rw [s.peek_move hs]
  split at h
  · rename_i apart
    rw [if_pos apart]
  · rename_i touches
    rw [if_neg touches]
    exact s.takeIf_move_none h hs

include he in
theorem moves_arguments :
    s.MaybeMoves (s.Fits false false) (arguments? expr) (arguments? expr') := by
  intro c p hs h fits
  unfold arguments? at h ⊢
  split at h
  · rename_i opening hopening
    obtain ⟨values, hvalues, h⟩ := bind_eq_ok h
    have shorter := Parsed.size_andThen hvalues
    obtain rfl := Except.ok.inj h
    have inside : s.size ≤ opening.rest.size := Nat.le_trans hs (Nat.le_of_lt shorter)
    have inner := (moves_items he rfl true).andThen hvalues hs trivial inside
    rw [touching_move hopening inside]
    exact bind_of_ok inner rfl
  · rename_i closed
    split at h
    · rename_i starts
      obtain ⟨values, hvalues, h⟩ := bind_eq_ok h
      obtain rfl := Except.ok.inj h
      have inside : s.size ≤ values.rest.size := hs
      have before : s.size < c.size := Nat.lt_of_le_of_lt inside values.size_lt
      have known : c.Begins s.size := (begins_openArguments he hvalues).mono inside
      rw [touching_move_none closed before]
      dsimp only
      rw [startsArgument_move before known, if_pos starts]
      exact bind_of_ok (moves_openArguments he c values inside hvalues fits) rfl
    · rename_i starts
      obtain rfl := Except.ok.inj h
      have fits : s.Fits false false c := fits
      have missing :
          (if (s.move c).peek.spaceBefore then none else (s.move c).take? .lparen) = none := by
        rcases fits with ⟨stops, -⟩ | ⟨two, -⟩
        · rw [take_of_stops stops rfl, ite_self]
        · exact touching_move_none closed (by omega)
      rw [missing]
      dsimp only
      rw [startsArgument_move_of_fits fits (Bool.eq_false_iff.mpr starts)]
      rfl

end Arguments

end Parts
end CallAtlas.Grammar
