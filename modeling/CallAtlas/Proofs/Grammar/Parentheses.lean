import CallAtlas.Proofs.Grammar.Precedence
import CallAtlas.Proofs.Grammar.Seam.Expression

/-! # Parentheses around arguments

Arguments without parentheses and arguments between parentheses are read by different loops. The
first ends with the line, folds the pairs at its end and lets no block attach; the second passes
over line breaks and commas before the closing parenthesis and lets blocks attach. Whatever the
first reads up to some place, the second reads if a parenthesis is put there.
-/
namespace CallAtlas.Grammar

open Seam

variable {c : Cursor} {α β : Type} {expr : Expr}

/-! ### What was read before

The token that was read last ends regions, and a read that takes a token does not look at the one
before it.
-/

/-- The same place where another token was read last. -/
def Cursor.after (c : Cursor) (t : Token) : Cursor := { c with previous := t }

def Parsed.after (p : Parsed c α) (t : Token) : Parsed (c.after t) α :=
  ⟨p.value, p.rest, p.size_lt⟩

/-- What is read does not depend on the token that was read last. -/
def Fresh (read : Reader α) : Prop :=
  ∀ c p t, read c = .ok p → read (c.after t) = .ok (p.after t)

theorem Parsed.andThen_after {p : Parsed c α} {read : Reader β} {q : Parsed c β}
    (h : p.andThen read = .ok q) (t : Token) : (p.after t).andThen read = .ok (q.after t) := by
  obtain ⟨r, hr, rfl⟩ := map_eq_ok h
  exact map_of_ok hr

theorem Parsed.andMaybe_after {p : Parsed c α} {read : MaybeReader β} {q : Parsed c β}
    (h : p.andMaybe read = .ok q) (t : Token) : (p.after t).andMaybe read = .ok (q.after t) := by
  obtain ⟨r, hr, rfl⟩ := map_eq_ok h
  exact map_of_ok hr

theorem Cursor.next_after {p : Parsed c Token} (h : c.next? = some p) (t : Token) :
    (c.after t).next? = some (p.after t) := by
  obtain ⟨hr, hl, hp, hk⟩ := Cursor.of_next h
  exact Cursor.next_eq_some (c := c.after t) hr hl hp hk p.size_lt

theorem fresh_expect (kind : Kind) (needed : Expectation) : Fresh (Cursor.expect kind needed) := by
  intro c p t h
  obtain ⟨found, hk⟩ := Cursor.next_of_takeIf (take_of_expect h)
  have taken : (c.after t).take? kind = _ := (if_pos hk).trans (Cursor.next_after found t)
  rw [Cursor.expect, taken]

theorem fresh_keywordPair (blocks : Bool) : Fresh (keywordPair expr blocks) := by
  intro c p t h
  obtain ⟨key, hkey, h⟩ := bind_eq_ok h
  obtain ⟨value, hvalue, h⟩ := bind_eq_ok h
  obtain rfl := Except.ok.inj h
  exact bind_of_ok (fresh_expect _ _ c key t hkey)
    (bind_of_ok (Parsed.andThen_after hvalue t) rfl)

theorem fresh_keywordList (blocks : Bool) : Fresh (keywordList expr blocks) := by
  intro c p t h
  obtain ⟨first, hfirst, h⟩ := bind_eq_ok h
  obtain ⟨more, hmore, h⟩ := bind_eq_ok h
  obtain rfl := Except.ok.inj h
  exact bind_of_ok (fresh_keywordPair blocks c first t hfirst)
    (bind_of_ok (Parsed.andMaybe_after hmore t) rfl)

theorem fresh_primary (blocks : Bool) : Fresh (primary expr blocks) := by
  intro c p t h
  unfold primary at h ⊢
  split at h
  · cases h
  · rename_i first hfirst
    rw [Cursor.next_after hfirst t]
    revert h
    dsimp only [Parsed.after]
    cases first.value.kind with
    | identifier => exact fun h => Parsed.andMaybe_after h t
    | interpStart | lparen | lbracket | lbrace | binOpen | percent | kwFn =>
      exact fun h => Parsed.andThen_after h t
    | keywordKey => exact fun h => fresh_keywordList blocks c p t h
    | «alias» | moduleSelf | atom | kwTrue | kwFalse | kwNil | integer | char | float | string
    | charlist | sigil =>
      intro h
      obtain rfl := Except.ok.inj h
      rfl
    | _ =>
      intro h
      cases h

theorem fresh_operand (blocks : Bool) : Fresh (operand expr blocks) := by
  intro c p t h
  obtain ⟨first, hfirst⟩ := exists_next_of_operand h
  refine operand_by_rule hfirst (Cursor.next_after hfirst t) rfl h (Q := fun found => found = _)
    ?_ ?_ ?_ ?_ ?_
  · exact fun h => Parsed.andThen_after h t
  · exact fun h => Parsed.andThen_after h t
  · rintro rfl
    rfl
  · rintro name value hvalue rfl
    exact bind_of_ok (Parsed.andThen_after hvalue t) rfl
  · intro left hleft h
    exact bind_of_ok (fresh_primary blocks c left t hleft) (Parsed.andMaybe_after h t)

theorem fresh_expressionAt (depth level : Nat) (blocks : Bool) :
    Fresh (expressionAt depth level blocks) := by
  intro c p t h
  cases depth with
  | zero => cases h
  | succ depth =>
    obtain ⟨left, hleft, h⟩ := bind_eq_ok h
    exact bind_of_ok (fresh_operand blocks c left t hleft) (Parsed.andMaybe_after h t)

/-! ### The two loops -/

/-- Reads of one loop and then of another, where the second loop reads what the first does. -/
theorem many_append {read read' : OptionReader β}
    (same : ∀ c p, read c = .ok (some p) → read' c = .ok (some p)) :
    ∀ c p q, many read c = .ok p → many read' p.rest = .ok q →
      many read' c = .ok (p.followedBy (q.map (p.value ++ ·))) := by
  intro c
  fun_induction many read c with
  | case1 c e _ =>
    intro p q hp
    cases hp
  | case2 c _ =>
    intro p q hp hq
    obtain rfl := Except.ok.inj hp
    exact hq
  | case3 c p hr e _ _ =>
    intro p q hp
    cases hp
  | case4 c p hr q hq ih =>
    intro r u hr' hu
    obtain rfl := Except.ok.inj hr'
    rw [many, same c p hr]
    dsimp only
    rw [ih q u hq hu]
    rfl

section Loops

variable {depth : Nat} {closer : Kind}

/-- A token that starts an entry is neither a line break nor a closing delimiter. -/
theorem ne_of_starts {kind : Kind} (starts : stopsAt false c.peek.kind = false)
    (hk : stopsAt false kind) : c.peek.kind ≠ kind := by
  rintro rfl
  rw [starts] at hk
  cases hk

theorem takeLoose_of_starts {kind : Kind} (starts : stopsAt false c.peek.kind = false)
    (hk : stopsAt false kind) : c.takeLoose? kind = none := by
  rw [Cursor.takeLoose?, Option.map_eq_none_iff,
    Cursor.skipNewlines_eq_self (ne_of_starts starts rfl), Cursor.take?, Cursor.takeIf?,
    if_neg (by simpa using ne_of_starts starts hk)]

theorem loosely_of_starts {read : Reader β} {p : Parsed c β}
    (starts : stopsAt false c.peek.kind = false) (h : read c = .ok p) :
    loosely read c = .ok p :=
  loosely_eq_ok (Cursor.skipNewlines_eq_self (ne_of_starts starts rfl)) h p.size_lt

theorem stops_of_item {folds : Bool} {p : Parsed c Tree}
    (h : item (expressionAt depth) folds c = .ok p) : stopsAt false c.peek.kind = false := by
  unfold item at h
  split at h
  · rename_i key
    rw [show c.peek.kind = .keywordKey from beq_iff_eq.mp key]
    rfl
  · exact stops_of_expressionAt h

/-- An entry behind a comma, where no line break follows the comma. -/
theorem nextItem_of_comma {folds : Bool} (hk : stopsAt false closer) {comma : Parsed c Token}
    (hcomma : c.take? .comma = some comma) {p : Parsed c Tree}
    (h : comma.andThen (item (expressionAt depth) folds) = .ok p) :
    nextItem (expressionAt depth) closer folds c = .ok (some p) := by
  obtain ⟨entry, hentry, rfl⟩ := map_eq_ok h
  have starts := stops_of_item hentry
  have noBreak : c.peek.kind ≠ .newline := by
    rw [Cursor.peek_of_take hcomma]
    decide
  have taken : c.takeLoose? .comma = some comma :=
    Cursor.takeLoose_eq_some (Cursor.skipNewlines_eq_self noBreak) hcomma comma.size_lt
  have goesOn : ¬ (comma.rest.takeLoose? closer).isSome := by
    rw [takeLoose_of_starts starts hk]
    exact Bool.false_ne_true
  rw [nextItem, taken]
  exact (if_neg goesOn).trans (map_of_ok (map_of_ok (loosely_of_starts starts hentry)))

theorem peekAt_of_next {token : Parsed c Token} (h : c.next? = some token) :
    c.peekAt 1 = token.rest.peek := by
  obtain ⟨hr, hl, -, -⟩ := Cursor.of_next h
  rw [Cursor.peekAt, Cursor.peek, hr, hl]
  cases token.rest.rest <;> rfl

theorem nextItem_of_nextArgument (hk : stopsAt false closer) {p : Parsed c Tree}
    (h : nextArgument (expressionAt depth) true c = .ok (some p)) :
    nextItem (expressionAt depth) closer true c = .ok (some p) := by
  obtain ⟨comma, hcomma, hp⟩ := of_behind h
  split at hcomma
  · cases hcomma
  · rename_i noKey
    rw [peekAt_of_next (Cursor.next_of_takeIf hcomma).1] at noKey
    obtain ⟨t, ht, rfl⟩ := map_eq_ok hp
    have entry : item (expressionAt depth) true comma.rest = .ok t := (if_neg noKey).trans ht
    exact nextItem_of_comma hk hcomma (map_of_ok entry)

/-- The loop for entries ends at a closing delimiter. -/
theorem many_nextItem_of_closer (expr : Expr) (hk : stopsAt false closer)
    (h : c.peek.kind = closer) (noBreak : closer ≠ .newline) (folds : Bool) :
    many (nextItem expr closer folds) c = .ok (c.stay []) := by
  have noComma : c.takeLoose? .comma = none := by
    rw [Cursor.takeLoose?, Option.map_eq_none_iff, Cursor.skipNewlines_eq_self (h ▸ noBreak)]
    exact take_of_stops (h ▸ hk) rfl
  rw [many, nextItem, noComma]

/-- Further arguments up to a closing delimiter are entries before it. -/
theorem many_nextItem_of_moreArguments (hk : stopsAt false closer) (noBreak : closer ≠ .newline)
    {p : MaybeParsed c (List Tree)} (h : moreArguments (expressionAt depth) true c = .ok p)
    (ends : p.rest.peek.kind = closer) :
    many (nextItem (expressionAt depth) closer true) c = .ok p := by
  obtain ⟨plain, hplain, h⟩ := bind_eq_ok h
  have step (c : Cursor) (p : Parsed c Tree)
      (h : nextArgument (expressionAt depth) true c = .ok (some p)) :
      nextItem (expressionAt depth) closer true c = .ok (some p) :=
    nextItem_of_nextArgument hk h
  have rounds (q) := many_append step c plain q hplain
  split at h
  · obtain rfl := Except.ok.inj h
    have none := many_nextItem_of_closer (expressionAt depth) hk ends noBreak true
    rw [rounds _ none]
    simp [MaybeParsed.followedBy, MaybeParsed.map, Cursor.stay]
  · rename_i comma hcomma
    obtain ⟨pairs, hpairs, h⟩ := bind_eq_ok h
    obtain ⟨t, ht, rfl⟩ := map_eq_ok hpairs
    obtain rfl := Except.ok.inj h
    have ends : t.rest.peek.kind = closer := ends
    have key : comma.rest.sees .keywordKey := by
      obtain ⟨first, hfirst, -⟩ := bind_eq_ok ht
      obtain ⟨key, hkey, -⟩ := bind_eq_ok hfirst
      rw [Cursor.sees, Cursor.peek_of_take (take_of_expect hkey)]
      rfl
    have entry : item (expressionAt depth) true comma.rest = .ok t := (if_pos key).trans ht
    have last := nextItem_of_comma hk hcomma (map_of_ok entry)
    have none := many_nextItem_of_closer (expressionAt depth) hk ends noBreak true
    have stop : many (nextItem (expressionAt depth) closer true) (comma.followedBy t).rest = _ :=
      none
    refine rounds ((comma.followedBy t).map ([·])).maybe ?_
    rw [many, last]
    dsimp only
    rw [stop]
    rfl

/-- A first entry, further ones and the closing delimiter. -/
theorem items_of_parts (hk : stopsAt false closer) (noBreak : closer ≠ .newline) {folds : Bool}
    {first : Parsed c Tree} (hfirst : item (expressionAt depth) folds c = .ok first)
    {more : Parsed c (List Tree)}
    (hmore : first.andMaybe (many (nextItem (expressionAt depth) closer folds)) = .ok more)
    {last : Parsed more.rest Token} (hlast : more.rest.take? closer = some last) :
    items (expressionAt depth) closer folds c =
      .ok ((more.followedBy last).map fun _ => first.value :: more.value) := by
  have starts := stops_of_item hfirst
  have seen := Cursor.peek_of_take hlast
  have skipped : more.rest.skipNewlines = more.rest :=
    Cursor.skipNewlines_eq_self (seen ▸ noBreak)
  have noComma : more.rest.takeLoose? .comma = none := by
    rw [Cursor.takeLoose?, Option.map_eq_none_iff, skipped]
    exact take_of_stops (seen ▸ hk) rfl
  have expected : Cursor.expect closer .closingDelimiter more.rest = .ok last := by
    rw [Cursor.expect, hlast]
  have closed : closing closer more.rest = .ok last := by
    rw [closing, noComma]
    exact loosely_eq_ok skipped expected last.size_lt
  rw [items, takeLoose_of_starts starts hk]
  exact bind_of_ok (loosely_of_starts starts hfirst)
    (bind_of_ok hmore (bind_of_ok (map_of_ok closed) rfl))

end Loops

/-! ### Arguments in parentheses -/

section Closed

variable {depth : Nat} {s : Seam} {closing : Token} {rest : List Token}

/-- The place at the seam. -/
theorem Seam.move_of_size (hs : s.tail = closing :: rest) (whole : c.size = s.size) :
    s.move c = ⟨closing :: rest, s.last, c.previous⟩ := by
  rw [move, whole, Nat.sub_self, List.take_zero, List.nil_append, hs]

theorem Seam.take_of_size (hs : s.tail = closing :: rest) (hc : closing.kind = .rparen)
    (whole : c.size = s.size) :
    ∃ last, (s.move c).take? .rparen = some last ∧ last.rest = ⟨rest, s.last, closing⟩ := by
  rw [s.move_of_size hs whole]
  have found := Cursor.next_cons (t := closing) (by simp [hc]) rest s.last c.previous
  exact ⟨_, (if_pos (by simp [Cursor.peek, hc])).trans found, rfl⟩

theorem Seam.ends_of_size (hs : s.tail = closing :: rest) (hc : closing.kind = .rparen)
    (whole : c.size = s.size) : (s.move c).peek.kind = .rparen := by
  rw [s.move_of_size hs whole]
  exact hc

theorem Seam.fits_of_size (hs : s.tail = closing :: rest) (hc : closing.kind = .rparen)
    (whole : c.size = s.size) : s.Fits false true c := by
  refine .inl ⟨?_, fun h => by cases h⟩
  rw [s.ends_of_size hs hc whole]
  rfl

/-- The further arguments of a call without parentheses, read as entries. -/
theorem entries_of_moreArguments (hs : s.tail = closing :: rest) (hc : closing.kind = .rparen)
    {first : Parsed c Tree} {more : Parsed c (List Tree)}
    (h : first.andMaybe (moreArguments (expressionAt depth) false) = .ok more)
    (whole : more.rest.size = s.size) :
    ∃ inside behind, s.Fits false true first.rest ∧
      (s.moved first inside).andMaybe (many (nextItem (expressionAt depth) .rparen true)) =
        .ok (s.moved more behind) := by
  have behind : s.size ≤ more.rest.size := Nat.le_of_eq whole.symm
  have inside : s.size ≤ first.rest.size := Nat.le_trans behind (Parsed.size_andMaybe h)
  have he : s.ExprMoves (expressionAt depth) (expressionAt depth) :=
    moves_expressionAt (Nat.le_refl depth)
  obtain ⟨others, hothers, rfl⟩ := map_eq_ok h
  have fits : s.Fits false true others.rest := s.fits_of_size hs hc whole
  have carried := moves_moreArguments he (fun _ => rfl) first.rest others behind hothers fits
  have hk : stopsAt false .rparen := rfl
  have entries := many_nextItem_of_moreArguments hk (by decide) carried (s.ends_of_size hs hc whole)
  exact ⟨inside, behind, fits_of_moreArguments hothers behind fits, map_of_ok entries⟩

/-- Arguments without parentheses are read as entries if a closing parenthesis is put behind them,
and whatever was read before them. -/
theorem items_of_openArguments (hs : s.tail = closing :: rest) (hc : closing.kind = .rparen)
    {p : Parsed c (List Tree)} (h : openArguments (expressionAt depth) c = .ok p)
    (whole : p.rest.size = s.size) (t : Token) :
    ∃ q, items (expressionAt depth) .rparen true ((s.move c).after t) = .ok q ∧
      q.value = p.value ∧ q.rest = ⟨rest, s.last, closing⟩ := by
  have he : s.ExprMoves (expressionAt depth) (expressionAt depth) :=
    moves_expressionAt (Nat.le_refl depth)
  have before : s.size < c.size := whole ▸ p.size_lt
  have seen : ((s.move c).after t).sees .keywordKey = c.sees .keywordKey := s.sees_move before _
  unfold openArguments at h
  split at h
  · rename_i key
    obtain ⟨pairs, hpairs, rfl⟩ := map_eq_ok h
    have whole : pairs.rest.size = s.size := whole
    have inside : s.size ≤ pairs.rest.size := Nat.le_of_eq whole.symm
    have carried := moves_keywordList he (fun _ => rfl) c pairs inside hpairs
      (s.fits_of_size hs hc whole)
    have entry : item (expressionAt depth) true ((s.move c).after t) = _ :=
      (if_pos (seen.trans key)).trans (fresh_keywordList true _ _ t carried)
    have hk : stopsAt false .rparen := rfl
    have none := many_nextItem_of_closer (expressionAt depth) hk (s.ends_of_size hs hc whole)
      (by decide) true
    obtain ⟨last, hlast, stop⟩ := s.take_of_size hs hc whole
    exact ⟨_, items_of_parts rfl (by decide) entry (map_of_ok none) hlast, rfl, stop⟩
  · rename_i key
    obtain ⟨first, hfirst, h⟩ := bind_eq_ok h
    obtain ⟨more, hmore, h⟩ := bind_eq_ok h
    obtain rfl := Except.ok.inj h
    have whole : more.rest.size = s.size := whole
    obtain ⟨inside, behind, fits, entries⟩ := entries_of_moreArguments hs hc hmore whole
    have carried := he.moves 0 (fun _ => rfl) c first inside hfirst fits
    have entry : item (expressionAt depth) true ((s.move c).after t) = _ :=
      (if_neg (seen ▸ key)).trans (fresh_expressionAt depth 0 true _ _ t carried)
    obtain ⟨last, hlast, stop⟩ := s.take_of_size hs hc whole
    exact ⟨_, items_of_parts rfl (by decide) entry (Parsed.andMaybe_after entries t) hlast, rfl,
      stop⟩

end Closed

/-! ### Calls -/

/-- The call of a name, up to the last token of its arguments. -/
def namedCall (name : Token) (arguments : Arguments) (last : Token) : Tree :=
  { form := if constructs.contains name.value then .construct else .call
    span := name.span.to last.span
    name := name.value
    children := arguments.values
    parens := arguments.parens }

/-- The call of a member, up to the last token of its arguments. -/
def memberCall (left : Tree) (name : Token) (arguments : Arguments) (last : Token) : Tree :=
  { form := .remoteCall
    span := left.span.to last.span
    name := memberName name
    children := left :: arguments.values
    parens := arguments.parens }

section Calls

variable {found : Arguments} {arguments : MaybeParsed c (Option Arguments)} (blocks : Bool)
  (h : arguments? expr c = .ok arguments) (given : arguments.value = some found)

include h given

/-- A name with arguments is a call, to which a block may attach. -/
theorem identifier_of_arguments (name : Token) :
    MaybeParsed.outcome (identifier expr blocks name c) =
      MaybeParsed.outcome (attach expr blocks
        (namedCall name found arguments.rest.previous) arguments.rest) := by
  unfold identifier
  rw [h]
  change MaybeParsed.outcome (if arguments.value.isNone && _ then _ else _) = _
  rw [given]
  exact MaybeParsed.outcome_followedBy arguments _

theorem member_of_arguments (left : Tree) (name : Token) :
    MaybeParsed.outcome (member expr blocks left name c) =
      MaybeParsed.outcome (attach expr blocks
        (memberCall left name found arguments.rest.previous) arguments.rest) := by
  unfold member
  rw [h]
  change MaybeParsed.outcome (if arguments.value.isNone && _ then _ else _) = _
  rw [given]
  exact MaybeParsed.outcome_followedBy arguments _

end Calls

/-- Arguments that are read without parentheses up to some place are read with them too, and give
the same calls, to which a block that follows may attach as before. -/
theorem parentheses_keep_arguments {limit : Nat} {X rest : List Token} {last previous : Token}
    {p : Parsed ⟨X ++ rest, last, previous⟩ (List Tree)}
    (read : openArguments (expressionAt limit) ⟨X ++ rest, last, previous⟩ = .ok p)
    (whole : p.rest.rest = rest) {opening closing : Token} (ho : opening.kind = .lparen)
    (touches : opening.spaceBefore = false) (hc : closing.kind = .rparen) (rest' : List Token)
    (last' previous' : Token) :
    let expr := expressionAt limit
    let bare : Cursor := ⟨X ++ rest, last, previous⟩
    let closed : Cursor := ⟨opening :: (X ++ closing :: rest'), last', previous'⟩
    let behind : Cursor := ⟨rest', last', closing⟩
    (∃ q, arguments? expr closed = .ok q ∧ q.value = some ⟨true, p.value⟩ ∧ q.rest = behind) ∧
      (startsArgument bare → ∀ blocks name,
        (MaybeParsed.outcome (identifier expr blocks name bare) =
            MaybeParsed.outcome (attach expr blocks
              (namedCall name ⟨false, p.value⟩ p.rest.previous) p.rest) ∧
          MaybeParsed.outcome (identifier expr blocks name closed) =
            MaybeParsed.outcome (attach expr blocks
              (namedCall name ⟨true, p.value⟩ closing) behind)) ∧
        ∀ left,
          MaybeParsed.outcome (member expr blocks left name bare) =
            MaybeParsed.outcome (attach expr blocks
              (memberCall left name ⟨false, p.value⟩ p.rest.previous) p.rest) ∧
          MaybeParsed.outcome (member expr blocks left name closed) =
            MaybeParsed.outcome (attach expr blocks
              (memberCall left name ⟨true, p.value⟩ closing) behind)) := by
  intro expr bare closed behind
  have plain : startsArgument bare → arguments? expr bare =
      .ok (p.map fun values => some ⟨false, values⟩).maybe := by
    intro starts
    have apart : bare.peek.spaceBefore = true := by
      unfold startsArgument at starts
      simp only [Bool.and_eq_true] at starts
      exact starts.1.1
    rw [arguments?, if_pos apart]
    exact (if_pos starts).trans (bind_of_ok read rfl)
  have bracketed : ∃ q, arguments? expr closed = .ok q ∧ q.value = some ⟨true, p.value⟩ ∧
      q.rest = behind := by
    let s : Seam := ⟨rest.length, closing :: rest', last'⟩
    have whole : p.rest.size = s.size := by rw [Cursor.size, whole]
    have inner : (s.move bare).after opening = ⟨X ++ closing :: rest', last', opening⟩ := by
      have length : bare.size - s.size = X.length := by simp [bare, s, Cursor.size]
      rw [Cursor.after, move, length]
      simp [bare, s]
    have entries := items_of_openArguments (s := s) rfl hc read whole opening
    rw [inner] at entries
    obtain ⟨values, hvalues, same, stop⟩ := entries
    let start : Parsed closed Token :=
      ⟨opening, ⟨X ++ closing :: rest', last', opening⟩, Nat.lt_succ_self _⟩
    have found : closed.next? = some start := Cursor.next_cons (by simp [ho]) _ _ _
    have taken : (if closed.peek.spaceBefore then none else closed.take? .lparen) = some start :=
      (if_neg (by simp [closed, Cursor.peek, touches])).trans
        ((if_pos (by simp [closed, Cursor.peek, ho])).trans found)
    refine ⟨((start.followedBy values).map fun values => some ⟨true, values⟩).maybe, ?_, ?_, stop⟩
    · rw [arguments?, taken]
      exact bind_of_ok (map_of_ok hvalues) rfl
    · change some (Arguments.mk true values.value) = _
      rw [same]
  refine ⟨bracketed, ?_⟩
  intro starts blocks name
  obtain ⟨q, hq, given, stop⟩ := bracketed
  refine ⟨⟨?_, ?_⟩, fun left => ⟨?_, ?_⟩⟩
  · exact identifier_of_arguments blocks (plain starts) rfl name
  · rw [identifier_of_arguments blocks hq given, stop]
  · exact member_of_arguments blocks (plain starts) rfl left name
  · rw [member_of_arguments blocks hq given, stop]

/-- `f g 1, k: 2` and `f(g 1, k: 2)`: the arguments are the call of `g` and the pairs in both. -/
theorem sampleArguments_kept :
    let blank (kind : Kind) (value : String) : Token :=
      { kind, value := text value, spaceBefore := true }
    let plain (kind : Kind) : Token := { kind }
    let X := [blank .identifier "g", blank .integer "1", plain .comma, blank .keywordKey "k",
      blank .integer "2"]
    let rest : List Token := [{ kind := .newline }]
    let f : Token := { kind := .identifier, value := text "f" }
    let eof : Token := {}
    ∃ p, openArguments (expressionAt 3) ⟨X ++ rest, eof, f⟩ = .ok p ∧ p.rest.rest = rest ∧
      p.value.map Tree.dump = [text "(call g (int 1) (list (pair (atom k) (int 2))))"] ∧
      ∃ q, arguments? (expressionAt 3) ⟨plain .lparen :: (X ++ plain .rparen :: rest), eof, f⟩ =
        .ok q ∧ q.value = some ⟨true, p.value⟩ := by
  intro blank plain X rest f eof
  have ok : (openArguments (expressionAt 3) ⟨X ++ rest, eof, f⟩).toOption.any fun p =>
      p.rest.rest = rest ∧
        p.value.map Tree.dump = [text "(call g (int 1) (list (pair (atom k) (int 2))))"] := by
    decide +kernel
  obtain ⟨p, read, found⟩ := exists_ok_of_any ok
  obtain ⟨whole, dumped⟩ := of_decide_eq_true found
  have ho : (plain .lparen).kind = .lparen := rfl
  have hc : (plain .rparen).kind = .rparen := rfl
  obtain ⟨⟨q, hq, same, -⟩, -⟩ := parentheses_keep_arguments read whole ho rfl hc rest eof f
  exact ⟨p, read, whole, dumped, q, hq, same⟩

end CallAtlas.Grammar
