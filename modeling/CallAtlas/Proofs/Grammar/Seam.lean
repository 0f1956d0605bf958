import CallAtlas.Proofs.Grammar.Stops

/-! # Other tokens behind a place

A token list is cut at a place, and other tokens are put behind it. A read that ends before the
place, or at it, looks at most at the two tokens behind its end. So it reads the same from the new
list if these are before the place, or if the next token of the new list lets nothing go on.
-/
namespace CallAtlas.Grammar

/-! ### What reads leave -/

section Sizes

variable {c : Cursor} {α β : Type} {read : Reader β} {more : MaybeReader β}

theorem Parsed.size_andThen {p : Parsed c α} {q : Parsed c β} (h : p.andThen read = .ok q) :
    q.rest.size < p.rest.size := by
  obtain ⟨r, -, rfl⟩ := map_eq_ok h
  exact r.size_lt

theorem Parsed.size_andMaybe {p : Parsed c α} {q : Parsed c β} (h : p.andMaybe more = .ok q) :
    q.rest.size ≤ p.rest.size := by
  obtain ⟨r, -, rfl⟩ := map_eq_ok h
  exact r.size_le

theorem MaybeParsed.size_andThen {p : MaybeParsed c α} {q : Parsed c β}
    (h : p.andThen read = .ok q) : q.rest.size < p.rest.size := by
  obtain ⟨r, -, rfl⟩ := map_eq_ok h
  exact r.size_lt

theorem MaybeParsed.size_andMaybe {p : MaybeParsed c α} {q : MaybeParsed c β}
    (h : p.andMaybe more = .ok q) : q.rest.size ≤ p.rest.size := by
  obtain ⟨r, -, rfl⟩ := map_eq_ok h
  exact r.size_le

theorem of_behind {opening : Option (Parsed c Token)} {p : Parsed c β}
    (h : behind opening read = .ok (some p)) :
    ∃ first, opening = some first ∧ first.andThen read = .ok p := by
  unfold behind at h
  split at h
  · exact ⟨_, rfl, eq_ok_of_map_some h⟩
  · cases h

theorem of_behind_none {opening : Option (Parsed c Token)}
    (h : behind opening read = .ok none) : opening = none := by
  unfold behind at h
  split at h
  · obtain ⟨_, _, h⟩ := map_eq_ok h
    cases h
  · rfl

end Sizes

theorem Cursor.next_eq_some {c d : Cursor} {t : Token} (hr : c.rest = t :: d.rest)
    (hl : d.last = c.last) (hp : d.previous = t) (ht : t.kind ≠ .eof) (lt : d.size < c.size) :
    c.next? = some ⟨t, d, lt⟩ := by
  obtain ⟨rest, last, previous⟩ := c
  obtain ⟨rest', last', previous'⟩ := d
  simp only at hr hl hp
  subst hr hl hp
  simp [Cursor.next?, ht]

/-- What the next token leaves behind it. -/
theorem Cursor.of_next {c : Cursor} {p : Parsed c Token} (h : c.next? = some p) :
    c.rest = p.value :: p.rest.rest ∧ p.rest.last = c.last ∧ p.rest.previous = p.value ∧
      p.value.kind ≠ .eof := by
  unfold Cursor.next? at h
  split at h
  · cases h
  · split at h
    · cases h
    · rename_i hrest hk
      obtain rfl := Option.some.inj h
      exact ⟨hrest, rfl, rfl, hk⟩

/-- What is taken behind the line breaks that stand next. -/
theorem Cursor.takeLoose_eq_some {c d : Cursor} {kind : Kind} {p : Parsed d Token}
    (hd : c.skipNewlines = d) (h : d.take? kind = some p) (lt : p.rest.size < c.size) :
    c.takeLoose? kind = some ⟨p.value, p.rest, lt⟩ := by
  subst hd
  rw [takeLoose?, h]
  rfl

theorem loosely_eq_ok {α : Type} {read : Reader α} {c d : Cursor} {p : Parsed d α}
    (hd : c.skipNewlines = d) (h : read d = .ok p) (lt : p.rest.size < c.size) :
    loosely read c = .ok ⟨p.value, p.rest, lt⟩ := by
  subst hd
  change (read c.skipNewlines).map _ = _
  rw [h]
  rfl

/-! ### The seam -/

/-- A place in a token list, given by the number of tokens behind it, and what is put there. -/
structure Seam where
  size : Nat
  tail : List Token
  last : Token

namespace Seam

variable (s : Seam) {c d : Cursor} {α β : Type}

/-- The same place of the new list, for a cursor that does not stand behind the seam. -/
def move (c : Cursor) : Cursor := ⟨c.rest.take (c.size - s.size) ++ s.tail, s.last, c.previous⟩

theorem size_move (h : s.size ≤ c.size) :
    (s.move c).size + s.size = c.size + s.tail.length := by
  simp only [move, Cursor.size, List.length_append, List.length_take] at *
  omega

/-- The same read from the new list. -/
def moved (p : Parsed c α) (h : s.size ≤ p.rest.size) : Parsed (s.move c) α :=
  ⟨p.value, s.move p.rest, by
    have before := s.size_move h
    have behind := s.size_move (Nat.le_of_lt (Nat.lt_of_le_of_lt h p.size_lt))
    have := p.size_lt
    omega⟩

/-- The same read from the new list. -/
def movedMaybe (p : MaybeParsed c α) (h : s.size ≤ p.rest.size) : MaybeParsed (s.move c) α :=
  ⟨p.value, s.move p.rest, by
    have before := s.size_move h
    have behind := s.size_move (Nat.le_trans h p.size_le)
    have := p.size_le
    omega⟩

/-! ### Tokens before the seam -/

theorem rest_move {t : Token} {ts : List Token} (hc : c.rest = t :: ts) (h : s.size ≤ ts.length) :
    (s.move c).rest = t :: (ts.take (ts.length - s.size) ++ s.tail) := by
  have count : c.size - s.size = (ts.length - s.size) + 1 := by
    rw [Cursor.size, hc, List.length_cons]
    omega
  rw [move, count, hc, List.take_succ_cons, List.cons_append]

theorem exists_token (h : s.size < c.size) :
    ∃ t ts, c.rest = t :: ts ∧ s.size ≤ ts.length := by
  cases hc : c.rest with
  | nil => simp [Cursor.size, hc] at h
  | cons t ts =>
    rw [Cursor.size, hc, List.length_cons] at h
    exact ⟨t, ts, rfl, Nat.le_of_lt_succ h⟩

theorem peek_move (h : s.size < c.size) : (s.move c).peek = c.peek := by
  obtain ⟨t, ts, hc, hs⟩ := s.exists_token h
  rw [Cursor.peek, Cursor.peek, s.rest_move hc hs, hc]
  rfl

theorem sees_move (h : s.size < c.size) (kind : Kind) : (s.move c).sees kind = c.sees kind := by
  rw [Cursor.sees, Cursor.sees, s.peek_move h]

theorem atBlockEnd_move (h : s.size < c.size) : (s.move c).atBlockEnd = c.atBlockEnd := by
  rw [Cursor.atBlockEnd, Cursor.atBlockEnd, Cursor.atEnd, Cursor.atEnd, s.sees_move h,
    s.sees_move h, s.peek_move h]

/-- Two tokens before the seam the second one is the same too. -/
theorem peekAt_move (h : s.size + 2 ≤ c.size) : (s.move c).peekAt 1 = c.peekAt 1 := by
  obtain ⟨t, ts, hc, hs⟩ := s.exists_token (c := c) (by omega)
  have more : s.size < (Cursor.mk ts c.last t).size := by
    simp only [Cursor.size, hc, List.length_cons] at h ⊢
    omega
  obtain ⟨u, us, hts, hus⟩ := s.exists_token more
  have rest : (s.move c).rest = t :: (s.move ⟨ts, c.last, t⟩).rest := s.rest_move hc hs
  rw [Cursor.peekAt, Cursor.peekAt, rest, s.rest_move hts hus, hc]
  simp only at hts
  rw [hts]
  rfl

theorem next_move {p : Parsed c Token} (h : c.next? = some p) (hs : s.size ≤ p.rest.size) :
    (s.move c).next? = some (s.moved p hs) := by
  obtain ⟨hr, -, hp, hk⟩ := Cursor.of_next h
  have rest : (s.move c).rest = p.value :: (s.move p.rest).rest := s.rest_move hr hs
  exact Cursor.next_eq_some rest rfl hp hk _

theorem next_move_none (h : c.next? = none) (hs : s.size < c.size) : (s.move c).next? = none := by
  obtain ⟨t, ts, hc, hts⟩ := s.exists_token hs
  by_cases hk : t.kind = .eof
  · have rest := s.rest_move hc hts
    unfold Cursor.next?
    split
    · rfl
    · rename_i u us hu
      obtain ⟨rfl, -⟩ := List.cons.inj (rest.symm.trans hu)
      rw [if_pos hk]
  · have found := Cursor.next_eq_some (d := ⟨ts, c.last, t⟩) hc rfl rfl hk
      (by simp [Cursor.size, hc])
    rw [h] at found
    cases found

theorem takeIf_move {q : Kind → Bool} {p : Parsed c Token} (h : c.takeIf? q = some p)
    (hs : s.size ≤ p.rest.size) : (s.move c).takeIf? q = some (s.moved p hs) := by
  have seen := s.peek_move (Nat.lt_of_le_of_lt hs p.size_lt)
  unfold Cursor.takeIf? at h ⊢
  split at h
  · rename_i hq
    rw [seen, if_pos hq, s.next_move h hs]
  · cases h

theorem takeIf_move_none {q : Kind → Bool} (h : c.takeIf? q = none) (hs : s.size < c.size) :
    (s.move c).takeIf? q = none := by
  unfold Cursor.takeIf? at h ⊢
  rw [s.peek_move hs]
  split at h
  · rename_i hq
    rw [if_pos hq, s.next_move_none h hs]
  · rename_i hq
    rw [if_neg hq]

theorem skipNewlines_move (hs : s.size ≤ c.skipNewlines.size)
    (stop : s.size < c.skipNewlines.size ∨ (s.move c.skipNewlines).peek.kind ≠ .newline) :
    (s.move c).skipNewlines = s.move c.skipNewlines := by
  fun_induction Cursor.skipNewlines c with
  | case1 c t c₁ lt h ih =>
    have inside : s.size ≤ c₁.size := Nat.le_trans hs c₁.size_skipNewlines_le
    have first : (s.move c).take? .newline = _ := s.takeIf_move h inside
    rw [Cursor.skipNewlines, first]
    exact ih hs stop
  | case2 c h =>
    have none : (s.move c).take? .newline = none := by
      rcases stop with inside | other
      · exact s.takeIf_move_none h inside
      · rw [Cursor.take?, Cursor.takeIf?, if_neg (by simpa using other)]
    rw [Cursor.skipNewlines, none]

theorem takeLoose_move {kind : Kind} {p : Parsed c Token} (h : c.takeLoose? kind = some p)
    (hs : s.size ≤ p.rest.size) : (s.move c).takeLoose? kind = some (s.moved p hs) := by
  obtain ⟨q, hq, rfl⟩ := Option.map_eq_some_iff.mp h
  have inside : s.size < c.skipNewlines.size := Nat.lt_of_le_of_lt hs q.size_lt
  have skipped := s.skipNewlines_move (Nat.le_of_lt inside) (.inl inside)
  have taken : (s.move c.skipNewlines).take? kind = some (s.moved q hs) := s.takeIf_move hq hs
  exact Cursor.takeLoose_eq_some skipped taken _

theorem takeLoose_move_none {kind : Kind} (h : c.takeLoose? kind = none)
    (hs : s.size < c.skipNewlines.size) : (s.move c).takeLoose? kind = none := by
  have skipped := s.skipNewlines_move (Nat.le_of_lt hs) (.inl hs)
  have none := s.takeIf_move_none (Option.map_eq_none_iff.mp h) hs
  rw [Cursor.takeLoose?, Option.map_eq_none_iff, skipped]
  exact none

/-! ### Reads -/

/-- What `read` reads up to a place that satisfies `F`, `read'` reads from the new list. -/
def Moves (F : Cursor → Prop) (read read' : Reader α) : Prop :=
  ∀ c p (hs : s.size ≤ p.rest.size), read c = .ok p → F p.rest →
    read' (s.move c) = .ok (s.moved p hs)

/-- The same for reads that may take no token. -/
def MaybeMoves (F : Cursor → Prop) (read read' : MaybeReader α) : Prop :=
  ∀ c p (hs : s.size ≤ p.rest.size), read c = .ok p → F p.rest →
    read' (s.move c) = .ok (s.movedMaybe p hs)

/-- The same for reads of what may not be there. -/
structure OptionMoves (F : Cursor → Prop) (read read' : OptionReader α) : Prop where
  goes : ∀ c p (hs : s.size ≤ p.rest.size), read c = .ok (some p) → F p.rest →
    read' (s.move c) = .ok (some (s.moved p hs))
  stops : ∀ c, s.size ≤ c.size → read c = .ok none → F c → read' (s.move c) = .ok none

variable {s} {F : Cursor → Prop}

section Sequence

variable {read read' : Reader β} {more more' : MaybeReader β}

theorem Moves.andThen (h : s.Moves F read read') {p : Parsed c α} {q : Parsed c β}
    (hq : p.andThen read = .ok q) (hs : s.size ≤ q.rest.size) (fits : F q.rest)
    (hp : s.size ≤ p.rest.size) : (s.moved p hp).andThen read' = .ok (s.moved q hs) := by
  obtain ⟨r, hr, rfl⟩ := map_eq_ok hq
  change (read' (s.move p.rest)).map _ = _
  rw [h p.rest r hs hr fits]
  rfl

theorem Moves.behindMaybe (h : s.Moves F read read') {p : MaybeParsed c α} {q : Parsed c β}
    (hq : p.andThen read = .ok q) (hs : s.size ≤ q.rest.size) (fits : F q.rest)
    (hp : s.size ≤ p.rest.size) : (s.movedMaybe p hp).andThen read' = .ok (s.moved q hs) := by
  obtain ⟨r, hr, rfl⟩ := map_eq_ok hq
  change (read' (s.move p.rest)).map _ = _
  rw [h p.rest r hs hr fits]
  rfl

theorem MaybeMoves.andMaybe (h : s.MaybeMoves F more more') {p : Parsed c α} {q : Parsed c β}
    (hq : p.andMaybe more = .ok q) (hs : s.size ≤ q.rest.size) (fits : F q.rest)
    (hp : s.size ≤ p.rest.size) : (s.moved p hp).andMaybe more' = .ok (s.moved q hs) := by
  obtain ⟨r, hr, rfl⟩ := map_eq_ok hq
  change (more' (s.move p.rest)).map _ = _
  rw [h p.rest r hs hr fits]
  rfl

theorem MaybeMoves.behindMaybe (h : s.MaybeMoves F more more') {p : MaybeParsed c α}
    {q : MaybeParsed c β} (hq : p.andMaybe more = .ok q) (hs : s.size ≤ q.rest.size)
    (fits : F q.rest) (hp : s.size ≤ p.rest.size) :
    (s.movedMaybe p hp).andMaybe more' = .ok (s.movedMaybe q hs) := by
  obtain ⟨r, hr, rfl⟩ := map_eq_ok hq
  change (more' (s.move p.rest)).map _ = _
  rw [h p.rest r hs hr fits]
  rfl

theorem Moves.loosely (h : s.Moves F read read') :
    s.Moves F (Grammar.loosely read) (Grammar.loosely read') := by
  intro c p hs hp fits
  obtain ⟨q, hq, rfl⟩ := map_eq_ok hp
  have inside : s.size < c.skipNewlines.size := Nat.lt_of_le_of_lt hs q.size_lt
  have skipped := s.skipNewlines_move (Nat.le_of_lt inside) (.inl inside)
  exact loosely_eq_ok skipped (h _ q hs hq fits) _

end Sequence

/-! ### Loops

A loop moves if each of its rounds does. Between two rounds `F` must hold, as it does at the end of
the loop: whatever a round leads to a place of `F` starts at one.
-/

/-- Rounds that lead to a place of `F` start at one. -/
def LeadsBack (s : Seam) (F : Cursor → Prop) (read : OptionReader α) : Prop :=
  ∀ c p, read c = .ok (some p) → s.size ≤ p.rest.size → F p.rest → F c

theorem LeadsBack.many {read : OptionReader β} (back : s.LeadsBack F read) :
    ∀ c p, Grammar.many read c = .ok p → s.size ≤ p.rest.size → F p.rest → F c := by
  intro c
  fun_induction Grammar.many read c with
  | case1 c e _ =>
    intro p hp
    cases hp
  | case2 c _ =>
    intro p hp _ fits
    cases hp
    exact fits
  | case3 c p hr e _ _ =>
    intro q hq
    cases hq
  | case4 c p hr q hq ih =>
    intro r hr' hs fits
    cases hr'
    exact back c p hr (Nat.le_trans hs q.size_le) (ih q hq hs fits)

theorem LeadsBack.iterate {read : β → OptionReader β} (back : ∀ v, s.LeadsBack F (read v)) :
    ∀ v c p, Grammar.iterate read v c = .ok p → s.size ≤ p.rest.size → F p.rest → F c := by
  intro v c
  fun_induction Grammar.iterate read v c with
  | case1 v c e _ =>
    intro p hp
    cases hp
  | case2 v c _ =>
    intro p hp _ fits
    cases hp
    exact fits
  | case3 v c p hr ih =>
    intro q hq hs fits
    obtain ⟨r, hr', rfl⟩ := map_eq_ok hq
    exact back v c p hr (Nat.le_trans hs r.size_le) (ih r hr' hs fits)

theorem OptionMoves.many {read read' : OptionReader β} (h : s.OptionMoves F read read')
    (back : s.LeadsBack F read) : s.MaybeMoves F (Grammar.many read) (Grammar.many read') := by
  intro c
  fun_induction Grammar.many read c with
  | case1 c e _ =>
    intro p hs hp
    cases hp
  | case2 c none =>
    intro p hs hp fits
    cases hp
    rw [Grammar.many, h.stops c hs none fits]
    rfl
  | case3 c p hr e _ _ =>
    intro q hs hq
    cases hq
  | case4 c p hr q hq ih =>
    intro r hs hr' fits
    cases hr'
    have inside : s.size ≤ p.rest.size := Nat.le_trans hs q.size_le
    have round := h.goes c p inside hr (back.many p.rest q hq hs fits)
    have more : Grammar.many read' (s.moved p inside).rest = _ := ih q hs hq fits
    rw [Grammar.many, round]
    dsimp only
    rw [more]
    rfl

theorem OptionMoves.iterate {read read' : β → OptionReader β}
    (h : ∀ v, s.OptionMoves F (read v) (read' v)) (back : ∀ v, s.LeadsBack F (read v)) (v : β) :
    s.MaybeMoves F (Grammar.iterate read v) (Grammar.iterate read' v) := by
  intro c
  fun_induction Grammar.iterate read v c with
  | case1 v c e _ =>
    intro p hs hp
    cases hp
  | case2 v c none =>
    intro p hs hp fits
    cases hp
    rw [Grammar.iterate, (h v).stops c hs none fits]
    rfl
  | case3 v c p hr ih =>
    intro q hs hq fits
    obtain ⟨r, hr', rfl⟩ := map_eq_ok hq
    have inside : s.size ≤ p.rest.size := Nat.le_trans hs r.size_le
    have round := (h v).goes c p inside hr (LeadsBack.iterate back p.value p.rest r hr' hs fits)
    have more : Grammar.iterate read' p.value (s.moved p inside).rest = _ := ih r hs hr' fits
    rw [Grammar.iterate, round]
    change (Grammar.iterate read' p.value (s.moved p inside).rest).map _ = _
    rw [more]
    rfl

/-! ### Single tokens -/

/-- The place where a read ends, where anything may follow. -/
def Anywhere (_ : Cursor) : Prop := True

theorem moves_expect (kind : Kind) (needed : Expectation) :
    s.Moves Anywhere (Cursor.expect kind needed) (Cursor.expect kind needed) := by
  intro c p hs h _
  unfold Cursor.expect at h ⊢
  split at h
  · rename_i q hq
    obtain rfl := Except.ok.inj h
    have taken : (s.move c).take? kind = _ := s.takeIf_move hq hs
    rw [taken]
  · cases h

/-! ### Reading on behind a token -/

theorem OptionMoves.behind {opening : (c : Cursor) → Option (Parsed c Token)}
    {read read' : Reader β} (h : s.Moves F read read')
    (found : ∀ c p (hs : s.size < p.rest.size), opening c = some p →
      opening (s.move c) = some (s.moved p (Nat.le_of_lt hs)))
    (missing : ∀ c, s.size ≤ c.size → F c → opening c = none → opening (s.move c) = none) :
    s.OptionMoves F (fun c => Grammar.behind (opening c) read)
      (fun c => Grammar.behind (opening c) read') where
  goes c p hs hp fits := by
    obtain ⟨first, hfirst, hq⟩ := of_behind hp
    have inside : s.size < first.rest.size := Nat.lt_of_le_of_lt hs (Parsed.size_andThen hq)
    change Grammar.behind (opening (s.move c)) read' = _
    rw [found c first inside hfirst]
    change ((s.moved first _).andThen read').map some = _
    rw [h.andThen hq hs fits]
    rfl
  stops c hs hc fits := by
    rw [missing c hs fits (of_behind_none hc)]
    rfl

/-! ### Where an expression may end -/

/-- Whether an expression that ends at a place of the old list, read with the permission `blocks`
for a block to attach, ends there in the new list too, read with the permission `blocks'`: nothing
goes on in the new list, or both lists have the same two tokens next. -/
def Fits (s : Seam) (blocks blocks' : Bool) (d : Cursor) : Prop :=
  stopsAt blocks' (s.move d).peek.kind ∧ (blocks = true → d.sees .kwDo → d.rest ≠ []) ∨
    s.size + 2 ≤ d.size ∧ (blocks' = true → blocks = true ∨ d.peek.kind ≠ .kwDo)

section Fits

variable {blocks blocks' : Bool}

theorem fits_of_stops (h : s.size < d.size) (stops : stopsAt blocks' d.peek.kind) :
    s.Fits blocks blocks' d := by
  left
  refine ⟨by rwa [s.peek_move h], ?_⟩
  rintro - - empty
  rw [Cursor.size, empty] at h
  cases h

theorem fits_of_two (h : s.size + 2 ≤ d.size) : s.Fits blocks blocks d := .inr ⟨h, .inl⟩

theorem Fits.withoutBlocks (h : s.Fits blocks blocks' d) : s.Fits false false d := by
  rcases h with ⟨stops, -⟩ | ⟨two, -⟩
  · exact .inl ⟨stopsAt_false stops, fun h => (by cases h)⟩
  · exact fits_of_two two

/-- A token that cannot stop an expression is missing in both lists. -/
theorem Fits.take_none (h : s.Fits blocks blocks' d) {kind : Kind}
    (hk : stopsAt blocks' kind = false) (missing : d.take? kind = none) :
    (s.move d).take? kind = none := by
  rcases h with ⟨stops, -⟩ | ⟨two, -⟩
  · exact take_of_stops stops hk
  · exact s.takeIf_move_none missing (by omega)

/-- Where no block attaches in the old list, none does in the new one. -/
theorem Fits.block_none (h : s.Fits blocks blocks' d)
    (missing : (if blocks then d.take? .kwDo else none) = none) :
    (if blocks' then (s.move d).take? .kwDo else none) = none := by
  cases blocks' with
  | false => rfl
  | true =>
    rcases h with ⟨stops, -⟩ | ⟨two, other⟩
    · exact take_of_stops stops rfl
    · rcases other rfl with rfl | other
      · exact s.takeIf_move_none (if_pos rfl ▸ missing) (by omega)
      · have unseen : ((s.move d).peek.kind == .kwDo) = false := by
          rw [s.peek_move (by omega)]
          simpa using other
        simp [Cursor.take?, Cursor.takeIf?, unseen]

/-- Where an expression ends and no block may attach or none is there, none is in the new list. -/
theorem Fits.sees_block (h : s.Fits blocks blocks' d)
    (unseen : (blocks && d.sees .kwDo) = false) : (blocks' && (s.move d).sees .kwDo) = false := by
  cases blocks' with
  | false => rfl
  | true =>
    rw [Bool.true_and]
    rcases h with ⟨stops, -⟩ | ⟨two, other⟩
    · exact sees_of_stops stops rfl
    · rw [s.sees_move (by omega)]
      rcases other rfl with rfl | other
      · exact unseen
      · simpa [Cursor.sees] using other

/-- Rounds that take two tokens or more, of which the first is not `do`. -/
theorem leadsBack_of_two {read : OptionReader α}
    (h : ∀ c p, read c = .ok (some p) → p.rest.size + 2 ≤ c.size ∧ c.peek.kind ≠ .kwDo) :
    s.LeadsBack (s.Fits blocks blocks') read := by
  intro c p hp hs _
  obtain ⟨two, other⟩ := h c p hp
  exact .inr ⟨by omega, fun _ => .inr other⟩

end Fits

end Seam
end CallAtlas.Grammar
