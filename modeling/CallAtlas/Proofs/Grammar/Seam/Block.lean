import CallAtlas.Proofs.Grammar.Seam.Arguments

/-! # Blocks before a seam

A block moves where one more token stands before the seam, as `end` does. So `do` blocks and
anonymous functions move whatever is put behind them.
-/
namespace CallAtlas.Grammar

open Seam

variable {s : Seam} {c : Cursor} {expr expr' : Expr} {blocks blocks' : Bool}

theorem stopsAt_of_atBlockEnd (h : c.atBlockEnd) : stopsAt true c.peek.kind := by
  unfold Cursor.atBlockEnd Cursor.atEnd Cursor.sees at h
  cases hk : c.peek.kind <;> simp_all [stopsAt, Kind.isSection]

/-- A place from which line breaks lead to a token before the seam. -/
def Seam.LineEnd (s : Seam) (d : Cursor) : Prop := s.size < d.skipNewlines.size

theorem Seam.LineEnd.inside (h : s.LineEnd c) : s.size < c.size :=
  Nat.lt_of_lt_of_le h c.size_skipNewlines_le

theorem Seam.LineEnd.skipNewlines (h : s.LineEnd c) :
    (s.move c).skipNewlines = s.move c.skipNewlines :=
  s.skipNewlines_move (Nat.le_of_lt h) (.inl h)

/-- A place before the seam. -/
def Seam.Before (s : Seam) (d : Cursor) : Prop := s.size < d.size

theorem moves_line (he : s.ExprMoves expr expr') :
    s.Moves s.Before (line expr) (line expr') := by
  intro c p hs h fits
  have seen := s.peek_move (Nat.lt_of_le_of_lt hs p.size_lt)
  unfold line at h ⊢
  rw [seen]
  split at h
  · rename_i arrow harrow
    obtain rfl := Except.ok.inj h
    have taken : (s.move c).take? .arrow = _ := s.takeIf_move harrow hs
    rw [taken]
    rfl
  · rename_i missing
    have none : (s.move c).take? .arrow = none :=
      s.takeIf_move_none missing (Nat.lt_of_le_of_lt hs p.size_lt)
    rw [none]
    obtain ⟨first, hfirst, h⟩ := bind_eq_ok h
    obtain ⟨more, hmore, h⟩ := bind_eq_ok h
    have start (stops : stopsAt true more.rest.peek.kind) (inside : s.size < more.rest.size) :
        ∃ inside₁ inside₂, expr' 0 true (s.move c) = .ok (s.moved first inside₁) ∧
          (s.moved first inside₁).andMaybe (moreArguments expr' true) =
            .ok (s.moved more inside₂) := by
      have inside₁ := Nat.le_of_lt (Nat.lt_of_lt_of_le inside (Parsed.size_andMaybe hmore))
      have last : s.Fits true true more.rest := fits_of_stops inside stops
      have between : s.Fits true true first.rest := by
        obtain ⟨others, hothers, rfl⟩ := map_eq_ok hmore
        exact fits_of_moreArguments hothers (Nat.le_of_lt inside) last
      exact ⟨inside₁, Nat.le_of_lt inside, he.moves 0 id c first inside₁ hfirst between,
        (moves_moreArguments he id).andMaybe hmore _ last inside₁⟩
    split at h
    · rename_i arrow harrow
      obtain rfl := Except.ok.inj h
      have behind : s.size ≤ arrow.rest.size := hs
      have inside : s.size < more.rest.size := Nat.lt_of_le_of_lt hs arrow.size_lt
      have stops : stopsAt true more.rest.peek.kind := by
        rw [Cursor.peek_of_take harrow]
        rfl
      obtain ⟨_, inside₂, hfirst, hmore⟩ := start stops inside
      have taken : (s.moved more inside₂).rest.take? .arrow = _ := s.takeIf_move harrow behind
      refine bind_of_ok hfirst (bind_of_ok hmore ?_)
      rw [taken]
      rfl
    · rename_i noArrow
      split at h
      · cases h
      · rename_i single
        split at h
        · rename_i ends
          obtain rfl := Except.ok.inj h
          have inside : s.size < more.rest.size := fits
          have stops : stopsAt true more.rest.peek.kind := by
            rcases Bool.or_eq_true_iff.mp ends with newline | atEnd
            · rw [show more.rest.peek.kind = .newline from beq_iff_eq.mp newline]
              rfl
            · exact stopsAt_of_atBlockEnd atEnd
          obtain ⟨_, inside₂, hfirst, hmore⟩ := start stops inside
          have none : (s.moved more inside₂).rest.take? .arrow = .none :=
            s.takeIf_move_none noArrow inside
          have ends' : ((s.moved more inside₂).rest.sees .newline ||
              (s.moved more inside₂).rest.atBlockEnd) = true := by
            change ((s.move more.rest).sees .newline || (s.move more.rest).atBlockEnd) = true
            rwa [s.sees_move inside, s.atBlockEnd_move inside]
          refine bind_of_ok hfirst (bind_of_ok hmore ?_)
          rw [none]
          exact (if_neg single).trans (if_pos ends')
        · cases h

theorem leadsBack_nextLine : s.LeadsBack s.LineEnd (nextLine expr) := by
  intro c p h hs _
  unfold nextLine at h
  split at h
  · cases h
  · exact Nat.lt_of_le_of_lt hs (size_loosely (eq_ok_of_map_some h))

theorem moves_nextLine (he : s.ExprMoves expr expr') :
    s.OptionMoves s.LineEnd (nextLine expr) (nextLine expr') where
  goes c p hs h fits := by
    have start : s.LineEnd c := leadsBack_nextLine c p h hs fits
    unfold nextLine at h ⊢
    rw [start.skipNewlines, s.atBlockEnd_move start]
    split at h
    · cases h
    · rename_i more
      rw [if_neg more]
      exact map_of_ok ((moves_line he).loosely c p hs (eq_ok_of_map_some h) fits.inside)
  stops c hs h fits := by
    unfold nextLine at h ⊢
    rw [fits.skipNewlines, s.atBlockEnd_move fits]
    split at h
    · rename_i ends
      rw [if_pos ends]
    · obtain ⟨_, _, h⟩ := map_eq_ok h
      cases h

theorem moves_block (he : s.ExprMoves expr expr') :
    s.MaybeMoves s.Before (block expr) (block expr') := by
  intro c p hs h fits
  obtain ⟨lines, hlines, h⟩ := bind_eq_ok h
  obtain rfl := Except.ok.inj h
  have last : s.LineEnd lines.rest := fits
  have inside := Nat.le_of_lt last.inside
  have carried := (moves_nextLine he).many leadsBack_nextLine c lines inside hlines last
  have seen := s.peek_move (Nat.lt_of_lt_of_le last.inside lines.size_le)
  refine bind_of_ok carried ?_
  have skipped : (s.movedMaybe lines inside).skipNewlines =
      s.movedMaybe lines.skipNewlines hs := by
    simp only [MaybeParsed.skipNewlines, MaybeParsed.map, MaybeParsed.followedBy, Cursor.newlines,
      movedMaybe, last.skipNewlines]
  rw [skipped, seen]
  rfl

theorem moves_doSection (he : s.ExprMoves expr expr') (name : Bytes) (span : Span) :
    s.MaybeMoves s.Before (doSection expr name span) (doSection expr' name span) := by
  intro c p hs h fits
  obtain ⟨body, hbody, h⟩ := bind_eq_ok h
  obtain rfl := Except.ok.inj h
  exact bind_of_ok (moves_block he c body hs hbody fits) rfl

theorem leadsBack_nextSection : s.LeadsBack s.Before (nextSection expr) := by
  intro c p _ hs _
  exact Nat.lt_of_le_of_lt hs p.size_lt

theorem moves_nextSection (he : s.ExprMoves expr expr') :
    s.OptionMoves s.Before (nextSection expr) (nextSection expr') where
  goes c p hs h fits := by
    unfold nextSection at h ⊢
    split at h
    · rename_i word hword
      have hp := eq_ok_of_map_some h
      have inside : s.size ≤ word.rest.size := Nat.le_trans hs (Parsed.size_andMaybe hp)
      have body := (moves_doSection he _ _).andMaybe hp hs fits inside
      rw [s.takeIf_move hword inside]
      exact map_of_ok body
    · cases h
  stops c hs h fits := by
    unfold nextSection at h ⊢
    split at h
    · obtain ⟨_, _, h⟩ := map_eq_ok h
      cases h
    · rename_i missing
      rw [s.takeIf_move_none missing fits]

theorem moves_doBlock (he : s.ExprMoves expr expr') (opening : Token) :
    s.Moves Anywhere (doBlock expr opening) (doBlock expr' opening) := by
  intro c p hs h _
  obtain ⟨first, hfirst, h⟩ := bind_eq_ok h
  obtain ⟨more, hmore, h⟩ := bind_eq_ok h
  obtain ⟨last, hlast, h⟩ := bind_eq_ok h
  have size₂ := MaybeParsed.size_andMaybe hmore
  have size₃ := MaybeParsed.size_andThen hlast
  obtain rfl := Except.ok.inj h
  have before₂ : s.Before more.rest := Nat.lt_of_le_of_lt hs size₃
  have before₁ : s.Before first.rest := Nat.lt_of_lt_of_le before₂ size₂
  have start := moves_doSection he _ _ c first (Nat.le_of_lt before₁) hfirst before₁
  have sections := ((moves_nextSection he).many leadsBack_nextSection).behindMaybe hmore
    (Nat.le_of_lt before₂) before₂ (Nat.le_of_lt before₁)
  have stop := (moves_expect _ _).behindMaybe hlast hs trivial (Nat.le_of_lt before₂)
  exact bind_of_ok start (bind_of_ok sections (bind_of_ok stop rfl))

/-- Where a call ends with its block, or without one, one may end before the block. -/
theorem fits_of_attach {call : Tree} {p : MaybeParsed c Tree}
    (h : attach expr blocks call c = .ok p) (hs : s.size ≤ p.rest.size)
    (fits : s.Fits blocks blocks' p.rest) : s.Fits blocks blocks' c := by
  unfold attach at h
  split at h
  · rename_i opening hopening
    obtain ⟨body, hbody, h⟩ := bind_eq_ok h
    have shorter := Parsed.size_andThen hbody
    obtain rfl := Except.ok.inj h
    have inside : s.size ≤ body.rest.size := hs
    have size := opening.size_lt
    refine .inr ⟨by omega, fun _ => .inl ?_⟩
    cases blocks with
    | true => rfl
    | false => cases hopening
  · obtain rfl := Except.ok.inj h
    exact fits

theorem moves_attach (he : s.ExprMoves expr expr') (hb : blocks = true → blocks' = true)
    (call : Tree) :
    s.MaybeMoves (s.Fits blocks blocks') (attach expr blocks call)
      (attach expr' blocks' call) := by
  intro c p hs h fits
  unfold attach at h ⊢
  split at h
  · rename_i opening hopening
    obtain ⟨body, hbody, h⟩ := bind_eq_ok h
    have shorter := Parsed.size_andThen hbody
    obtain rfl := Except.ok.inj h
    have inside : s.size ≤ opening.rest.size := Nat.le_trans hs (Nat.le_of_lt shorter)
    have taken : (if blocks' then (s.move c).take? .kwDo else none) =
        some (s.moved opening inside) := by
      split at hopening
      · rename_i permit
        rw [if_pos (hb permit)]
        exact s.takeIf_move hopening inside
      · cases hopening
    have inner := (moves_doBlock he opening.value).andThen hbody hs trivial inside
    rw [taken]
    exact bind_of_ok inner rfl
  · rename_i missing
    obtain rfl := Except.ok.inj h
    have none := Fits.block_none (d := c) fits missing
    rw [none]
    rfl

theorem moves_fn (he : s.ExprMoves expr expr') (opening : Token) :
    s.Moves Anywhere (fn expr opening) (fn expr' opening) := by
  intro c p hs h _
  obtain ⟨body, hbody, h⟩ := bind_eq_ok h
  obtain ⟨last, hlast, h⟩ := bind_eq_ok h
  have shorter := MaybeParsed.size_andThen hlast
  dsimp only at h
  split at h
  · cases h
  · rename_i clauses
    split at h
    · cases h
    · rename_i nonempty
      obtain rfl := Except.ok.inj h
      have before : s.Before body.rest := Nat.lt_of_le_of_lt hs shorter
      have start := moves_block he c body (Nat.le_of_lt before) hbody before
      have stop := (moves_expect _ _).behindMaybe hlast hs trivial (Nat.le_of_lt before)
      refine bind_of_ok start (bind_of_ok stop ?_)
      dsimp only [movedMaybe]
      rw [clauses]
      exact if_neg nonempty

end CallAtlas.Grammar
