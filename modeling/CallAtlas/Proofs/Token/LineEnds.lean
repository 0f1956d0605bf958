import Mathlib.Data.List.TakeWhile
import CallAtlas.Proofs.Token.Lookahead

/-! # Gaps with more at the end of a line

Blanks and a comment in front of a line feed make a gap longer, and nothing else of it changes.
There is one exception: a line that continues the one before may start with the words `when`, `and`
and `or`, but they are only found with a space behind them. Such a word that is alone on its line
continues the line before if there is a space at the end of its line.

Below, `y` is the text up to a line feed, `v` the text behind it and `w` what is added in front of
it.
-/
namespace CallAtlas.Lexer

/-- Blanks at the end of a line, and perhaps a comment behind them. -/
def Trailing (w : Bytes) : Prop :=
  ∃ blanks comment, w = blanks ++ comment ∧ blanks ≠ [] ∧ (∀ b ∈ blanks, isBlank b) ∧
    (comment = [] ∨ ∃ line, comment = ('#' : UInt8) :: line ∧ ('\n' : UInt8) ∉ line)

theorem endsLine_feed (v : Bytes) : EndsLine ('\n' :: v) :=
  ⟨[], '\n', v, rfl, nofun, .inl rfl⟩

theorem Trailing.endsLine {w : Bytes} (h : Trailing w) (v : Bytes) :
    EndsLine (w ++ ('\n' : UInt8) :: v) := by
  obtain ⟨blanks, comment, rfl, ne, blank, rfl | ⟨line, rfl, -⟩⟩ := h
  · exact ⟨blanks, '\n', v, by simp, blank, .inl rfl⟩
  · exact ⟨blanks, '#', line ++ ('\n' : UInt8) :: v, by simp, blank, .inr ⟨rfl, ne⟩⟩

theorem Trailing.ne_nil {w : Bytes} (h : Trailing w) : w ≠ [] := by
  obtain ⟨blanks, comment, rfl, ne, -⟩ := h
  simp [ne]

theorem not_isBlank_feed : isBlank '\n' = false := by decide

theorem Trailing.not_mem_feed {w : Bytes} (h : Trailing w) : ('\n' : UInt8) ∉ w := by
  obtain ⟨blanks, comment, rfl, -, blank, hcomment⟩ := h
  intro feed
  rcases List.mem_append.mp feed with feed | feed
  · have := blank _ feed
    rw [not_isBlank_feed] at this
    cases this
  · rcases hcomment with rfl | ⟨line, rfl, none⟩
    · cases feed
    · rcases List.mem_cons.mp feed with feed | feed
      · exact absurd feed (by decide)
      · exact none feed

/-! ### Blanks, comments and blank lines -/

theorem commentWidth_of_not_mem {line : Bytes} (h : ('\n' : UInt8) ∉ line) (v : Bytes) :
    commentWidth (line ++ ('\n' : UInt8) :: v) = line.length := by
  unfold commentWidth
  rw [List.takeWhile_append_of_pos]
  · simp
  · intro b hb
    simp only [bne_iff_ne, ne_eq]
    rintro rfl
    exact h hb

/-- A comment ends at the first line feed, whatever stands behind it. -/
theorem commentWidth_of_mem {line : Bytes} (h : ('\n' : UInt8) ∈ line) (t : Bytes) :
    commentWidth (line ++ t) = commentWidth line ∧ commentWidth line < line.length := by
  unfold commentWidth
  have ends : (line.takeWhile fun (b : UInt8) => b != '\n').length ≠ line.length := by
    intro full
    have all := List.takeWhile_prefix (fun (b : UInt8) => b != '\n') (l := line)
    have whole := all.eq_of_length full
    have inLine := List.takeWhile_eq_self_iff.mp whole _ h
    simp at inLine
  have le := length_takeWhile_le (fun (b : UInt8) => b != '\n') line
  rw [List.takeWhile_append, if_neg ends]
  omega

theorem blanks_blank {b : UInt8} (h : isBlank b) (bs : Bytes) :
    blanks (b :: bs) = ((blanks bs).1 + 1, true) := by
  rw [blanks, if_pos h]

theorem blanks_comment (bs : Bytes) :
    blanks ('#' :: bs) = ((blanks (bs.drop (commentWidth bs))).1 + commentWidth bs + 1,
      (blanks (bs.drop (commentWidth bs))).2) := by
  rw [blanks, if_neg (by decide), if_pos rfl]

theorem blanks_joined (bs : Bytes) : blanks ('\\' :: '\n' :: bs) = ((blanks bs).1 + 2, true) := by
  rw [blanks, if_neg (by decide), if_neg (by decide), if_pos ⟨rfl, rfl⟩]
  rfl

theorem blanks_solid {b : UInt8} {bs : Bytes} (blank : ¬ isBlank b) (hash : b ≠ '#')
    (joined : ¬ (b = '\\' ∧ bs.head? = some ('\n' : UInt8))) : blanks (b :: bs) = (0, false) := by
  rw [blanks, if_neg blank, if_neg hash, if_neg joined]

theorem blanks_feed (v : Bytes) : blanks ('\n' :: v) = (0, false) :=
  blanks_solid (by decide) (by decide) (by rintro ⟨h, -⟩; exact absurd h (by decide))

theorem blankLines_feed (v : Bytes) : blankLines ('\n' :: v) = blankLines v + 1 := by
  rw [blankLines, if_pos (.inl rfl)]

theorem blankLines_blank {b : UInt8} (h : isBlank b) (bs : Bytes) :
    blankLines (b :: bs) = blankLines bs + 1 := by
  rw [blankLines, if_pos (.inr h)]

theorem blankLines_comment (bs : Bytes) :
    blankLines ('#' :: bs) = blankLines (bs.drop (commentWidth bs)) + commentWidth bs + 1 := by
  rw [blankLines, if_neg (by decide), if_pos rfl]

variable {w : Bytes}

theorem width_blanks_trailing (h : Trailing w) (v : Bytes) :
    (blanks (w ++ ('\n' : UInt8) :: v)).1 = w.length := by
  obtain ⟨front, comment, rfl, -, blank, hcomment⟩ := h
  induction front with
  | nil =>
    rcases hcomment with rfl | ⟨line, rfl, none⟩
    · rw [List.append_nil, List.nil_append, blanks_feed]
      rfl
    · rw [List.nil_append, List.cons_append, blanks_comment, commentWidth_of_not_mem none,
        List.drop_left, blanks_feed]
      simp
  | cons b front ih =>
    have rest := ih fun b hb => blank b (List.mem_cons_of_mem _ hb)
    simp only [List.cons_append, blanks_blank (blank b (by simp)), rest, List.length_cons]

theorem blankLines_trailing (h : Trailing w) (v : Bytes) :
    blankLines (w ++ ('\n' : UInt8) :: v) = blankLines ('\n' :: v) + w.length := by
  obtain ⟨front, comment, rfl, -, blank, hcomment⟩ := h
  induction front with
  | nil =>
    rcases hcomment with rfl | ⟨line, rfl, none⟩
    · simp
    · rw [List.nil_append, List.cons_append, blankLines_comment, commentWidth_of_not_mem none,
        List.drop_left, List.length_cons]
      omega
  | cons b front ih =>
    have rest := ih fun b hb => blank b (List.mem_cons_of_mem _ hb)
    simp only [List.cons_append, blankLines_blank (blank b (by simp)), rest, List.length_cons]
    omega

/-- Blanks that end before the line feed stay as they are, and those that go on up to it take in
what is added there. -/
theorem blanks_append (h : Trailing w) {y v : Bytes}
    (le : (blanks (y ++ ('\n' : UInt8) :: v)).1 ≤ y.length) :
    ((blanks (y ++ ('\n' : UInt8) :: v)).1 < y.length ∧
        blanks (y ++ (w ++ ('\n' : UInt8) :: v)) = blanks (y ++ ('\n' : UInt8) :: v)) ∨
      ((blanks (y ++ ('\n' : UInt8) :: v)).1 = y.length ∧
        (blanks (y ++ (w ++ ('\n' : UInt8) :: v))).1 = y.length + w.length) := by
  fun_induction blanks y with
  | case1 =>
    right
    rw [List.nil_append, List.nil_append, blanks_feed, width_blanks_trailing h]
    simp
  | case2 b more hb _ _ _ ih =>
    simp only [List.cons_append, blanks_blank hb, List.length_cons, Nat.add_le_add_iff_right,
      Nat.add_lt_add_iff_right, Nat.add_right_cancel_iff, Prod.mk.injEq, and_true] at le ⊢
    rcases ih le with ⟨lt, same⟩ | ⟨full, longer⟩
    · exact .inl ⟨lt, by rw [same]⟩
    · exact .inr ⟨full, by omega⟩
  | case3 more comment width spaced heq hblank ih =>
    simp only [List.cons_append, blanks_comment, List.length_cons] at le ⊢
    by_cases feed : ('\n' : UInt8) ∈ more
    · -- The comment ends within `y`, and so its end is the same.
      obtain ⟨-, lt⟩ := commentWidth_of_mem feed []
      rw [(commentWidth_of_mem feed _).1, List.drop_append_of_le_length lt.le] at le ⊢
      rw [(commentWidth_of_mem feed _).1, List.drop_append_of_le_length lt.le]
      unfold comment at ih
      rw [List.length_drop] at ih
      rcases ih (by omega) with ⟨lt', same⟩ | ⟨full, longer⟩
      · exact .inl ⟨by omega, by rw [same]⟩
      · exact .inr ⟨by omega, by omega⟩
    · -- The comment goes on up to the line feed.
      have added : ('\n' : UInt8) ∉ more ++ w := by
        simp [feed, h.not_mem_feed]
      right
      rw [commentWidth_of_not_mem feed, List.drop_left, blanks_feed, ← List.append_assoc,
        commentWidth_of_not_mem added, List.drop_left, blanks_feed, List.length_append]
      omega
  | case4 b more hblank hhash hjoin _ _ _ ih =>
    obtain ⟨rfl, hfeed⟩ := hjoin
    obtain ⟨rest, rfl⟩ := List.head?_eq_some_iff.mp hfeed
    simp only [List.cons_append, blanks_joined, List.length_cons, List.drop_succ_cons,
      List.drop_zero] at le ih ⊢
    rcases ih (by omega) with ⟨lt, same⟩ | ⟨full, longer⟩
    · exact .inl ⟨by omega, by rw [same]⟩
    · exact .inr ⟨by omega, by omega⟩
  | case5 b more hblank hhash hjoin =>
    -- A backslash at the end of `y` would join the lines and take the line feed in.
    have solid : ∀ t, blanks (b :: more ++ t) = (0, false) := by
      intro t
      refine blanks_solid hblank hhash ?_
      cases more with
      | cons c more => exact hjoin
      | nil =>
        rintro ⟨rfl, -⟩
        simp only [List.cons_append, List.nil_append, blanks_joined, List.length_cons,
          List.length_nil] at le
        omega
    rw [solid, solid]
    exact .inl ⟨Nat.succ_pos _, rfl⟩

/-- Blank lines that end before the line feed stay as they are, and those that go on up to it take
in what is added there. -/
theorem blankLines_append (h : Trailing w) (y v : Bytes) :
    (blankLines (y ++ ('\n' : UInt8) :: v) < y.length ∧
        blankLines (y ++ (w ++ ('\n' : UInt8) :: v)) = blankLines (y ++ ('\n' : UInt8) :: v)) ∨
      (y.length < blankLines (y ++ ('\n' : UInt8) :: v) ∧
        blankLines (y ++ (w ++ ('\n' : UInt8) :: v)) =
          blankLines (y ++ ('\n' : UInt8) :: v) + w.length) := by
  fun_induction blankLines y with
  | case1 =>
    right
    rw [List.nil_append, List.nil_append, blankLines_trailing h, blankLines_feed]
    exact ⟨Nat.succ_pos _, rfl⟩
  | case2 b more hb ih =>
    have step : ∀ t, blankLines (b :: more ++ t) = blankLines (more ++ t) + 1 := by
      intro t
      rw [List.cons_append, blankLines, if_pos hb]
    rw [step, step, List.length_cons]
    omega
  | case3 more comment hb ih =>
    simp only [List.cons_append, blankLines_comment, List.length_cons]
    by_cases feed : ('\n' : UInt8) ∈ more
    · obtain ⟨-, lt⟩ := commentWidth_of_mem feed []
      unfold comment at ih
      rw [List.length_drop] at ih
      rw [(commentWidth_of_mem feed _).1, List.drop_append_of_le_length lt.le,
        (commentWidth_of_mem feed _).1, List.drop_append_of_le_length lt.le]
      omega
    · have added : ('\n' : UInt8) ∉ more ++ w := by
        simp [feed, h.not_mem_feed]
      right
      rw [commentWidth_of_not_mem feed, List.drop_left, blankLines_feed, ← List.append_assoc,
        commentWidth_of_not_mem added, List.drop_left, blankLines_feed, List.length_append]
      omega
  | case4 b more hb hhash =>
    have step : ∀ t, blankLines (b :: more ++ t) = 0 := by
      intro t
      rw [List.cons_append, blankLines, if_neg hb, if_neg hhash]
    rw [step, step, List.length_cons]
    omega

/-! ### Lines that continue the line before -/

/-- The words that continue the line before, if they have a space behind them. -/
def continuingWords : List Bytes := [text "when", text "and", text "or"]

/-- What else a continuing line starts with. -/
def continuingMarks : List Bytes := [text "|>", text "<>", text "++", text "&&", text "||"]

theorem continuations_eq :
    continuations = continuingMarks ++ continuingWords.map (· ++ [(' ' : UInt8)]) := by
  decide

/-- A word with a space behind it. -/
theorem isPrefixOf_word {word : Bytes} {r : Bytes} (h : EndsLine r)
    (stops : ∀ b ∈ lineEndBytes, b ∉ word) (y : Bytes) :
    (word ++ [(' ' : UInt8)]).isPrefixOf (y ++ r) =
      ((word ++ [(' ' : UInt8)]).isPrefixOf y || (y == word && r.head? == some (' ' : UInt8))) := by
  obtain ⟨b, more, rfl, hb⟩ := h.exists_cons
  have absent := stops b hb
  clear stops
  induction word generalizing y with
  | nil =>
    cases y with
    | nil => simp [List.isPrefixOf, eq_comm]
    | cons c y => simp [List.isPrefixOf]
  | cons c word ih =>
    rw [List.mem_cons, not_or] at absent
    cases y with
    | nil => simp [List.isPrefixOf, Ne.symm absent.1]
    | cons d y =>
      have rest := ih y absent.2
      simp only [List.cons_append, List.isPrefixOf, rest]
      by_cases same : d = c
      · subst same
        simp
      · have other : c ≠ d := Ne.symm same
        simp [beq_eq_false_iff_ne.mpr same, beq_eq_false_iff_ne.mpr other]

theorem isSome_firstOf (choices : List Bytes) (bs : Bytes) :
    (Scan.firstOf choices bs).isSome = choices.any (·.isPrefixOf bs) := by
  rw [Bool.eq_iff_iff]
  simp [Scan.firstOf]

/-- At the end of a line, a continuing word alone is found only if a space stands behind it. -/
theorem continuesPrevious_append {r : Bytes} (h : EndsLine r) (y : Bytes) :
    continuesPrevious (y ++ r) =
      (continuesPrevious y || decide (y ∈ continuingWords ∧ r.head? = some (' ' : UInt8))) := by
  have stops : ∀ word ∈ continuingWords, ∀ b ∈ lineEndBytes, b ∉ word := by decide
  have marks : continuingMarks.any (·.isPrefixOf (y ++ r)) =
      continuingMarks.any (·.isPrefixOf y) := by
    rw [← isSome_firstOf, ← isSome_firstOf, h.firstOf_append (by decide)]
  have words : (continuingWords.any fun word => (word ++ [(' ' : UInt8)]).isPrefixOf (y ++ r)) =
      ((continuingWords.any fun word => (word ++ [(' ' : UInt8)]).isPrefixOf y) ||
        decide (y ∈ continuingWords ∧ r.head? = some (' ' : UInt8))) := by
    rw [Bool.eq_iff_iff]
    simp only [List.any_eq_true, Bool.or_eq_true, decide_eq_true_eq]
    constructor
    · rintro ⟨word, hword, found⟩
      rw [isPrefixOf_word h (stops word hword), Bool.or_eq_true, Bool.and_eq_true] at found
      rcases found with found | ⟨same, space⟩
      · exact .inl ⟨word, hword, found⟩
      · exact .inr ⟨beq_iff_eq.mp same ▸ hword, beq_iff_eq.mp space⟩
    · rintro (⟨word, hword, found⟩ | ⟨hword, space⟩)
      · exact ⟨word, hword, by rw [isPrefixOf_word h (stops word hword), found, Bool.true_or]⟩
      · exact ⟨y, hword, by simp [isPrefixOf_word h (stops y hword), space]⟩
  have dot : (Scan.peek (y ++ r) 0 == '.' && Scan.peek (y ++ r) 1 != '.') =
      (Scan.peek y 0 == '.' && Scan.peek y 1 != '.') :=
    Scan.ask_two_append h (· == '.') (· != '.') (by decide) (by decide) (Nat.zero_le _)
  unfold continuesPrevious
  rw [dot, isSome_firstOf, isSome_firstOf, continuations_eq, List.any_append, List.any_append,
    List.any_map, List.any_map, marks]
  simp only [Function.comp_def, words]
  grind

theorem continuesPrevious_feed (y v : Bytes) :
    continuesPrevious (y ++ ('\n' : UInt8) :: v) = continuesPrevious y := by
  rw [continuesPrevious_append (endsLine_feed v)]
  have space : ¬ (y ∈ continuingWords ∧ (('\n' : UInt8) :: v).head? = some (' ' : UInt8)) :=
    fun h => absurd (Option.some.inj h.2) (by decide)
  rw [decide_eq_false space, Bool.or_false]

theorem continuesPrevious_trailing (h : Trailing w) (y v : Bytes) :
    continuesPrevious (y ++ (w ++ ('\n' : UInt8) :: v)) =
      (continuesPrevious y || decide (y ∈ continuingWords ∧ w.head? = some (' ' : UInt8))) := by
  obtain ⟨c, rest, rfl⟩ := List.exists_cons_of_ne_nil h.ne_nil
  exact continuesPrevious_append (h.endsLine v) y

/-! ### Gaps -/

theorem gap_of_feed {bs more : Bytes} (last : Kind)
    (h : bs.drop (blanks bs).1 = ('\n' : UInt8) :: more) :
    gap last bs =
      let rest := more.drop (blankLines more)
      if rest.isEmpty || last.continuesLine || continuesPrevious rest then
        (gap last rest).after ((blanks bs).1 + 1 + blankLines more) (blanks bs).2 true
      else
        { width := (blanks bs).1, spaced := (blanks bs).2, broken := true,
          ending := some (1 + blankLines more) } := by
  rw [gap]
  split
  rename_i width spaced hblanks
  rw [hblanks] at h ⊢
  dsimp only at h ⊢
  split
  · rename_i b more' found
    obtain ⟨rfl, rfl⟩ := List.cons.inj (h.symm.trans found)
    rw [if_pos rfl]
  · rename_i found
    cases h.symm.trans found

theorem gap_of_solid {bs : Bytes} (last : Kind)
    (h : (bs.drop (blanks bs).1).head? ≠ some ('\n' : UInt8)) :
    gap last bs = { width := (blanks bs).1, spaced := (blanks bs).2 } := by
  rw [gap]
  split
  rename_i width spaced hblanks
  rw [hblanks] at h ⊢
  dsimp only at h ⊢
  split
  · rename_i b more found
    rw [found] at h
    have solid : b ≠ '\n' := fun feed => h (congrArg some feed)
    rw [if_neg solid]
  · rfl

/-- A byte that cannot stand in a gap has none before it. -/
theorem gap_cons_solid {b : UInt8} (solid : !isBlank b && b != '#' && b != '\\' && b != '\n')
    (last : Kind) (bs : Bytes) : gap last (b :: bs) = {} := by
  simp only [Bool.and_eq_true, Bool.not_eq_true', bne_iff_ne, ne_eq] at solid
  obtain ⟨⟨⟨blank, hash⟩, backslash⟩, feed⟩ := solid
  have none : blanks (b :: bs) = (0, false) :=
    blanks_solid (by simp [blank]) hash fun joined => backslash joined.1
  rw [gap_of_solid last (by rw [none]; simpa using feed), none]

/-- How far the gap reaches, with the line break that ends an expression. -/
def Gap.reach (g : Gap) : Nat := g.width + g.ending.getD 0

@[simp]
theorem Gap.reach_after (g : Gap) (width : Nat) (spaced broken : Bool) :
    (g.after width spaced broken).reach = width + g.reach := by
  simp [Gap.reach, Gap.after, Nat.add_assoc]

/-- The byte at an index of a text is skipped as a part of blank lines, which start with the line
feed behind the blanks of a gap. -/
inductive InLines (last : Kind) : Bytes → Nat → Prop
  | here {bs more k} : bs.drop (blanks bs).1 = ('\n' : UInt8) :: more → k ≤ blankLines more →
      InLines last bs ((blanks bs).1 + k)
  | later {bs more k} : bs.drop (blanks bs).1 = ('\n' : UInt8) :: more →
      (last.continuesLine || continuesPrevious (more.drop (blankLines more))) →
      InLines last (more.drop (blankLines more)) k →
      InLines last bs ((blanks bs).1 + 1 + blankLines more + k)

/-- The gaps of two texts hold line breaks, both or none of which end an expression, and the same
text stands behind them. -/
structure SameBreak (last : Kind) (bs bs' : Bytes) : Prop where
  broken : (gap last bs).broken ∧ (gap last bs').broken
  ending : (gap last bs).ending.isSome = (gap last bs').ending.isSome
  behind : bs.drop (gap last bs).reach = bs'.drop (gap last bs').reach

theorem drop_behind {bs more : Bytes} {b : UInt8} {k : Nat} (h : bs.drop k = b :: more)
    (m n : Nat) : bs.drop (k + 1 + m + n) = (more.drop m).drop n := by
  have one : bs.drop (k + 1) = more := by
    rw [← List.drop_drop, h, List.drop_succ_cons, List.drop_zero]
  rw [Nat.add_assoc, ← List.drop_drop, one, List.drop_drop]

/-- The same text stands behind the blank lines. -/
theorem sameBreak_of_rest {last : Kind} {bs bs' more more' : Bytes}
    (h : bs.drop (blanks bs).1 = ('\n' : UInt8) :: more)
    (h' : bs'.drop (blanks bs').1 = ('\n' : UInt8) :: more')
    (rest : more.drop (blankLines more) = more'.drop (blankLines more')) :
    SameBreak last bs bs' := by
  have g := gap_of_feed last h
  have g' := gap_of_feed last h'
  rw [← rest] at g'
  dsimp only at g g'
  split at g
  · rename_i continues
    rw [if_pos continues] at g'
    refine ⟨by simp [g, g', Gap.after], by simp [g, g', Gap.after], ?_⟩
    rw [g, g', Gap.reach_after, Gap.reach_after, drop_behind h, drop_behind h', rest]
  · rename_i ends
    rw [if_neg ends] at g'
    refine ⟨by simp [g, g'], by simp [g, g'], ?_⟩
    rw [g, g']
    simp only [Gap.reach, Option.getD_some, ← Nat.add_assoc]
    exact (drop_behind h _ 0).trans (rest.trans (drop_behind h' _ 0).symm)

/-- A line feed at the end of `y` that the blanks do not reach stands behind another one. -/
theorem exists_feed_of_lt {y v more : Bytes} {n : Nat} (lt : n < y.length)
    (h : (y ++ ('\n' : UInt8) :: v).drop n = ('\n' : UInt8) :: more) (t : Bytes) :
    ∃ z, y.length = n + 1 + z.length ∧ more = z ++ ('\n' : UInt8) :: v ∧
      (y ++ t).drop n = ('\n' : UInt8) :: (z ++ t) := by
  rw [List.drop_append_of_le_length lt.le] at h
  cases hy : y.drop n with
  | nil =>
    have := congrArg List.length hy
    simp only [List.length_drop, List.length_nil] at this
    omega
  | cons c z =>
    rw [hy, List.cons_append] at h
    obtain ⟨rfl, rfl⟩ := List.cons.inj h
    have := congrArg List.length hy
    simp only [List.length_drop, List.length_cons] at this
    refine ⟨z, by omega, rfl, ?_⟩
    rw [List.drop_append_of_le_length lt.le, hy, List.cons_append]

/-- The text `y`, with `t` behind it, starts with `width` blanks, a line feed and `lines` bytes of
blank lines, which go on to its part `z`. -/
structure Front (width lines : Nat) (spaced : Bool) (y z t : Bytes) : Prop where
  blanks : blanks (y ++ t) = (width, spaced)
  lines : ∃ more, (y ++ t).drop width = ('\n' : UInt8) :: more ∧ blankLines more = lines ∧
    more.drop lines = z ++ t

namespace Front

variable {width lines : Nat} {spaced : Bool} {y z t : Bytes}

theorem drop (h : Front width lines spaced y z t) (n : Nat) :
    (y ++ t).drop (width + 1 + lines + n) = (z ++ t).drop n := by
  obtain ⟨more, feed, -, rest⟩ := h.lines
  rw [drop_behind feed, rest]

theorem gap_eq (h : Front width lines spaced y z t) (ne : z ≠ []) (last : Kind) :
    gap last (y ++ t) =
      if last.continuesLine || continuesPrevious (z ++ t) then
        (gap last (z ++ t)).after (width + 1 + lines) spaced true
      else { width, spaced, broken := true, ending := some (1 + lines) } := by
  obtain ⟨more, feed, hlines, rest⟩ := h.lines
  have place : (y ++ t).drop (Lexer.blanks (y ++ t)).1 = ('\n' : UInt8) :: more := by
    rwa [h.blanks]
  have whole := gap_of_feed last place
  rw [h.blanks, hlines] at whole
  dsimp only at whole
  rw [rest] at whole
  have filled : (z ++ t).isEmpty = false := by simp [ne]
  rwa [filled, Bool.false_or] at whole

end Front

/-- Blank lines that end in `y` are the same with `w` at its end. -/
theorem exists_front (hw : Trailing w) {y v more : Bytes}
    (feed : (y ++ ('\n' : UInt8) :: v).drop (blanks (y ++ ('\n' : UInt8) :: v)).1 =
      ('\n' : UInt8) :: more)
    (fits : (blanks (y ++ ('\n' : UInt8) :: v)).1 + 1 + blankLines more ≤ y.length) :
    ∃ z spaced, z ≠ [] ∧
      y.length = (blanks (y ++ ('\n' : UInt8) :: v)).1 + 1 + blankLines more + z.length ∧
      Front (blanks (y ++ ('\n' : UInt8) :: v)).1 (blankLines more) spaced y z ('\n' :: v) ∧
      Front (blanks (y ++ ('\n' : UInt8) :: v)).1 (blankLines more) spaced y z
        (w ++ ('\n' : UInt8) :: v) := by
  rcases blanks_append hw (y := y) (v := v) (by omega) with ⟨lt, same⟩ | ⟨full, longer⟩
  · obtain ⟨z, length, rfl, feed'⟩ := exists_feed_of_lt lt feed (w ++ ('\n' : UInt8) :: v)
    rcases blankLines_append hw z v with ⟨before, lines⟩ | ⟨behind, -⟩
    · refine ⟨z.drop (blankLines (z ++ ('\n' : UInt8) :: v)),
        (blanks (y ++ ('\n' : UInt8) :: v)).2, ?_, ?_, ?_, ?_⟩
      · simpa using before
      · rw [List.length_drop]
        omega
      · exact ⟨rfl, _, feed, rfl, List.drop_append_of_le_length before.le⟩
      · exact ⟨same, _, feed', lines, List.drop_append_of_le_length before.le⟩
    · omega
  · omega

/-- What is added at the end of a line that is skipped as a blank one leaves the line break as it
is. -/
theorem sameBreak_trailing (hw : Trailing w) {last : Kind} {y v : Bytes}
    (h : InLines last (y ++ ('\n' : UInt8) :: v) y.length) :
    SameBreak last (y ++ ('\n' : UInt8) :: v) (y ++ (w ++ ('\n' : UInt8) :: v)) := by
  generalize hbs : y ++ ('\n' : UInt8) :: v = bs at h
  generalize hk : y.length = k at h
  induction h generalizing y with
  | @here bs more k feed le =>
    subst hbs
    rcases blanks_append hw (y := y) (v := v) (by omega) with ⟨lt, same⟩ | ⟨full, longer⟩
    · -- The line is blank itself, and the blank lines go on behind it.
      obtain ⟨z, length, rfl, feed'⟩ := exists_feed_of_lt lt feed (w ++ ('\n' : UInt8) :: v)
      rw [← same] at feed'
      rcases blankLines_append hw z v with ⟨before, -⟩ | ⟨behind, lines⟩
      · omega
      obtain ⟨n, hn⟩ := Nat.exists_eq_add_of_le behind.le
      refine sameBreak_of_rest feed feed' ?_
      rw [lines, hn, List.drop_length_add_append, Nat.add_assoc, List.drop_length_add_append,
        Nat.add_comm n, List.drop_length_add_append]
    · -- The line feed is the first one behind the token before it.
      obtain rfl : more = v := by
        rw [full, List.drop_left] at feed
        exact (List.cons.inj feed).2.symm
      refine sameBreak_of_rest feed ?_ rfl
      rw [longer, List.drop_length_add_append, List.drop_left]
  | @later bs more k feed continues rest ih =>
    subst hbs
    obtain ⟨z, spaced, ne, length, plain, added⟩ := exists_front hw feed (by omega)
    have next : more.drop (blankLines more) = z ++ ('\n' : UInt8) :: v := by
      have := plain.drop 0
      rwa [drop_behind feed, List.drop_zero, List.drop_zero] at this
    rw [next] at continues
    have continues' :
        last.continuesLine || continuesPrevious (z ++ (w ++ ('\n' : UInt8) :: v)) := by
      rw [continuesPrevious_feed] at continues
      rw [continuesPrevious_trailing hw, ← Bool.or_assoc, continues, Bool.true_or]
    have g := plain.gap_eq ne last
    have g' := added.gap_eq ne last
    rw [if_pos continues] at g
    rw [if_pos continues'] at g'
    have later := ih next.symm (by omega)
    rw [next] at later
    refine ⟨by simp [g, g', Gap.after], ?_, ?_⟩
    · simpa [g, g', Gap.after] using later.ending
    · rw [g, g', Gap.reach_after, Gap.reach_after, plain.drop, added.drop, later.behind]

theorem gap_word {word : Bytes} (h : word ∈ continuingWords) (last : Kind) (t : Bytes) :
    gap last (word ++ t) = {} := by
  have heads : ∀ word ∈ continuingWords, (word.head?.any fun c =>
      !isBlank c && c != '#' && c != '\\' && c != '\n') := by decide
  have head := heads word h
  cases word with
  | nil => cases head
  | cons c word => exact gap_cons_solid head last (word ++ t)

/-- A continuing word that is alone on its line, behind a line break that ends an expression for
want of a space behind the word. With the space of `w` there, it ends none. -/
structure WordFound (w : Bytes) (last : Kind) (y v word : Bytes) : Prop where
  mem : word ∈ continuingWords
  space : w.head? = some (' ' : UInt8)
  ending : (gap last (y ++ ('\n' : UInt8) :: v)).ending.isSome
  behind : (y ++ ('\n' : UInt8) :: v).drop (gap last (y ++ ('\n' : UInt8) :: v)).reach =
    word ++ ('\n' : UInt8) :: v
  ending' : (gap last (y ++ (w ++ ('\n' : UInt8) :: v))).ending = none
  behind' : (y ++ (w ++ ('\n' : UInt8) :: v)).drop
      (gap last (y ++ (w ++ ('\n' : UInt8) :: v))).reach = word ++ (w ++ ('\n' : UInt8) :: v)

/-- Lines that continue the one before, in front of such a word. -/
theorem WordFound.of_front {width lines : Nat} {spaced : Bool} {y z v word : Bytes} {last : Kind}
    (plain : Front width lines spaced y z ('\n' :: v))
    (added : Front width lines spaced y z (w ++ ('\n' : UInt8) :: v)) (ne : z ≠ [])
    (continues : last.continuesLine || continuesPrevious z) (hw : Trailing w)
    (found : WordFound w last z v word) : WordFound w last y v word := by
  have g := plain.gap_eq ne last
  have g' := added.gap_eq ne last
  rw [continuesPrevious_feed, if_pos continues] at g
  rw [continuesPrevious_trailing hw, ← Bool.or_assoc, continues, Bool.true_or, if_pos rfl] at g'
  refine ⟨found.mem, found.space, ?_, ?_, ?_, ?_⟩
  · rw [g]
    exact found.ending
  · rw [g, Gap.reach_after, plain.drop, found.behind]
  · rw [g']
    exact found.ending'
  · rw [g', Gap.reach_after, added.drop, found.behind']

/-- A line that is no more than a continuing word and the space of `w`. -/
theorem wordFound_of_front {width lines : Nat} {spaced : Bool} {y z v : Bytes} {last : Kind}
    (plain : Front width lines spaced y z ('\n' :: v))
    (added : Front width lines spaced y z (w ++ ('\n' : UInt8) :: v)) (hw : Trailing w)
    (mem : z ∈ continuingWords) (space : w.head? = some (' ' : UInt8))
    (ends : (last.continuesLine || continuesPrevious z) = false) : WordFound w last y v z := by
  have ne : z ≠ [] := by
    rintro rfl
    exact absurd mem (by decide)
  have g := plain.gap_eq ne last
  have g' := added.gap_eq ne last
  rw [continuesPrevious_feed, ends, if_neg Bool.false_ne_true] at g
  rw [continuesPrevious_trailing hw, decide_eq_true ⟨mem, space⟩, Bool.or_true, Bool.or_true,
    if_pos rfl, gap_word mem] at g'
  refine ⟨mem, space, by simp [g], ?_, by simp [g', Gap.after], ?_⟩
  · rw [g]
    simp only [Gap.reach, Option.getD_some, ← Nat.add_assoc]
    exact plain.drop 0
  · rw [g', Gap.reach_after]
    exact added.drop 0

/-- A gap without a line break. -/
theorem gap_append_solid (hw : Trailing w) {last : Kind} {y v : Bytes}
    (solid : ((y ++ ('\n' : UInt8) :: v).drop (blanks (y ++ ('\n' : UInt8) :: v)).1).head? ≠
      some ('\n' : UInt8))
    (lt : (blanks (y ++ ('\n' : UInt8) :: v)).1 < y.length) :
    gap last (y ++ (w ++ ('\n' : UInt8) :: v)) = gap last (y ++ ('\n' : UInt8) :: v) := by
  rcases blanks_append hw lt.le with ⟨-, same⟩ | ⟨full, -⟩
  · have first : ∀ t, ((y ++ t).drop (blanks (y ++ ('\n' : UInt8) :: v)).1).head? =
        (y.drop (blanks (y ++ ('\n' : UInt8) :: v)).1).head? := by
      intro t
      rw [List.drop_append_of_le_length lt.le, List.head?_append, Option.or_of_isSome]
      simpa using lt
    have solid' : ((y ++ (w ++ ('\n' : UInt8) :: v)).drop
        (blanks (y ++ (w ++ ('\n' : UInt8) :: v))).1).head? ≠ some ('\n' : UInt8) := by
      rwa [same, first, ← first]
    rw [gap_of_solid last solid, gap_of_solid last solid', same]
  · omega

/-- The gap before a token or line break of `y` is the same, but for a word that is alone on its
line. -/
theorem gap_append (hw : Trailing w) {last : Kind} {y v : Bytes}
    (fits : (gap last (y ++ ('\n' : UInt8) :: v)).width +
      (gap last (y ++ ('\n' : UInt8) :: v)).ending.getD 1 ≤ y.length) :
    gap last (y ++ (w ++ ('\n' : UInt8) :: v)) = gap last (y ++ ('\n' : UInt8) :: v) ∨
      ∃ word, WordFound w last y v word := by
  induction hn : y.length using Nat.strong_induction_on generalizing y with
  | _ n ih =>
    subst hn
    by_cases feed : ((y ++ ('\n' : UInt8) :: v).drop
      (blanks (y ++ ('\n' : UInt8) :: v)).1).head? = some ('\n' : UInt8)
    · obtain ⟨more, feed⟩ := List.head?_eq_some_iff.mp feed
      have inside : (blanks (y ++ ('\n' : UInt8) :: v)).1 + 1 + blankLines more ≤ y.length := by
        rw [gap_of_feed last feed] at fits
        dsimp only at fits
        split at fits
        · simp only [Gap.after] at fits
          omega
        · simp only [Option.getD_some] at fits
          omega
      obtain ⟨z, spaced, ne, length, plain, added⟩ := exists_front hw feed inside
      have g := plain.gap_eq ne last
      have g' := added.gap_eq ne last
      rw [continuesPrevious_feed] at g
      rw [continuesPrevious_trailing hw, ← Bool.or_assoc] at g'
      cases continues : last.continuesLine || continuesPrevious z with
      | true =>
        rw [continues, if_pos rfl] at g
        rw [continues, Bool.true_or, if_pos rfl] at g'
        have fits' : (gap last (z ++ ('\n' : UInt8) :: v)).width +
            (gap last (z ++ ('\n' : UInt8) :: v)).ending.getD 1 ≤ z.length := by
          rw [g] at fits
          simp only [Gap.after] at fits
          omega
        rcases ih z.length (by omega) fits' rfl with same | ⟨word, found⟩
        · exact .inl (by rw [g, g', same])
        · exact .inr ⟨word, found.of_front plain added ne continues hw⟩
      | false =>
        by_cases word : z ∈ continuingWords ∧ w.head? = some (' ' : UInt8)
        · exact .inr ⟨z, wordFound_of_front plain added hw word.1 word.2 continues⟩
        · rw [continues] at g g'
          rw [decide_eq_false word] at g'
          exact .inl (g'.trans g.symm)
    · have g := gap_of_solid last feed
      rw [g] at fits
      exact .inl (gap_append_solid hw feed fits)

/-- The gap before a line break in `y`. -/
theorem gap_append_break (hw : Trailing w) {last : Kind} {y v : Bytes} {width : Nat}
    (ending : (gap last (y ++ ('\n' : UInt8) :: v)).ending = some width)
    (le : (gap last (y ++ ('\n' : UInt8) :: v)).reach ≤ y.length) :
    gap last (y ++ (w ++ ('\n' : UInt8) :: v)) = gap last (y ++ ('\n' : UInt8) :: v) ∨
      ∃ word, WordFound w last y v word := by
  apply gap_append hw
  rw [Gap.reach, ending, Option.getD_some] at le
  rwa [ending, Option.getD_some]

end CallAtlas.Lexer
