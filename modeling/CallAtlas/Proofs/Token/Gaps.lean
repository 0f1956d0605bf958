import CallAtlas.Proofs.Token.Widths

/-! # What stands between tokens

Text that is no part of a token is made of blanks, line feeds, comments and joined lines, and of
nothing else. `Skipped n bs` says so of the first `n` bytes of `bs`. Only a line feed ends an
expression, so the token of a line break starts with one.
-/
namespace CallAtlas.Lexer

/-- A piece of text that is no part of a token, in front of `rest`. A comment goes on to the end of
its line. -/
inductive Filler : Bytes → Bytes → Prop
  | blank {b rest} : isBlank b → Filler [b] rest
  | feed {rest} : Filler ['\n'] rest
  | comment {line rest} : (∀ b ∈ line, b ≠ ('\n' : UInt8)) →
      (∀ b ∈ rest.head?, b = ('\n' : UInt8)) → Filler ('#' :: line) rest
  | joined {rest} : Filler ['\\', '\n'] rest

/-- The first bytes of a text, as many as the number tells, are made of such pieces. -/
inductive Skipped : Nat → Bytes → Prop
  | none {bs} : Skipped 0 bs
  | more {piece bs n} : Filler piece bs → Skipped n bs → Skipped (piece.length + n) (piece ++ bs)

namespace Skipped

variable {n m : Nat} {bs : Bytes}

theorem le_length (h : Skipped n bs) : n ≤ bs.length := by
  induction h with
  | none => exact Nat.zero_le _
  | more _ _ ih =>
    rw [List.length_append]
    omega

theorem append (h : Skipped n bs) (h' : Skipped m (bs.drop n)) : Skipped (n + m) bs := by
  induction h with
  | none => simpa using h'
  | more filler _ ih =>
    rw [List.drop_append] at h'
    simp only [Nat.add_sub_cancel_left, List.drop_eq_nil_of_le (Nat.le_add_right _ _),
      List.nil_append] at h'
    rw [Nat.add_assoc]
    exact (ih h').more filler

theorem cons_blank {b : UInt8} (hb : isBlank b) (h : Skipped n bs) : Skipped (n + 1) (b :: bs) := by
  rw [Nat.add_comm]
  exact h.more (.blank hb)

theorem cons_feed (h : Skipped n bs) : Skipped (n + 1) ('\n' :: bs) := by
  rw [Nat.add_comm]
  exact h.more .feed

/-- A comment, which ends before a line feed or at the end of the text. -/
theorem cons_comment (h : Skipped n (bs.drop (commentWidth bs))) :
    Skipped (n + commentWidth bs + 1) ('#' :: bs) := by
  let inLine : UInt8 → Bool := fun b => b != '\n'
  have parts : bs.takeWhile inLine ++ bs.dropWhile inLine = bs := List.takeWhile_append_dropWhile
  have rest : bs.drop (commentWidth bs) = bs.dropWhile inLine :=
    calc bs.drop (commentWidth bs)
      _ = (bs.takeWhile inLine ++ bs.dropWhile inLine).drop (bs.takeWhile inLine).length := by
        rw [parts]; rfl
      _ = bs.dropWhile inLine := List.drop_left
  have filler : Filler ('#' :: bs.takeWhile inLine) (bs.dropWhile inLine) := by
    refine .comment ?_ ?_
    · intro b hb
      exact bne_iff_ne.mp (List.all_eq_true.mp List.all_takeWhile b hb)
    · intro b hb
      have stops := List.head?_dropWhile_not inLine bs
      rw [hb] at stops
      simpa [inLine] using stops
  rw [rest] at h
  have whole := h.more filler
  rw [List.cons_append, parts, List.length_cons] at whole
  have width : (bs.takeWhile inLine).length = commentWidth bs := rfl
  rwa [width, Nat.add_comm] at whole

end Skipped

theorem skipped_blanks {bs : Bytes} {width : Nat} {spaced : Bool}
    (h : blanks bs = (width, spaced)) : Skipped width bs := by
  obtain rfl : (blanks bs).1 = width := congrArg Prod.fst h
  clear h
  fun_induction blanks bs with
  | case1 => exact .none
  | case2 b more hb width _ h ih =>
    rw [h] at ih
    exact ih.cons_blank hb
  | case3 more comment width _ h _ ih =>
    rw [h] at ih
    exact ih.cons_comment
  | case4 b more _ _ hjoin width _ h ih =>
    obtain ⟨rfl, hfeed⟩ := hjoin
    obtain ⟨rest, rfl⟩ := List.head?_eq_some_iff.mp hfeed
    rw [h] at ih
    rw [Nat.add_comm]
    exact ih.more .joined
  | case5 => exact .none

theorem skipped_blankLines (bs : Bytes) : Skipped (blankLines bs) bs := by
  fun_induction blankLines bs with
  | case1 => exact .none
  | case2 b more hb ih =>
    rcases hb with rfl | hb
    · exact ih.cons_feed
    · exact ih.cons_blank hb
  | case3 more comment _ ih => exact ih.cons_comment
  | case4 => exact .none

theorem skipped_gap (last : Kind) (bs : Bytes) : Skipped (gap last bs).width bs := by
  fun_induction gap last bs with
  | case1 bs width spaced h more lines rest _ hmore ih =>
    have front := skipped_blanks h
    have lines : Skipped (blankLines more + (gap last rest).width) more :=
      (skipped_blankLines more).append ih
    have behind := lines.cons_feed
    rw [← hmore] at behind
    have whole := front.append behind
    simp only [Gap.after]
    rwa [show width + 1 + blankLines more + (gap last rest).width =
      width + (blankLines more + (gap last rest).width + 1) by omega]
  | case2 bs width spaced h => exact skipped_blanks h
  | case3 bs width spaced h => exact skipped_blanks h
  | case4 bs width spaced h => exact skipped_blanks h

/-- The token of a line break starts with a line feed and ends within the text. -/
theorem ending_gap {last : Kind} {bs : Bytes} {width : Nat}
    (h : (gap last bs).ending = some width) :
    (bs.drop (gap last bs).width).head? = some ('\n' : UInt8) ∧
      0 < width ∧ width ≤ (bs.drop (gap last bs).width).length := by
  fun_induction gap last bs with
  | case1 bs front _ hfront more lines rest _ hmore ih =>
    have place : bs.drop (front + 1 + lines + (gap last rest).width) =
        rest.drop (gap last rest).width :=
      calc bs.drop (front + 1 + lines + (gap last rest).width)
        _ = ((bs.drop front).drop 1).drop (lines + (gap last rest).width) := by
          simp only [List.drop_drop]
          congr 1
          omega
        _ = rest.drop (gap last rest).width := by
          rw [hmore, List.drop_succ_cons, List.drop_zero, ← List.drop_drop]
    simp only [Gap.after] at h ⊢
    rw [place]
    exact ih h
  | case2 bs front _ hfront more lines rest _ hmore =>
    obtain rfl := Option.some.inj h
    have inside := (skipped_blankLines more).le_length
    rw [hmore]
    refine ⟨rfl, by omega, ?_⟩
    simp only [List.length_cons]
    omega
  | case3 => cases h
  | case4 => cases h

end CallAtlas.Lexer
