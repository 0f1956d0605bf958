import CallAtlas.Proofs.Token.Run

/-! # How the tokens lie on the text

The tokens of a source have regions of the text that do not overlap and follow each other in order,
and every byte outside of them is a blank, a line feed, part of a comment or part of a joined line.
The invariant of the run is that this holds of the tokens found so far and of the text before them.
-/
namespace CallAtlas

/-- The offset of the first byte of a token. -/
def Token.first (t : Token) : Nat := t.span.start.offset

/-- The offset behind the last byte of a token. -/
def Token.stop (t : Token) : Nat := t.span.start.offset + t.span.start.length

/-- The raw text of a token is its region of the source, but a line break shows one line feed for
all that belongs to it. -/
def Token.Shows (s : Source) (t : Token) : Prop :=
  t.lexeme = s.slice t.first t.stop ∨
    t.kind = .newline ∧ t.lexeme = [('\n' : UInt8)] ∧ s.byteAt t.first = '\n'

namespace Lexer

/-! ### Layouts -/

/-- The tokens lie one behind the other on the text before an offset, and each byte there that
belongs to no token belongs to a piece of text that may stand between tokens. -/
structure Layout (s : Source) (tokens : List Token) (offset : Nat) : Prop where
  offset_le : offset ≤ s.text.length
  inside : ∀ t ∈ tokens, t.first ≤ t.stop ∧ t.stop ≤ offset
  ordered : tokens.Pairwise fun t u => t.stop ≤ u.first
  covered : ∀ i < offset, (∃ t ∈ tokens, t.first ≤ i ∧ i < t.stop) ∨
    ∃ a b, a ≤ i ∧ i < b ∧ b ≤ offset ∧ Filler (s.slice a b) (s.text.drop b) ∧
      ∀ t ∈ tokens, t.stop ≤ a ∨ b ≤ t.first

/-- Each byte of a gap belongs to one of its pieces. -/
theorem Skipped.exists_filler {n : Nat} {bs : Bytes} (h : Skipped n bs) :
    ∀ i < n, ∃ a b, a ≤ i ∧ i < b ∧ b ≤ n ∧ Filler ((bs.drop a).take (b - a)) (bs.drop b) := by
  induction h with
  | none =>
    intro i hi
    cases hi
  | @more piece bs n filler _ ih =>
    intro i hi
    by_cases hfirst : i < piece.length
    · refine ⟨0, piece.length, Nat.zero_le i, hfirst, Nat.le_add_right _ n, ?_⟩
      simpa using filler
    · obtain ⟨a, b, ha, hb, hn, found⟩ := ih (i - piece.length) (by omega)
      refine ⟨piece.length + a, piece.length + b, by omega, by omega, by omega, ?_⟩
      rw [List.drop_length_add_append, List.drop_length_add_append, Nat.add_sub_add_left]
      exact found

namespace Layout

variable {s : Source} {tokens : List Token} {offset : Nat}

theorem nil (s : Source) : Layout s [] 0 where
  offset_le := Nat.zero_le _
  inside := by simp
  ordered := .nil
  covered := fun i hi => by cases hi

/-- One more token, behind a gap. -/
theorem add (h : Layout s tokens offset) {n : Nat} {t : Token}
    (gap : Skipped n (s.text.drop offset)) (first : t.first = offset + n) (stop : t.first ≤ t.stop)
    (le : t.stop ≤ s.text.length) : Layout s (tokens ++ [t]) t.stop where
  offset_le := le
  inside := by
    intro u hu
    rcases List.mem_append.mp hu with hu | hu
    · have inside := h.inside u hu
      omega
    · rw [List.mem_singleton.mp hu]
      exact ⟨stop, Nat.le_refl _⟩
  ordered := by
    refine List.pairwise_append.mpr ⟨h.ordered, List.pairwise_singleton _ _, ?_⟩
    intro u hu v hv
    rw [List.mem_singleton.mp hv, first]
    have inside := h.inside u hu
    omega
  covered := by
    intro i hi
    -- The byte lies before the gap, in the gap, or in the token.
    by_cases hbefore : i < offset
    · rcases h.covered i hbefore with ⟨u, hu, found⟩ | ⟨a, b, ha, hb, hle, filler, apart⟩
      · exact .inl ⟨u, List.mem_append_left _ hu, found⟩
      · refine .inr ⟨a, b, ha, hb, by omega, filler, ?_⟩
        intro u hu
        rcases List.mem_append.mp hu with hu | hu
        · exact apart u hu
        · rw [List.mem_singleton.mp hu]
          omega
    by_cases hgap : i < offset + n
    · obtain ⟨a, b, ha, hb, hn, filler⟩ := gap.exists_filler (i - offset) (by omega)
      rw [List.drop_drop, List.drop_drop] at filler
      refine .inr ⟨offset + a, offset + b, by omega, by omega, by omega, ?_, ?_⟩
      · rwa [Source.slice, Nat.add_sub_add_left]
      · intro u hu
        rcases List.mem_append.mp hu with hu | hu
        · have inside := h.inside u hu
          omega
        · rw [List.mem_singleton.mp hu]
          omega
    · exact .inl ⟨t, by simp, by omega, hi⟩

end Layout

/-! ### The run -/

section Place

variable {s : Source} {start : Nat} {gap : Gap} {lexeme : Lexeme} {bs : Bytes}

theorem first_place (h : start < UInt32.size) :
    (place s.lineTable start bs gap lexeme).first = start := Nat.mod_eq_of_lt h

theorem stop_place (h : start + lexeme.width < UInt32.size) :
    (place s.lineTable start bs gap lexeme).stop = start + lexeme.width := by
  change start % UInt32.size + lexeme.width % UInt32.size = start + lexeme.width
  rw [Nat.mod_eq_of_lt (by omega), Nat.mod_eq_of_lt (by omega)]

theorem shows_place (h : start + lexeme.width < UInt32.size) :
    (place s.lineTable start (s.text.drop start) gap lexeme).Shows s := by
  refine .inl ?_
  rw [first_place (Nat.lt_of_add_right_lt h), stop_place h, Source.slice, Nat.add_sub_cancel_left]
  rfl

end Place

/-- What the lexer keeps from state to state: the tokens found so far are not empty and lie on the
text before the rest, which is as far into the text as its offset tells. -/
structure State.LaidOut (s : Source) (st : State) : Prop where
  rest_eq : st.rest = s.text.drop st.offset
  layout : Layout s st.found st.offset
  found : ∀ t ∈ st.found, t.first < t.stop ∧ t.Shows s
  length_le : st.found.length ≤ st.offset

namespace State.LaidOut

variable {s : Source} {st : State} (h : st.LaidOut s)

include h

theorem skipped : Skipped st.before.width (s.text.drop st.offset) :=
  h.rest_eq ▸ skipped_gap st.last st.rest

theorem start_le : st.start ≤ s.text.length := by
  have inside := h.skipped.le_length
  have offset := h.layout.offset_le
  rw [List.length_drop] at inside
  unfold start
  omega

theorem ahead_eq : st.ahead = s.text.drop st.start := by
  rw [ahead, h.rest_eq, List.drop_drop]
  rfl

theorem length_ahead : st.ahead.length = s.text.length - st.start := by
  rw [h.ahead_eq, List.length_drop]

theorem start_add_le {width : Nat} (le : width ≤ st.ahead.length) :
    st.start + width ≤ s.text.length := by
  have start := h.start_le
  rw [h.length_ahead] at le
  omega

/-- One more token, which starts behind the gap. -/
theorem add {t : Token} {width : Nat} (pos : 0 < width) (le : width ≤ st.ahead.length)
    (first : t.first = st.start) (stop : t.stop = st.start + width) (shows : t.Shows s)
    {st' : State} (found : st'.found = st.found ++ [t])
    (offset : st'.offset = st.start + width) (rest : st'.rest = st.ahead.drop width) :
    st'.LaidOut s where
  rest_eq := by rw [rest, offset, h.ahead_eq, List.drop_drop]
  layout := by
    have inside := h.start_add_le le
    rw [found, offset, ← stop]
    exact h.layout.add h.skipped first (by omega) (by omega)
  found := by
    rw [found]
    intro u hu
    rcases List.mem_append.mp hu with hu | hu
    · exact h.found u hu
    · rw [List.mem_singleton.mp hu]
      exact ⟨by omega, shows⟩
  length_le := by
    have before := h.length_le
    rw [found, offset, List.length_append, List.length_singleton, start]
    omega

end State.LaidOut

theorem Reached.laidOut {s : Source} {st : State} (small : s.text.length < UInt32.size)
    (h : Reached s st) : st.LaidOut s := by
  induction h with
  | start =>
    exact { rest_eq := rfl, layout := .nil s, found := by simp, length_le := Nat.le_refl 0 }
  | @lineBreak st width _ ending ih =>
    obtain ⟨feed, pos, le⟩ := ending_gap ending
    have inside : st.start + width < UInt32.size := Nat.lt_of_le_of_lt (ih.start_add_le le) small
    have first : (st.lineBreak s.lineTable width).first = st.start :=
      Nat.mod_eq_of_lt (Nat.lt_of_add_right_lt inside)
    have stop : (st.lineBreak s.lineTable width).stop = st.start + width :=
      @stop_place s st.start st.before { kind := .newline, width } st.ahead inside
    refine ih.add pos le first stop ?_ rfl rfl rfl
    refine .inr ⟨rfl, rfl, ?_⟩
    have place : (s.text.drop st.start).head? = some ('\n' : UInt8) := ih.ahead_eq ▸ feed
    rw [List.head?_drop] at place
    rw [first, Source.byteAt, List.getD_eq_getElem?_getD, place]
    rfl
  | @token st _ more _ ih =>
    obtain ⟨b, bs, ahead⟩ := List.exists_cons_of_ne_nil more
    have within : st.scanned.1.Within st.ahead := by
      rw [State.scanned, ahead]
      exact Scan.within_scan b bs st.frames
    have inside : st.start + st.scanned.1.width < UInt32.size :=
      Nat.lt_of_le_of_lt (ih.start_add_le within.2) small
    have first : (st.token s.lineTable).first = st.start :=
      first_place (Nat.lt_of_add_right_lt inside)
    have shows : (st.token s.lineTable).Shows s := by
      rw [State.token, ih.ahead_eq]
      exact shows_place inside
    exact ih.add within.1 within.2 first (stop_place inside) shows rfl rfl rfl

/-! ### The whole text -/

/-- A token without bytes at the end of the text. -/
def AtEnd (s : Source) (t : Token) : Prop :=
  t.first = s.text.length ∧ t.stop = s.text.length ∧ t.lexeme = []

theorem AtEnd.first_le {s : Source} {t : Token} (h : AtEnd s t) : t.first ≤ t.stop :=
  Nat.le_of_eq (h.1.trans h.2.1.symm)

theorem AtEnd.shows {s : Source} {t : Token} (h : AtEnd s t) : t.Shows s := by
  refine .inl ?_
  rw [h.1, h.2.1, h.2.2, Source.slice, Nat.sub_self, List.take_zero]

theorem atEnd_place {s : Source} {start : Nat} (h : start = s.text.length)
    (small : s.text.length < UInt32.size) (gap : Gap) {lexeme : Lexeme} (empty : lexeme.width = 0) :
    AtEnd s (place s.lineTable start [] gap lexeme) := by
  subst h
  refine ⟨first_place small, ?_, by simp [place]⟩
  rw [stop_place (by rwa [empty]), empty, Nat.add_zero]

namespace State.LaidOut

variable {s : Source} {st : State}

theorem start_eq (h : st.LaidOut s) (ended : st.ahead = []) : st.start = s.text.length := by
  have none := h.length_ahead
  have le := h.start_le
  rw [ended, List.length_nil] at none
  omega

theorem layout_end (h : st.LaidOut s) (ended : st.ahead = []) {t : Token} (ht : AtEnd s t) :
    Layout s (st.found ++ [t]) s.text.length := by
  have start := h.start_eq ended
  have first : t.first = st.offset + st.before.width := ht.1.trans start.symm
  have layout := h.layout.add h.skipped first ht.first_le (Nat.le_of_eq ht.2.1)
  rwa [ht.2.1] at layout

end State.LaidOut

theorem Layout.append_end {s : Source} {tokens : List Token} (h : Layout s tokens s.text.length)
    {t : Token} (ht : AtEnd s t) : Layout s (tokens ++ [t]) s.text.length := by
  have layout := h.add .none ht.1 ht.first_le (Nat.le_of_eq ht.2.1)
  rwa [ht.2.1] at layout

/-- The tokens of a source, which are those found in its text, the error of an expression that is
cut off by the end of the text, if there is one, and the end of the text. -/
structure Covering (s : Source) (found cut : List Token) (eof : Token) : Prop where
  tokens : (tokenize s).1 = found ++ cut ++ [eof]
  found : ∀ t ∈ found, t.kind ≠ .eof ∧ t.first < t.stop
  cut : cut = [] ∨ ∃ t, cut = [t] ∧ t.kind = .error ∧ AtEnd s t ∧
    (tokenize s).2.getLast?.map (·.fault) = some .unterminatedInterpolation
  eof : eof.kind = .eof ∧ AtEnd s eof
  length_le : (tokenize s).1.length ≤ s.text.length + 2
  shows : ∀ t ∈ (tokenize s).1, t.Shows s
  layout : Layout s (tokenize s).1 s.text.length

/-- What is left to show when nothing is ahead. -/
theorem State.LaidOut.covering {s : Source} {last : State} {cut : List Token} {eof : Token}
    (h : last.LaidOut s) (ended : last.ahead = []) (kinds : ∀ t ∈ last.found, t.kind ≠ .eof)
    (tokens : (tokenize s).1 = last.found ++ cut ++ [eof])
    (hcut : cut = [] ∨ ∃ t, cut = [t] ∧ t.kind = .error ∧ AtEnd s t ∧
      (tokenize s).2.getLast?.map (·.fault) = some .unterminatedInterpolation)
    (heof : eof.kind = .eof ∧ AtEnd s eof) : Covering s last.found cut eof := by
  have few : last.found.length ≤ s.text.length := Nat.le_trans h.length_le h.layout.offset_le
  have atEnd : ∀ t ∈ cut, AtEnd s t := by
    rcases hcut with rfl | ⟨t, rfl, _, ht, _⟩ <;> simp [*]
  constructor
  · exact tokens
  · intro t ht
    exact ⟨kinds t ht, (h.found t ht).1⟩
  · exact hcut
  · exact heof
  · have : cut.length ≤ 1 := by
      rcases hcut with rfl | ⟨t, rfl, _⟩ <;> simp
    rw [tokens, List.length_append, List.length_append, List.length_singleton]
    omega
  · rw [tokens]
    intro t ht
    simp only [List.mem_append, List.mem_singleton] at ht
    rcases ht with (ht | ht) | rfl
    · exact (h.found t ht).2
    · exact (atEnd t ht).shows
    · exact heof.2.shows
  · rw [tokens]
    rcases hcut with rfl | ⟨t, rfl, _, ht, _⟩
    · rw [List.append_nil]
      exact h.layout_end ended heof.2
    · exact (h.layout_end ended ht).append_end heof.2

end Lexer

open Lexer in
/-- Every text below the bound of offsets is cut into tokens that cover it, up to what may stand
between tokens. -/
theorem tokens_cover_source (s : Source) (small : s.text.length < UInt32.size) :
    ∃ found cut eof, Covering s found cut eof := by
  obtain ⟨last, reached, ended, finished⟩ := tokenize_eq_finished s
  have laidOut := reached.laidOut small
  have kinds := reached.kind_ne_eof
  have start := laidOut.start_eq ended
  by_cases closed : last.frames = []
  · rw [State.finished_closed _ closed] at finished
    refine ⟨_, [], last.eof s.lineTable last.before, laidOut.covering ended kinds ?_ (.inl rfl) ?_⟩
    · rw [finished, List.append_nil]
    · exact ⟨rfl, atEnd_place start small _ rfl⟩
  · rw [State.finished_open _ closed] at finished
    refine ⟨_, [last.cut s.lineTable], last.eof s.lineTable {},
      laidOut.covering ended kinds ?_ ?_ ?_⟩
    · rw [finished]
    · refine .inr ⟨_, rfl, rfl, atEnd_place start small _ rfl, ?_⟩
      rw [finished, List.getLast?_append]
      rfl
    · exact ⟨rfl, atEnd_place start small _ rfl⟩

/-- A comment, a joined line, and an expression that is cut off by the end of the text. -/
def cutSample : Source := ⟨Source.defaultName, text "a # c\n\\\n + \"b #\x7bx"⟩

theorem cutSample_covered : cutSample.text.length < UInt32.size ∧
    ∃ found cut eof, Lexer.Covering cutSample found cut eof := by
  have small : cutSample.text.length < UInt32.size := by decide
  exact ⟨small, tokens_cover_source cutSample small⟩

end CallAtlas
