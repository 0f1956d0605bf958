import CallAtlas.Proofs.Token.LineEnds
import CallAtlas.Proofs.Token.Settled

/-! # Text at the ends of lines

Blanks and comments at the end of a line leave the tokens of a source as they are, but for their
places. The lexer goes over both texts in step until it comes to the line feed, and behind it they
are the same text. The steps part only at a continuing word that is alone on its line: it is found
only if the first of the blanks behind it is a space.
-/
namespace CallAtlas

/-- The token without its place. -/
def Token.unplaced (t : Token) : Token := { t with span := {} }

namespace Lexer

/-! ### Reading without places -/

/-- The tokens and the messages of faults, without their places. -/
def reading (found : List Token × List LexicalError) : List Token × List Bytes :=
  (found.1.map Token.unplaced, found.2.map (·.fault.message))

section Equations

variable {lines : LineTable} {last : Kind} {frames : List Frame} {offset : Nat} {bs : Bytes}

theorem tokensFrom_end (h : bs.drop (gap last bs).width = []) :
    tokensFrom lines last frames offset bs =
      finish lines (offset + (gap last bs).width) (gap last bs) frames := by
  rw [tokensFrom]
  split
  · rfl
  · rename_i found
    cases h.symm.trans found

theorem tokensFrom_nil (lines : LineTable) (last : Kind) (offset : Nat) :
    tokensFrom lines last [] offset [] =
      ([place lines offset [] {} { kind := .eof, width := 0 }], []) := by
  have none : gap last [] = {} := by
    rw [gap_of_solid last (by simp), blanks]
  rw [tokensFrom_end (by simp), none]
  rfl

theorem tokensFrom_break {width : Nat} (h : (gap last bs).ending = some width) :
    tokensFrom lines last frames offset bs =
      let start := offset + (gap last bs).width
      let token := { place lines start (bs.drop (gap last bs).width) (gap last bs)
        { kind := .newline, width } with lexeme := ['\n'] }
      let rest := tokensFrom lines .newline frames (start + width) (bs.drop (gap last bs).reach)
      (token :: rest.1, rest.2) := by
  have feed := ending_gap h
  rw [tokensFrom]
  split
  · rename_i found
    rw [found] at feed
    cases feed.1
  · rename_i b more found
    have behind : bs.drop (gap last bs).reach = more.drop (width - 1) := by
      rw [Gap.reach, h, Option.getD_some, ← List.drop_drop, found, drop_cons_of_pos feed.2.1]
    dsimp only
    rw [h, behind, found]

theorem tokensFrom_token {b : UInt8} {more : Bytes} (ending : (gap last bs).ending = none)
    (h : bs.drop (gap last bs).width = b :: more) :
    tokensFrom lines last frames offset bs =
      let start := offset + (gap last bs).width
      let found := scan (b :: more) frames
      let rest := tokensFrom lines found.1.kind found.2 (start + found.1.width)
        ((b :: more).drop found.1.width)
      (place lines start (b :: more) (gap last bs) found.1 :: rest.1,
        placeFaults lines start found.1 ++ rest.2) := by
  have pos := (Scan.within_scan b more frames).1
  rw [tokensFrom]
  split
  · rename_i found
    cases h.symm.trans found
  · rename_i c cs found
    obtain ⟨rfl, rfl⟩ := List.cons.inj (h.symm.trans found)
    dsimp only
    rw [ending, drop_cons_of_pos pos]

/-- A token with no gap before it, in front of the tokens behind it. -/
theorem tokensFrom_solid {lines : LineTable} (last : Kind) {offset : Nat} {b : UInt8} {bs : Bytes}
    {lexeme : Lexeme} {ts : List Token}
    (solid : !isBlank b && b != '#' && b != '\\' && b != '\n')
    (h : scan (b :: bs) [] = (lexeme, [])) (faultless : lexeme.faults = [])
    (behind : tokensFrom lines lexeme.kind [] (offset + lexeme.width)
      ((b :: bs).drop lexeme.width) = (ts, [])) :
    tokensFrom lines last [] offset (b :: bs) =
      (place lines offset (b :: bs) {} lexeme :: ts, []) := by
  have none := gap_cons_solid solid last bs
  rw [tokensFrom_token (by rw [none]) (by rw [none]; rfl), none, h]
  simp [behind, placeFaults, faultless]

/-- A token and the messages about it, in front of what is read behind it. -/
def prepend (t : Token) (messages : List Bytes) (rest : List Token × List Bytes) :
    List Token × List Bytes :=
  (t :: rest.1, messages ++ rest.2)

theorem prepend_inj {t : Token} {messages : List Bytes} {rest rest' : List Token × List Bytes} :
    prepend t messages rest = prepend t messages rest' ↔ rest = rest' := by
  simp [prepend, Prod.ext_iff]

/-- The token of a line break, without its place. -/
def breakToken (g : Gap) : Token :=
  { kind := .newline, lexeme := ['\n'], spaceBefore := g.spaced || g.broken,
    newlineBefore := g.broken }

/-- The token of a lexeme, without its place. -/
def pieceToken (g : Gap) (bs : Bytes) (lexeme : Lexeme) : Token :=
  (place (.ofText []) 0 bs g lexeme).unplaced

/-- The messages about a lexeme. -/
def messages (lexeme : Lexeme) : List Bytes := lexeme.faults.map (·.1.message)

theorem reading_break {width : Nat} (h : (gap last bs).ending = some width) :
    reading (tokensFrom lines last frames offset bs) =
      prepend (breakToken (gap last bs)) []
        (reading (tokensFrom lines .newline frames (offset + (gap last bs).width + width)
          (bs.drop (gap last bs).reach))) := by
  rw [tokensFrom_break h]
  rfl

theorem reading_token {b : UInt8} {more : Bytes} (ending : (gap last bs).ending = none)
    (h : bs.drop (gap last bs).width = b :: more) :
    reading (tokensFrom lines last frames offset bs) =
      let found := scan (b :: more) frames
      prepend (pieceToken (gap last bs) (b :: more) found.1) (messages found.1)
        (reading (tokensFrom lines found.1.kind found.2
          (offset + (gap last bs).width + found.1.width) ((b :: more).drop found.1.width))) := by
  rw [tokensFrom_token ending h]
  simp only [reading, prepend, messages, placeFaults, List.map_cons, List.map_append, List.map_map]
  rfl

end Equations

/-- What is read does not depend on where the text stands. -/
theorem reading_tokensFrom (lines lines' : LineTable) (last : Kind) (frames : List Frame)
    (offset offset' : Nat) (bs : Bytes) :
    reading (tokensFrom lines last frames offset bs) =
      reading (tokensFrom lines' last frames offset' bs) := by
  induction hn : bs.length using Nat.strong_induction_on
    generalizing last frames offset offset' bs with
  | _ n ih =>
    subst hn
    cases ending : (gap last bs).ending with
    | some width =>
      have shorter : (bs.drop (gap last bs).reach).length < bs.length := by
        have inside := ending_gap ending
        rw [List.length_drop] at inside
        rw [Gap.reach, ending, Option.getD_some, List.length_drop]
        omega
      rw [reading_break ending, reading_break ending, ih _ shorter _ _ _ _ _ rfl]
    | none =>
      cases ahead : bs.drop (gap last bs).width with
      | nil =>
        rw [tokensFrom_end ahead, tokensFrom_end ahead]
        unfold finish
        dsimp only
        split <;> rfl
      | cons b more =>
        have pos := (Scan.within_scan b more frames).1
        have shorter : ((b :: more).drop (scan (b :: more) frames).1.width).length < bs.length := by
          have length := congrArg List.length ahead
          rw [List.length_drop, List.length_cons] at length
          rw [List.length_drop, List.length_cons]
          omega
        rw [reading_token ending ahead, reading_token ending ahead]
        dsimp only
        rw [ih _ shorter _ _ _ _ _ rfl]

/-- What is read from a text behind a token of kind `last`. -/
def readFrom (last : Kind) (frames : List Frame) (bs : Bytes) : List Token × List Bytes :=
  reading (tokensFrom (.ofText []) last frames 0 bs)

theorem reading_tokenize (s : Source) : reading (tokenize s) = readFrom .newline [] s.text :=
  reading_tokensFrom _ _ _ _ _ _ _

section ReadFrom

variable {last : Kind} {bs : Bytes} (frames : List Frame)

theorem readFrom_break {width : Nat} (h : (gap last bs).ending = some width) :
    readFrom last frames bs =
      prepend (breakToken (gap last bs)) [] (readFrom .newline frames (bs.drop (gap last bs).reach))
    := by
  unfold readFrom
  rw [reading_break h, reading_tokensFrom]

theorem readFrom_token {b : UInt8} {more : Bytes} (ending : (gap last bs).ending = none)
    (h : bs.drop (gap last bs).width = b :: more) :
    readFrom last frames bs =
      prepend (pieceToken (gap last bs) (b :: more) (scan (b :: more) frames).1)
        (messages (scan (b :: more) frames).1)
        (readFrom (scan (b :: more) frames).1.kind (scan (b :: more) frames).2
          ((b :: more).drop (scan (b :: more) frames).1.width)) := by
  unfold readFrom
  rw [reading_token ending h]
  dsimp only
  rw [reading_tokensFrom]

theorem readFrom_end (h : bs.drop (gap last bs).width = []) :
    readFrom last frames bs = reading (finish (.ofText []) 0 (gap last bs) frames) := by
  unfold readFrom
  rw [tokensFrom_end h]
  unfold finish
  dsimp only
  split <;> rfl

/-- Behind the same line break, the same is read. -/
theorem SameBreak.readFrom_eq {bs' : Bytes} (h : SameBreak last bs bs') :
    readFrom last frames bs = readFrom last frames bs' := by
  obtain ⟨⟨broken, broken'⟩, ending, behind⟩ := h
  cases ends : (gap last bs).ending with
  | some width =>
    rw [ends, Option.isSome_some] at ending
    obtain ⟨width', ends'⟩ := Option.isSome_iff_exists.mp ending.symm
    rw [readFrom_break frames ends, readFrom_break frames ends', behind]
    simp [breakToken, broken, broken']
  | none =>
    rw [ends, Option.isSome_none] at ending
    have ends' : (gap last bs').ending = none := by simpa using ending.symm
    simp only [Gap.reach, ends, ends', Option.getD_none, Nat.add_zero] at behind
    cases ahead : bs.drop (gap last bs).width with
    | nil =>
      rw [readFrom_end frames ahead, readFrom_end frames (behind.symm.trans ahead)]
      simp [finish, place, broken, broken']
    | cons b more =>
      rw [readFrom_token frames ends ahead, readFrom_token frames ends' (behind.symm.trans ahead)]
      simp [pieceToken, place, broken, broken', Token.unplaced]

end ReadFrom

/-! ### One step -/

/-- With `w` in front of the line feed behind `y`, the same is read. -/
def Same (w v : Bytes) (last : Kind) (frames : List Frame) (y : Bytes) : Prop :=
  readFrom last frames (y ++ (w ++ ('\n' : UInt8) :: v)) =
    readFrom last frames (y ++ ('\n' : UInt8) :: v)

section Step

variable {w v y : Bytes} {last : Kind} {frames : List Frame}

/-- A line break in `y`. -/
theorem same_break_iff (hw : Trailing w) (frames : List Frame) {width : Nat}
    (ending : (gap last (y ++ ('\n' : UInt8) :: v)).ending = some width)
    (le : (gap last (y ++ ('\n' : UInt8) :: v)).reach ≤ y.length) :
    (Same w v last frames y ↔
        Same w v .newline frames (y.drop (gap last (y ++ ('\n' : UInt8) :: v)).reach)) ∨
      ∃ word, WordFound w last y v word := by
  refine (gap_append_break hw ending le).imp_left fun same => ?_
  unfold Same
  rw [readFrom_break frames ending, readFrom_break frames (same ▸ ending), same,
    List.drop_append_of_le_length le, List.drop_append_of_le_length le, prepend_inj]

theorem pieceToken_append {g : Gap} {lexeme : Lexeme} {z : Bytes} (le : lexeme.width ≤ z.length)
    (t : Bytes) : pieceToken g (z ++ t) lexeme = pieceToken g z lexeme := by
  simp only [pieceToken, place, List.take_append_of_le_length le]

theorem scan_trailing (hw : Trailing w) (guarded : Scan.Guarded frames) {b : UInt8} {z : Bytes}
    (le : (scan (b :: z ++ ('\n' : UInt8) :: v) frames).1.width ≤ (b :: z).length) :
    scan (b :: z ++ (w ++ ('\n' : UInt8) :: v)) frames =
      scan (b :: z ++ ('\n' : UInt8) :: v) frames := by
  have settled := Scan.settles_scan guarded _ (endsLine_feed v) le
  exact (settled _ (hw.endsLine v)).trans (settled _ (endsLine_feed v)).symm

/-- A token of `y`. -/
theorem same_token_iff (hw : Trailing w) (guarded : Scan.Guarded frames) {ahead : Bytes}
    {found : Lexeme × List Frame} (ending : (gap last (y ++ ('\n' : UInt8) :: v)).ending = none)
    (hahead : (y ++ ('\n' : UInt8) :: v).drop (gap last (y ++ ('\n' : UInt8) :: v)).width = ahead)
    (ne : ahead ≠ []) (hfound : found = scan ahead frames)
    (le : (gap last (y ++ ('\n' : UInt8) :: v)).width + found.1.width ≤ y.length) :
    Same w v last frames y ↔
      Same w v found.1.kind found.2
        (y.drop ((gap last (y ++ ('\n' : UInt8) :: v)).width + found.1.width)) := by
  have pos : 0 < found.1.width := by
    obtain ⟨b, more, rfl⟩ := List.exists_cons_of_ne_nil ne
    rw [hfound]
    exact (Scan.within_scan b more frames).1
  have same : gap last (y ++ (w ++ ('\n' : UInt8) :: v)) = gap last (y ++ ('\n' : UInt8) :: v) := by
    have fits : (gap last (y ++ ('\n' : UInt8) :: v)).width +
        (gap last (y ++ ('\n' : UInt8) :: v)).ending.getD 1 ≤ y.length := by
      rw [ending, Option.getD_none]
      omega
    rcases gap_append hw fits with same | ⟨word, found⟩
    · exact same
    · have := found.ending
      rw [ending] at this
      cases this
  obtain ⟨b, z, hz⟩ : ∃ b z, y.drop (gap last (y ++ ('\n' : UInt8) :: v)).width = b :: z := by
    apply List.exists_cons_of_ne_nil
    rw [ne_eq, List.drop_eq_nil_iff]
    omega
  have length : found.1.width ≤ (b :: z).length := by
    rw [← hz, List.length_drop]
    omega
  have ahead_eq : ∀ t, (y ++ t).drop (gap last (y ++ ('\n' : UInt8) :: v)).width =
      b :: (z ++ t) := by
    intro t
    rw [List.drop_append_of_le_length (by omega), hz, List.cons_append]
  have plain : scan (b :: z ++ ('\n' : UInt8) :: v) frames = found := by
    rw [hfound, ← hahead, ahead_eq, List.cons_append]
  have added : scan (b :: z ++ (w ++ ('\n' : UInt8) :: v)) frames = found := by
    rw [scan_trailing hw guarded (by rwa [plain]), plain]
  have readPlain := readFrom_token frames ending (ahead_eq _)
  have readAdded := readFrom_token frames (same ▸ ending) (same ▸ ahead_eq _)
  rw [← List.cons_append, plain, pieceToken_append length, List.drop_append_of_le_length length]
    at readPlain
  rw [← List.cons_append, added, pieceToken_append length, List.drop_append_of_le_length length,
    same] at readAdded
  unfold Same
  rw [readPlain, readAdded, prepend_inj, ← List.drop_drop, hz]

theorem scan_word {word : Bytes} (h : word ∈ continuingWords) (frames : List Frame) :
    ∃ lexeme, lexeme.width = word.length ∧
      ∀ t, EndsLine t → scan (word ++ t) frames = (lexeme, frames) := by
  have words : ∀ word ∈ continuingWords, (Scan.identifier word).width = word.length := by decide
  refine ⟨Scan.identifier word, words word h, fun t ht => ?_⟩
  rw [← Scan.settled_identifier word t ht]
  simp only [continuingWords, List.mem_cons, List.not_mem_nil, or_false] at h
  rcases h with rfl | rfl | rfl
  · rfl
  · rfl
  · rfl

theorem inLines_feed (last : Kind) (v : Bytes) : InLines last ('\n' :: v) 0 := by
  have feed : (('\n' : UInt8) :: v).drop (blanks ('\n' :: v)).1 = ('\n' : UInt8) :: v := by
    rw [blanks_feed]
    rfl
  have here : InLines last ('\n' :: v) ((blanks ('\n' :: v)).1 + 0) := .here feed (Nat.zero_le _)
  rwa [blanks_feed] at here

/-- The line break at the end of a line that holds nothing behind the last token. -/
theorem same_nil (hw : Trailing w) (v : Bytes) (last : Kind) (frames : List Frame) :
    Same w v last frames [] :=
  ((sameBreak_trailing hw (inLines_feed last v)).readFrom_eq frames).symm

theorem length_prepend (t : Token) (messages : List Bytes) (rest : List Token × List Bytes) :
    (prepend t messages rest).1.length = rest.1.length + 1 :=
  rfl

/-- With the space behind the word, there is one token less. -/
theorem not_same_of_wordFound (hw : Trailing w) {word : Bytes} (h : WordFound w last y v word) :
    ¬ Same w v last frames y := by
  obtain ⟨width, ending⟩ := Option.isSome_iff_exists.mp h.ending
  obtain ⟨lexeme, length, scanned⟩ := scan_word h.mem frames
  have token : ∀ (last : Kind) (bs t : Bytes), EndsLine t → (gap last bs).ending = none →
      bs.drop (gap last bs).reach = word ++ t →
      (readFrom last frames bs).1.length = (readFrom lexeme.kind frames t).1.length + 1 := by
    intro last bs t ht ending behind
    obtain ⟨c, cs, rfl⟩ : ∃ c cs, word = c :: cs := by
      apply List.exists_cons_of_ne_nil
      rintro rfl
      exact absurd h.mem (by decide)
    rw [Gap.reach, ending, Option.getD_none, Nat.add_zero, List.cons_append] at behind
    rw [readFrom_token frames ending behind, ← List.cons_append, scanned t ht, length_prepend,
      length, List.drop_left]
  have plain : (readFrom last frames (y ++ ('\n' : UInt8) :: v)).1.length =
      (readFrom lexeme.kind frames ('\n' :: v)).1.length + 2 := by
    have gap := gap_word h.mem .newline ('\n' :: v)
    rw [readFrom_break frames ending, h.behind, length_prepend,
      token .newline _ _ (endsLine_feed v) (by rw [gap]) (by rw [gap]; rfl)]
  have added := token last _ _ (hw.endsLine v) h.ending' h.behind'
  have rest : readFrom lexeme.kind frames (w ++ ('\n' : UInt8) :: v) =
      readFrom lexeme.kind frames ('\n' :: v) := same_nil hw v lexeme.kind frames
  intro same
  rw [same, plain, rest] at added
  omega

end Step

/-! ### The run -/

/-- A gap with a line break that ends an expression does not stop before a continuing line. -/
theorem continuesPrevious_of_ending {last : Kind} {bs : Bytes} {width : Nat}
    (h : (gap last bs).ending = some width) :
    continuesPrevious (bs.drop (gap last bs).reach) = false := by
  fun_induction gap last bs with
  | case1 bs front _ hfront more lines rest _ hmore ih =>
    rw [Gap.reach_after, drop_behind hmore]
    exact ih h
  | case2 bs front spaced hfront more lines rest ends hmore =>
    have behind : bs.drop (front + 1 + lines) = rest := drop_behind hmore lines 0
    simp only [Gap.reach, Option.getD_some, ← Nat.add_assoc]
    rw [behind]
    simp only [Bool.or_eq_true, not_or, Bool.not_eq_true] at ends
    exact ends.2
  | case3 => cases h
  | case4 => cases h

theorem Reached.rest_eq {s : Source} {st : State} (h : Reached s st) :
    st.rest = s.text.drop st.offset := by
  induction h with
  | start => rfl
  | @lineBreak st width _ _ ih =>
    change st.ahead.drop width = s.text.drop (st.start + width)
    rw [State.ahead, ih, State.start, List.drop_drop, List.drop_drop, Nat.add_assoc]
  | @token st _ _ _ ih =>
    change st.ahead.drop st.scanned.1.width = s.text.drop (st.start + st.scanned.1.width)
    rw [State.ahead, ih, State.start, List.drop_drop, List.drop_drop, Nat.add_assoc]

/-- A continuing word is alone on the line that ends between `u` and `v`, and the line break before
it ends an expression. -/
def WordAlone (name u v : Bytes) : Prop :=
  ∃ st width word, Reached ⟨name, u ++ ('\n' : UInt8) :: v⟩ st ∧ st.before.ending = some width ∧
    word ∈ continuingWords ∧ st.ahead.drop width = word ++ ('\n' : UInt8) :: v

section Run

variable {name u v w : Bytes} {st : State}

theorem Reached.rest_append (h : Reached ⟨name, u ++ ('\n' : UInt8) :: v⟩ st)
    (le : st.offset ≤ u.length) : st.rest = u.drop st.offset ++ ('\n' : UInt8) :: v := by
  rw [h.rest_eq, List.drop_append_of_le_length le]

/-- In step: what is read from the start is the same in both texts if it is the same from the state
on. Or the steps have parted at a word. -/
theorem Reached.same_iff (hw : Trailing w) (h : Reached ⟨name, u ++ ('\n' : UInt8) :: v⟩ st)
    (le : st.offset ≤ u.length) :
    (Same w v .newline [] u ↔ Same w v st.last st.frames (u.drop st.offset)) ∨
      (w.head? = some (' ' : UInt8) ∧ WordAlone name u v) ∧ ¬ Same w v .newline [] u := by
  induction h with
  | start => exact .inl Iff.rfl
  | @lineBreak st width reached ending ih =>
    have le : st.offset + st.before.width + width ≤ u.length := le
    have rest := reached.rest_append (by omega)
    have before : gap st.last (u.drop st.offset ++ ('\n' : UInt8) :: v) = st.before := by
      rw [State.before, rest]
    have reach : st.before.reach = st.before.width + width := by
      rw [Gap.reach, ending, Option.getD_some]
    rcases ih (by omega) with same | parted
    · have step := same_break_iff hw st.frames (before ▸ ending)
        (by rw [before, reach, List.length_drop]; omega)
      rw [before, reach, List.drop_drop, ← Nat.add_assoc] at step
      rcases step with step | ⟨word, found⟩
      · exact .inl (same.trans step)
      · have behind := found.behind
        rw [before, reach, ← rest, ← List.drop_drop] at behind
        refine .inr ⟨⟨found.space, st, width, word, reached, ending, found.mem, behind⟩, ?_⟩
        exact fun all => not_same_of_wordFound hw found (same.mp all)
    · exact .inr parted
  | @token st reached more ending ih =>
    have le : st.offset + st.before.width + st.scanned.1.width ≤ u.length := le
    have rest := reached.rest_append (by omega)
    have before : gap st.last (u.drop st.offset ++ ('\n' : UInt8) :: v) = st.before := by
      rw [State.before, rest]
    rcases ih (by omega) with same | parted
    · have ahead : (u.drop st.offset ++ ('\n' : UInt8) :: v).drop st.before.width = st.ahead := by
        rw [State.ahead, rest]
      have found : st.scanned = scan st.ahead st.frames := rfl
      have step := same_token_iff hw reached.guarded (before ▸ ending) (before ▸ ahead) more found
        (by rw [before, List.length_drop]; omega)
      rw [before, List.drop_drop, ← Nat.add_assoc] at step
      exact .inl (same.trans step)
    · exact .inr parted

/-- A word that is alone on its line is found with a space behind it. -/
theorem wordFound_of_alone (hw : Trailing w) (space : w.head? = some (' ' : UInt8)) {last : Kind}
    {y v word : Bytes} {width : Nat} (mem : word ∈ continuingWords)
    (ending : (gap last (y ++ ('\n' : UInt8) :: v)).ending = some width)
    (behind : (y ++ ('\n' : UInt8) :: v).drop (gap last (y ++ ('\n' : UInt8) :: v)).reach =
      word ++ ('\n' : UInt8) :: v) :
    ∃ word, WordFound w last y v word := by
  have le : (gap last (y ++ ('\n' : UInt8) :: v)).reach ≤ y.length := by
    have length := congrArg List.length behind
    simp only [List.length_drop, List.length_append, List.length_cons] at length
    omega
  rcases gap_append_break hw ending le with same | found
  · -- The line break would end an expression in front of a line that continues it.
    rw [List.drop_append_of_le_length le] at behind
    have alone := List.append_cancel_right behind
    have ends := continuesPrevious_of_ending (same ▸ ending)
    rw [same, List.drop_append_of_le_length le, alone, continuesPrevious_trailing hw,
      decide_eq_true ⟨mem, space⟩, Bool.or_true] at ends
    cases ends
  · exact found

/-- At a word that is alone on its line, the steps part if there is a space behind it. -/
theorem not_same_of_wordAlone (hw : Trailing w) (space : w.head? = some (' ' : UInt8))
    (alone : WordAlone name u v) : ¬ Same w v .newline [] u := by
  obtain ⟨st, width, word, reached, ending, mem, behind⟩ := alone
  have le : st.offset ≤ u.length := by
    have length := congrArg List.length behind
    rw [State.ahead, reached.rest_eq] at length
    simp only [List.length_drop, List.length_append, List.length_cons] at length
    omega
  have found : ∃ word, WordFound w st.last (u.drop st.offset) v word := by
    have reach : st.before.reach = st.before.width + width := by
      rw [Gap.reach, ending, Option.getD_some]
    rw [State.ahead, List.drop_drop, ← reach] at behind
    rw [State.before, reached.rest_append le] at ending behind
    exact wordFound_of_alone hw space mem ending behind
  obtain ⟨word, found⟩ := found
  intro same
  rcases reached.same_iff hw le with step | ⟨-, apart⟩
  · exact not_same_of_wordFound hw found (step.mp same)
  · exact apart same

/-- The line feed between `u` and `v` is skipped as a part of blank lines. -/
def SkippedBetween (name u v : Bytes) : Prop :=
  ∃ st k, Reached ⟨name, u ++ ('\n' : UInt8) :: v⟩ st ∧ InLines st.last st.rest k ∧
    st.offset + k = u.length

/-- The line feed stands right behind a token. -/
theorem Reached.skippedBetween
    (h : Reached ⟨name, u ++ ('\n' : UInt8) :: v⟩ st) (rest : st.rest = ('\n' : UInt8) :: v)
    (length : st.offset = u.length) : SkippedBetween name u v := by
  refine ⟨st, 0, h, ?_, length⟩
  rw [rest]
  exact inLines_feed st.last v

/-- What is added at the end of a line changes nothing but places, unless it is a space behind a
continuing word that is alone on its line. -/
theorem trailing_text_unread_iff (name u v w : Bytes) (hw : Trailing w)
    (skipped : SkippedBetween name u v) :
    reading (tokenize ⟨name, u ++ w ++ ('\n' : UInt8) :: v⟩) =
        reading (tokenize ⟨name, u ++ ('\n' : UInt8) :: v⟩) ↔
      ¬ (w.head? = some (' ' : UInt8) ∧ WordAlone name u v) := by
  rw [reading_tokenize, reading_tokenize, List.append_assoc]
  change Same w v .newline [] u ↔ _
  constructor
  · rintro same ⟨space, alone⟩
    exact not_same_of_wordAlone hw space alone same
  · intro apart
    obtain ⟨st, k, reached, inLines, hk⟩ := skipped
    have length : (u.drop st.offset).length = k := by
      rw [List.length_drop]
      omega
    have last : Same w v st.last st.frames (u.drop st.offset) := by
      rw [reached.rest_append (by omega), ← length] at inLines
      exact ((sameBreak_trailing hw inLines).readFrom_eq st.frames).symm
    rcases reached.same_iff hw (by omega) with same | ⟨parted, -⟩
    · exact same.mpr last
    · exact absurd parted apart

end Run

/-- A comment at the end of the first of two lines, behind a tab. -/
theorem commentedLine_same :
    Trailing (text "\t# first") ∧ SkippedBetween Source.defaultName (text "a") (text "b") ∧
      reading (tokenize ⟨Source.defaultName, text "a\t# first\nb"⟩) =
        reading (tokenize ⟨Source.defaultName, text "a\nb"⟩) := by
  have trailing : Trailing (text "\t# first") :=
    ⟨text "\t", text "# first", by decide, by decide, by decide +kernel,
      .inr ⟨text " first", by decide, by decide⟩⟩
  have skipped : SkippedBetween Source.defaultName (text "a") (text "b") := by
    have reached := (Reached.start (s := ⟨Source.defaultName, text "a\nb"⟩)).token
      (by decide +kernel) (by decide +kernel)
    exact reached.skippedBetween (by decide +kernel) (by decide +kernel)
  refine ⟨trailing, skipped, ?_⟩
  exact (trailing_text_unread_iff _ (text "a") (text "b") _ trailing skipped).mpr fun h =>
    absurd h.1 (by decide)

/-- A space behind `when` on a line of its own takes the line break before it away. -/
theorem spacedWhen_differs :
    Trailing (text " ") ∧ SkippedBetween Source.defaultName (text "a\nwhen") (text "b") ∧
      reading (tokenize ⟨Source.defaultName, text "a\nwhen" ++ text " " ++
          ('\n' : UInt8) :: text "b"⟩) ≠
        reading (tokenize ⟨Source.defaultName, text "a\nwhen" ++ ('\n' : UInt8) :: text "b"⟩) := by
  refine ⟨⟨text " ", [], by decide, by decide, by decide +kernel, .inl rfl⟩, ?_, by decide +kernel⟩
  have word := (Reached.start (s := ⟨Source.defaultName, text "a\nwhen\nb"⟩)).token
    (by decide +kernel) (by decide +kernel)
  have broken := word.lineBreak (show _ = some 1 by decide +kernel)
  have reached := broken.token (by decide +kernel) (by decide +kernel)
  exact reached.skippedBetween (by decide +kernel) (by decide +kernel)

end Lexer
end CallAtlas
