import CallAtlas.Proofs.Token.Gaps
import CallAtlas.Proofs.Token.Kinds

/-! # The run of the lexer

The lexer goes over a text one token at a time. A state holds what it has found so far and what it
knows where it stands; `Reached` are the states that it comes to, and the last of them tells what it
finds in the whole text. So what one step keeps holds of all tokens.
-/
namespace CallAtlas.Lexer

/-- A place in the run: the tokens and faults found so far, the kind of the last token, the embedded
expressions that are open, and the text that is left. -/
structure State where
  found : List Token := []
  errors : List LexicalError := []
  last : Kind := .newline
  frames : List Frame := []
  offset : Nat := 0
  rest : Bytes

namespace State

def before (st : State) : Gap := gap st.last st.rest

def start (st : State) : Nat := st.offset + st.before.width

def ahead (st : State) : Bytes := st.rest.drop st.before.width

def lineBreak (lines : LineTable) (st : State) (width : Nat) : Token :=
  { place lines st.start st.ahead st.before { kind := .newline, width } with lexeme := ['\n'] }

def behindBreak (lines : LineTable) (st : State) (width : Nat) : State :=
  { st with
    found := st.found ++ [st.lineBreak lines width]
    last := .newline
    offset := st.start + width
    rest := st.ahead.drop width }

def scanned (st : State) : Lexeme × List Frame := scan st.ahead st.frames

def token (lines : LineTable) (st : State) : Token :=
  place lines st.start st.ahead st.before st.scanned.1

def behindToken (lines : LineTable) (st : State) : State :=
  { found := st.found ++ [st.token lines]
    errors := st.errors ++ placeFaults lines st.start st.scanned.1
    last := st.scanned.1.kind
    frames := st.scanned.2
    offset := st.start + st.scanned.1.width
    rest := st.ahead.drop st.scanned.1.width }

def finished (lines : LineTable) (st : State) : List Token × List LexicalError :=
  let last := finish lines st.start st.before st.frames
  (st.found ++ last.1, st.errors ++ last.2)

def eof (lines : LineTable) (st : State) (gap : Gap) : Token :=
  place lines st.start [] gap { kind := .eof, width := 0 }

/-- The error token of an embedded expression that is open at the end of the text. -/
def cut (lines : LineTable) (st : State) : Token :=
  place lines st.start [] st.before (.failed .unterminatedInterpolation 0)

theorem finished_closed {st : State} (lines : LineTable) (h : st.frames = []) :
    st.finished lines = (st.found ++ [st.eof lines st.before], st.errors) := by
  simp [finished, finish, h, eof]

theorem finished_open {st : State} (lines : LineTable) (h : st.frames ≠ []) :
    st.finished lines = (st.found ++ [st.cut lines] ++ [st.eof lines {}],
      st.errors ++ placeFaults lines st.start (.failed .unterminatedInterpolation 0)) := by
  simp [finished, finish, h, eof, cut]

end State

/-- The states that the lexer comes to in a source. -/
inductive Reached (s : Source) : State → Prop
  | start : Reached s { rest := s.text }
  | lineBreak {st width} : Reached s st → st.before.ending = some width →
      Reached s (st.behindBreak s.lineTable width)
  | token {st} : Reached s st → st.ahead ≠ [] → st.before.ending = none →
      Reached s (st.behindToken s.lineTable)

theorem drop_cons_of_pos {b : UInt8} {bs : Bytes} {n : Nat} (h : 0 < n) :
    (b :: bs).drop n = bs.drop (n - 1) := by
  cases n with
  | zero => cases h
  | succ n => rfl

/-- From any state on, the rest of the tokens is found in a state that has nothing ahead. -/
theorem Reached.exists_finished {s : Source} {st : State} (h : Reached s st) :
    ∃ last, Reached s last ∧ last.ahead = [] ∧
      let more := tokensFrom s.lineTable st.last st.frames st.offset st.rest
      (st.found ++ more.1, st.errors ++ more.2) = last.finished s.lineTable := by
  obtain ⟨found, errors, last, frames, offset, rest⟩ := st
  dsimp only
  fun_induction tokensFrom s.lineTable last frames offset rest generalizing found errors with
  | case1 last frames offset bs before start hend => exact ⟨_, h, hend, rfl⟩
  | case2 last frames offset bs before start b more hmore _ width hwidth token tokens errors' hrest
      ih =>
    have ahead : (State.mk found errors last frames offset bs).ahead = b :: more := hmore
    have next : Reached s
        { found := found ++ [token], errors, last := .newline, frames, offset := start + width,
          rest := more.drop (width - 1) } := by
      have reached := h.lineBreak hwidth
      unfold State.behindBreak State.lineBreak at reached
      rwa [ahead, drop_cons_of_pos (ending_gap hwidth).2.1] at reached
    obtain ⟨final, reached, ended, hfinal⟩ := ih _ _ next
    refine ⟨final, reached, ended, ?_⟩
    rw [← hfinal, hrest]
    simp
  | case3 last frames offset bs before start b more hmore _ hnone lexeme frames' hscan tokens
      errors' hrest ih =>
    have ahead : (State.mk found errors last frames offset bs).ahead = b :: more := hmore
    have scanned : (State.mk found errors last frames offset bs).scanned = (lexeme, frames') := by
      rw [State.scanned, ahead, hscan]
    have next : Reached s
        { found := found ++ [place s.lineTable start (b :: more) before lexeme]
          errors := errors ++ placeFaults s.lineTable start lexeme, last := lexeme.kind
          frames := frames', offset := start + lexeme.width
          rest := more.drop (lexeme.width - 1) } := by
      have pos := (Scan.within_scan b more frames).1
      rw [hscan] at pos
      have reached := h.token (by simp [ahead]) hnone
      unfold State.behindToken State.token at reached
      rwa [scanned, ahead, drop_cons_of_pos pos] at reached
    obtain ⟨final, reached, ended, hfinal⟩ := ih _ _ next
    refine ⟨final, reached, ended, ?_⟩
    rw [← hfinal, hrest]
    simp

theorem tokenize_eq_finished (s : Source) :
    ∃ last, Reached s last ∧ last.ahead = [] ∧ tokenize s = last.finished s.lineTable := by
  obtain ⟨last, reached, ended, found⟩ := (Reached.start (s := s)).exists_finished
  exact ⟨last, reached, ended, found⟩

/-! ### What holds of every token -/

/-- What holds of line breaks and of all that is scanned holds of the tokens found so far. -/
theorem Reached.forall_found {s : Source} {st : State} {P : Token → Prop} (h : Reached s st)
    (breaks : ∀ t, t.kind = .newline → P t)
    (scanned : ∀ offset gap b bs frames,
      P (place s.lineTable offset (b :: bs) gap (scan (b :: bs) frames).1)) :
    ∀ t ∈ st.found, P t := by
  induction h with
  | start => simp
  | lineBreak _ _ ih =>
    intro t ht
    rcases List.mem_append.mp ht with ht | ht
    · exact ih t ht
    · rw [List.mem_singleton.mp ht]
      exact breaks _ rfl
  | @token st _ more _ ih =>
    obtain ⟨b, bs, ahead⟩ := List.exists_cons_of_ne_nil more
    intro t ht
    rcases List.mem_append.mp ht with ht | ht
    · exact ih t ht
    · rw [List.mem_singleton.mp ht, State.token, State.scanned, ahead]
      exact scanned st.start st.before b bs st.frames

theorem Reached.kind_ne_eof {s : Source} {st : State} (h : Reached s st) :
    ∀ t ∈ st.found, t.kind ≠ .eof := by
  refine h.forall_found (P := fun t => t.kind ≠ .eof) ?_ ?_
  · intro t ht
    simp [ht]
  · intro _ _ b bs frames
    exact Scan.kind_scan_ne_eof b bs frames

/-- The tokens of a source end with the end of the text, and no other token is one. -/
theorem tokenize_ends (s : Source) : ∃ tokens eof, (tokenize s).1 = tokens ++ [eof] ∧
    (∀ t ∈ tokens, t.kind ≠ .eof) ∧ eof.kind = .eof := by
  obtain ⟨last, reached, -, finished⟩ := tokenize_eq_finished s
  have kinds := reached.kind_ne_eof
  by_cases closed : last.frames = []
  · rw [State.finished_closed _ closed] at finished
    exact ⟨last.found, _, by rw [finished], kinds, rfl⟩
  · rw [State.finished_open _ closed] at finished
    refine ⟨last.found ++ [last.cut s.lineTable], _, by rw [finished], ?_, rfl⟩
    intro t ht
    rcases List.mem_append.mp ht with ht | ht
    · exact kinds t ht
    · rw [List.mem_singleton.mp ht]
      nofun

/-- What holds of line breaks, of error tokens, of the end of the text and of all that is scanned
holds of the tokens of a source. -/
theorem forall_mem_tokenize {P : Token → Prop} (s : Source)
    (rest : ∀ t, t.kind ∈ [.newline, .error, .eof] → P t)
    (scanned : ∀ offset gap b bs frames,
      P (place s.lineTable offset (b :: bs) gap (scan (b :: bs) frames).1)) :
    ∀ t ∈ (tokenize s).1, P t := by
  obtain ⟨last, reached, -, finished⟩ := tokenize_eq_finished s
  have found := reached.forall_found (fun t ht => rest t (by simp [ht])) scanned
  have eof (gap : Gap) : P (last.eof s.lineTable gap) := rest _ (by simp [State.eof, place])
  have cut : P (last.cut s.lineTable) := rest _ (by simp [State.cut, place, Lexeme.failed])
  intro t ht
  by_cases closed : last.frames = []
  · rw [finished, State.finished_closed _ closed] at ht
    simp only [List.mem_append, List.mem_singleton] at ht
    rcases ht with ht | rfl
    · exact found t ht
    · exact eof _
  · rw [finished, State.finished_open _ closed] at ht
    simp only [List.mem_append, List.mem_singleton] at ht
    rcases ht with (ht | rfl) | rfl
    · exact found t ht
    · exact cut
    · exact eof _

end CallAtlas.Lexer
