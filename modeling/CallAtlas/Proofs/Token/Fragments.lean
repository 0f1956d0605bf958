import CallAtlas.Proofs.Token.Run

/-! # Fragments of literals

A literal with embedded expressions is a first fragment, the tokens of each expression with further
fragments between them, and a last fragment. `OpenLiteral.step` reads tokens with a stack of the
literals that are open, and counts the braces in the innermost of them. A source without faults is
read to its end with no literal left open, since the stack shows at each place the frames that the
lexer has there.
-/
namespace CallAtlas

/-- A literal that is not yet at its last fragment, with the braces that are open in the expression
that is read in it. -/
structure OpenLiteral where
  container : Container
  sigilName : Bytes
  braces : Nat := 0
  deriving DecidableEq, Repr

namespace OpenLiteral

/-- The literal that a fragment belongs to, where no brace is open. -/
def ofFragment (t : Token) : OpenLiteral := { container := t.container, sigilName := t.sigilName }

/-- Reads a token. A further fragment must belong to the innermost literal, and a brace must not
close more than was opened there. -/
def step (stack : List OpenLiteral) (t : Token) : Option (List OpenLiteral) :=
  match t.kind, stack with
  | .interpStart, stack => some (ofFragment t :: stack)
  | .interpMiddle, top :: outer => if top = ofFragment t then some (top :: outer) else none
  | .interpEnd, top :: outer => if top = ofFragment t then some outer else none
  | .interpMiddle, [] => none
  | .interpEnd, [] => none
  | .lbrace, top :: outer => some ({ top with braces := top.braces + 1 } :: outer)
  | .rbrace, top :: outer =>
    if top.braces = 0 then none else some ({ top with braces := top.braces - 1 } :: outer)
  | _, stack => some stack

/-- The literal of a frame. -/
def ofFrame (frame : Frame) : OpenLiteral :=
  { container := frame.form.container, sigilName := frame.form.sigilName
    braces := frame.depth.toNat }

end OpenLiteral

/-- Tokens of these kinds leave the open literals as they are. -/
def Kind.isNeutral : Kind → Bool
  | .interpStart | .interpMiddle | .interpEnd | .lbrace | .rbrace => false
  | _ => true

namespace OpenLiteral

theorem step_neutral {t : Token} (h : t.kind.isNeutral) (stack : List OpenLiteral) :
    step stack t = some stack := by
  unfold step
  split <;> simp_all [Kind.isNeutral]

theorem isNeutral_plain {kind : Kind} (h : kind.isPlain) : kind.isNeutral := by
  cases kind <;> first | rfl | cases h

end OpenLiteral

namespace Scan

open OpenLiteral

/-- No frame has closed more braces than were opened in it. -/
def Sound (frames : List Frame) : Prop := ∀ frame ∈ frames, 0 ≤ frame.depth

/-- The token has what the lexeme tells about literals. -/
def Shares (t : Token) (lexeme : Lexeme) : Prop :=
  t.kind = lexeme.kind ∧ t.container = lexeme.container ∧ t.sigilName = lexeme.sigilName

/-- What is found in sound frames leaves sound frames. If there is no fault in it, its token leads
from the literals of the frames before it to those of the frames behind it. -/
def Tracks (frames : List Frame) (found : Lexeme × List Frame) : Prop :=
  Sound frames → Sound found.2 ∧ (found.1.faults = [] → ∀ t, Shares t found.1 →
    step (frames.map ofFrame) t = some (found.2.map ofFrame))

section

variable {frames outer : List Frame} {lexeme : Lexeme} {frame : Frame} {form : LiteralForm}

theorem sound_cons (h : 0 ≤ frame.depth) (sound : Sound frames) : Sound (frame :: frames) := by
  intro f hf
  rcases List.mem_cons.mp hf with rfl | hf
  · exact h
  · exact sound f hf

theorem Sound.tail (h : Sound (frame :: frames)) : Sound frames :=
  fun f hf => h f (List.mem_cons_of_mem _ hf)

theorem ofFragment_eq {t : Token} {kind : Kind} (h : IsFragment form kind lexeme)
    (shares : Shares t lexeme) : t.kind = kind ∧ ofFragment t = ofFrame { form } := by
  obtain ⟨hkind, container, sigilName⟩ := shares
  refine ⟨hkind.trans h.kind, ?_⟩
  simp [ofFragment, ofFrame, container, sigilName, h.container, h.sigilName]

theorem tracks_neutral (h : lexeme.kind.isNeutral) : Tracks frames (lexeme, frames) := by
  intro sound
  refine ⟨sound, ?_⟩
  intro _ t shares
  exact step_neutral (shares.1 ▸ h) _

theorem tracks_starts {found : Lexeme × List Frame} (h : Starts frames found) :
    Tracks frames found := by
  cases h with
  | plain kind => exact tracks_neutral (isNeutral_plain kind)
  | opens fragment =>
    intro sound
    refine ⟨sound_cons (Int.le_refl 0) sound, ?_⟩
    intro _ t shares
    obtain ⟨kind, literal⟩ := ofFragment_eq fragment shares
    simp [step, kind, literal]

theorem tracks_continues {found : Lexeme × List Frame} (h : Continues form outer found) :
    Tracks ({ form } :: outer) found := by
  intro sound
  cases h with
  | opens fragment =>
    refine ⟨sound, ?_⟩
    intro _ t shares
    obtain ⟨kind, literal⟩ := ofFragment_eq fragment shares
    simp [step, kind, literal]
  | closes fragment =>
    refine ⟨sound.tail, ?_⟩
    intro _ t shares
    obtain ⟨kind, literal⟩ := ofFragment_eq fragment shares
    simp [step, kind, literal]
  | unterminated _ faults => exact ⟨sound.tail, fun clean => absurd clean faults⟩

theorem tracks_lbrace (h : lexeme.kind = .lbrace) :
    Tracks frames (lexeme, countBrace .lbrace frames) := by
  cases frames with
  | nil =>
    intro sound
    refine ⟨sound, ?_⟩
    intro _ t shares
    simp [step, shares.1, h, countBrace]
  | cons frame outer =>
    intro sound
    have depth : 0 ≤ frame.depth := sound frame List.mem_cons_self
    refine ⟨sound_cons (Int.add_nonneg depth Int.one_nonneg) sound.tail, ?_⟩
    intro _ t shares
    have braces : (frame.depth + 1).toNat = frame.depth.toNat + 1 := by omega
    simp [step, shares.1, h, countBrace, ofFrame, braces]

/-- A closing brace is a token of its own only where a brace is open. -/
theorem tracks_rbrace (h : lexeme.kind = .rbrace)
    (isOpen : ∀ frame ∈ frames.head?, frame.depth ≠ 0) :
    Tracks frames (lexeme, countBrace .rbrace frames) := by
  cases frames with
  | nil =>
    intro sound
    refine ⟨sound, ?_⟩
    intro _ t shares
    simp [step, shares.1, h, countBrace]
  | cons frame outer =>
    intro sound
    have depth : 0 ≤ frame.depth := sound frame List.mem_cons_self
    have deeper : frame.depth ≠ 0 := isOpen frame rfl
    refine ⟨sound_cons (by dsimp only; omega) sound.tail, ?_⟩
    intro _ t shares
    have braces : (frame.depth - 1).toNat = frame.depth.toNat - 1 := by omega
    have pos : frame.depth.toNat ≠ 0 := by omega
    simp [step, shares.1, h, countBrace, ofFrame, braces, pos]

theorem countBrace_neutral {kind : Kind} (h : kind.isNeutral) :
    countBrace kind frames = frames := by
  cases frames with
  | nil => rfl
  | cons frame outer => cases kind <;> first | rfl | cases h

end

theorem tracks_operatorIn (b : UInt8) (bs : Bytes) {frames : List Frame}
    (h : (operator (b :: bs)).kind = .rbrace → ∀ frame ∈ frames.head?, frame.depth ≠ 0) :
    Tracks frames (operatorIn (b :: bs) frames) := by
  have kinds : ∀ kind ∈ operatorKinds, kind = .lbrace ∨ kind = .rbrace ∨ kind.isNeutral := by decide
  unfold operatorIn
  dsimp only
  rcases kinds _ (kind_operator_cases b bs).1 with kind | kind | kind
  · rw [kind]
    exact tracks_lbrace kind
  · rw [kind]
    exact tracks_rbrace kind (h kind)
  · rw [countBrace_neutral kind]
    exact tracks_neutral kind

theorem isNeutral_identifier (bs : Bytes) : (identifier bs).kind.isNeutral := by
  rcases kind_identifier_cases bs with h | h | h | h
  · rw [h]; rfl
  · rw [h]; rfl
  · rw [h]; rfl
  · have words : ∀ entry ∈ Kind.keywords, entry.2.isNeutral := by decide
    exact words (_, _) h

theorem isNeutral_aliasName (bs : Bytes) : (aliasName bs).kind.isNeutral := by
  unfold aliasName named
  dsimp only
  split <;> rfl

/-- What one token does. -/
theorem tracks_scan (b : UInt8) (bs : Bytes) (frames : List Frame) :
    Tracks frames (scan (b :: bs) frames) := by
  have found := found_scan b bs frames
  generalize scan (b :: bs) frames = found' at found
  cases found with
  | separator => exact tracks_neutral rfl
  | identifier _ => exact tracks_neutral (isNeutral_identifier _)
  | aliasName _ => exact tracks_neutral (isNeutral_aliasName _)
  | starts literal => exact tracks_starts literal
  | continues frames literal =>
    subst frames
    exact tracks_continues literal
  | typeOperator => exact tracks_neutral rfl
  | operator isOpen => exact tracks_operatorIn b bs isOpen

end Scan

namespace Lexer

open OpenLiteral

/-! ### The run -/

theorem Reached.sound {s : Source} {st : State} (h : Reached s st) : Scan.Sound st.frames := by
  induction h with
  | start => exact fun frame hframe => absurd hframe List.not_mem_nil
  | lineBreak _ _ ih => exact ih
  | @token st _ more _ ih =>
    obtain ⟨b, bs, ahead⟩ := List.exists_cons_of_ne_nil more
    have tracks := (Scan.tracks_scan b bs st.frames ih).1
    rw [← ahead] at tracks
    exact tracks

theorem foldlM_concat {tokens : List Token} {t : Token} {stack stack' : List OpenLiteral}
    (h : tokens.foldlM step [] = some stack) (ht : step stack t = some stack') :
    (tokens ++ [t]).foldlM step [] = some stack' := by
  rw [List.foldlM_append, h]
  simp [ht]

/-- Without faults, the tokens found so far leave open the literals of the frames. -/
theorem Reached.foldlM_found {s : Source} {st : State} (h : Reached s st) (clean : st.errors = []) :
    st.found.foldlM step [] = some (st.frames.map ofFrame) := by
  induction h with
  | start => rfl
  | @lineBreak st width _ _ ih =>
    have kind : (st.lineBreak s.lineTable width).kind.isNeutral := rfl
    exact foldlM_concat (ih clean) (step_neutral kind _)
  | @token st reached more _ ih =>
    obtain ⟨b, bs, ahead⟩ := List.exists_cons_of_ne_nil more
    obtain ⟨before, placed⟩ := List.append_eq_nil_iff.mp clean
    have faults : st.scanned.1.faults = [] := List.map_eq_nil_iff.mp placed
    have tracks := (Scan.tracks_scan b bs st.frames reached.sound).2
    rw [← ahead] at tracks
    have shares : Scan.Shares (st.token s.lineTable) st.scanned.1 := ⟨rfl, rfl, rfl⟩
    exact foldlM_concat (ih before) (tracks faults _ shares)

end Lexer

/-- The fragments of a source without faults are well nested: reading its tokens leaves no literal
open. Whatever the source is, the lexer never counts more braces closed than opened. -/
theorem fragments_nested (s : Source) :
    ((tokenize s).2 = [] → (tokenize s).1.foldlM OpenLiteral.step [] = some []) ∧
      ∀ st, Lexer.Reached s st → ∀ frame ∈ st.frames, 0 ≤ frame.depth := by
  constructor
  · intro clean
    obtain ⟨last, reached, -, finished⟩ := Lexer.tokenize_eq_finished s
    by_cases closed : last.frames = []
    · rw [Lexer.State.finished_closed _ closed] at finished
      rw [finished] at clean ⊢
      have found := reached.foldlM_found clean
      rw [closed] at found
      have kind : (last.eof s.lineTable last.before).kind.isNeutral := rfl
      exact Lexer.foldlM_concat found (OpenLiteral.step_neutral kind [])
    · -- An expression that is open at the end of the text is a fault.
      rw [Lexer.State.finished_open _ closed] at finished
      rw [finished] at clean
      exact absurd (List.append_eq_nil_iff.mp clean).2 nofun
  · intro st reached
    exact reached.sound

/-- A heredoc with a map and a string in it, which has an expression of its own. -/
def nestedSample : Source :=
  ⟨Source.defaultName,
    text "\"\"\"\na #\x7b%\x7bk: \"b #\x7b:\x7b\x7d\x7d c\"\x7d\x7d d #\x7b?\x7d\x7d\n\"\"\"\n"⟩

theorem nestedSample_nested : (tokenize nestedSample).2 = [] ∧
    (tokenize nestedSample).1.foldlM OpenLiteral.step [] = some [] := by
  have clean : (tokenize nestedSample).2 = [] := by decide +kernel
  exact ⟨clean, (fragments_nested nestedSample).1 clean⟩

end CallAtlas
