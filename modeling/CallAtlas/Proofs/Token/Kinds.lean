import CallAtlas.Token.Lexer

/-! # What can be found at a place

`Found` lists what `scan` can give. A word, a name with a capital letter and an operator are told
apart by the first byte. Everything else is a literal or a fragment of one, a key or a malformed
piece of text, and for most purposes it does not matter which. Only fragments and braces change the
frames.
-/
namespace CallAtlas

/-- The kinds of literals in one piece, of keys and of malformed text. -/
def Kind.isPlain : Kind → Bool
  | .error | .keywordKey | .atom | .integer | .float | .char | .string | .charlist | .sigil => true
  | _ => false

namespace Scan

/-- The lexeme is a fragment of a literal. -/
structure IsFragment (form : LiteralForm) (kind : Kind) (lexeme : Lexeme) : Prop where
  kind : lexeme.kind = kind
  container : lexeme.container = form.container
  sigilName : lexeme.sigilName = form.sigilName

/-- A literal starts: all of it stands there, or its first fragment, which opens a frame. -/
inductive Starts (frames : List Frame) : Lexeme × List Frame → Prop
  | plain {lexeme} : lexeme.kind.isPlain → Starts frames (lexeme, frames)
  | opens {form lexeme} : IsFragment form .interpStart lexeme →
      Starts frames (lexeme, { form } :: frames)

/-- A literal goes on behind an embedded expression. -/
inductive Continues (form : LiteralForm) (outer : List Frame) : Lexeme × List Frame → Prop
  | opens {lexeme} : IsFragment form .interpMiddle lexeme →
      Continues form outer (lexeme, { form } :: outer)
  | closes {lexeme} : IsFragment form .interpEnd lexeme → Continues form outer (lexeme, outer)
  | unterminated {lexeme} : lexeme.kind = .error → lexeme.faults ≠ [] →
      Continues form outer (lexeme, outer)

/-- What can stand at the start of a text. -/
inductive Found (b : UInt8) (bs : Bytes) (frames : List Frame) : Lexeme × List Frame → Prop
  | separator : Found b bs frames ({ kind := .newline, width := 1 }, frames)
  | identifier : startsName b → Found b bs frames (identifier (b :: bs), frames)
  | aliasName : Bytes.isUpper b → Found b bs frames (aliasName (b :: bs), frames)
  | starts {found} : Starts frames found → Found b bs frames found
  | continues {form outer found} : frames = { form } :: outer → Continues form outer found →
      Found b bs frames found
  | typeOperator : Found b bs frames ({ kind := .operator, width := 2 }, frames)
  | operator : ((operator (b :: bs)).kind = .rbrace → ∀ frame ∈ frames.head?, frame.depth ≠ 0) →
      Found b bs frames (operatorIn (b :: bs) frames)

/-! ### Literals -/

theorem isPlain_number (bs : Bytes) : (number bs).kind.isPlain := by
  unfold number basedNumber decimalNumber
  split
  · dsimp only
    split <;> rfl
  · dsimp only
    split <;> rfl

theorem isPlain_character (bs : Bytes) : (character bs).kind.isPlain := by
  unfold character
  split
  · rfl
  · split
    · rfl
    · split <;> rfl

theorem isPlain_container (container : Container) : container.kind.isPlain := by
  cases container <;> rfl

theorem starts_fragment (form : LiteralForm) (opening : Nat) (rest : Bytes) (frames : List Frame) :
    Starts frames (fragment form true opening rest frames) := by
  unfold fragment
  dsimp only
  split
  · exact .plain rfl
  · exact .opens ⟨rfl, rfl, rfl⟩
  · exact .plain (isPlain_container form.container)

theorem continues_fragment (form : LiteralForm) (opening : Nat) (rest : Bytes)
    (outer : List Frame) :
    Continues form outer (fragment form false opening rest ({ form } :: outer)) := by
  unfold fragment
  dsimp only
  split
  · exact .unterminated rfl (by simp)
  · exact .opens ⟨rfl, rfl, rfl⟩
  · exact .closes ⟨rfl, rfl, rfl⟩

theorem starts_heredoc (form : LiteralForm) (fault : LexicalFault) (before : Nat) (rest : Bytes)
    (frames : List Frame) : Starts frames (heredoc form fault before rest frames) := by
  unfold heredoc
  dsimp only
  split
  · exact starts_fragment _ _ _ _
  · exact .plain rfl

theorem starts_quoted (container : Container) (bs : Bytes) (frames : List Frame) :
    Starts frames (quoted container bs frames) := by
  unfold quoted
  dsimp only
  split
  · exact starts_heredoc _ _ _ _ _
  · have literal := starts_fragment { container, closer := bs.take 1 } 1 (bs.drop 1) frames
    generalize fragment { container, closer := bs.take 1 } true 1 (bs.drop 1) frames = found
      at literal
    split
    · rename_i hkey
      cases literal with
      | plain _ => exact .plain rfl
      | opens h => simp [h.kind] at hkey
    · exact literal

theorem starts_sigil (bs : Bytes) (frames : List Frame) : Starts frames (sigil bs frames) := by
  unfold sigil
  extract_lets name decoded form before rest
  split
  · exact starts_heredoc _ _ _ _ _
  · split
    · exact .plain rfl
    · exact starts_fragment _ _ _ _

theorem found_colon (b : UInt8) (bs : Bytes) (frames : List Frame) :
    Found b bs frames (colon (b :: bs) frames) := by
  unfold colon
  dsimp only
  split
  · exact .typeOperator
  · apply Found.starts
    split
    · exact starts_fragment _ _ _ _
    · split
      · exact .plain rfl
      · split <;> exact .plain rfl

/-! ### Words and operators -/

/-- A word is reserved, or an identifier. -/
theorem ofWord_cases (word : Bytes) :
    (word, Kind.ofWord word) ∈ Kind.keywords ∨ Kind.ofWord word = .identifier := by
  unfold Kind.ofWord
  cases h : Kind.keywords.lookup word with
  | none => exact .inr rfl
  | some kind =>
    obtain ⟨before, behind, hk, -⟩ := List.lookup_eq_some_iff.mp h
    exact .inl (by simp [hk])

/-- A word is a key, the name of the module around it, an identifier or reserved. -/
theorem kind_identifier_cases (bs : Bytes) :
    (identifier bs).kind = .keywordKey ∨ (identifier bs).kind = .moduleSelf ∨
      (identifier bs).kind = .identifier ∨
      ((identifier bs).value, (identifier bs).kind) ∈ Kind.keywords := by
  unfold identifier named
  dsimp only
  split
  · exact .inl rfl
  · dsimp only
    split
    · exact .inr (.inl rfl)
    · exact .inr (.inr (ofWord_cases _).symm)

/-- The kinds of operators and delimiters. -/
def operatorKinds : List Kind :=
  [.error, .operator, .binClose, .arrow, .binOpen, .lparen, .rparen, .lbracket, .rbracket, .lbrace,
    .rbrace, .comma, .dot, .percent, .at]

/-- The only token with a closing brace is that brace. -/
theorem kind_operator_cases (b : UInt8) (bs : Bytes) :
    (operator (b :: bs)).kind ∈ operatorKinds ∧
      ((operator (b :: bs)).kind = .rbrace → b = '\x7d') := by
  unfold operator
  split
  · rename_i op kind h
    have long : ∀ entry ∈ longOperators, entry.2 ∈ operatorKinds ∧ entry.2 ≠ .rbrace := by decide
    have kinds := long _ (List.mem_of_find?_eq_some h)
    exact ⟨kinds.1, fun hk => absurd hk kinds.2⟩
  · split
    · rename_i kind h
      obtain ⟨before, behind, hk, -⟩ := List.lookup_eq_some_iff.mp h
      have short : ∀ entry ∈ shortOperators,
          entry.2 ∈ operatorKinds ∧ (entry.2 = .rbrace → entry.1 = '\x7d') := by decide
      have entry : (peek (b :: bs) 0, kind) ∈ shortOperators := by
        rw [hk]
        exact List.mem_append_right _ List.mem_cons_self
      exact short _ entry
    · exact ⟨List.mem_cons_self, nofun⟩

theorem found_scan (b : UInt8) (bs : Bytes) (frames : List Frame) :
    Found b bs frames (scan (b :: bs) frames) := by
  unfold scan
  extract_lets first
  refine iteInduction (fun _ => .separator) fun _ => ?_
  refine iteInduction (fun start => .identifier start) fun _ => ?_
  refine iteInduction (fun upper => .aliasName upper) fun _ => ?_
  refine iteInduction (fun _ => .starts (.plain (isPlain_number _))) fun _ => ?_
  refine iteInduction (fun _ => .starts (starts_quoted _ _ _)) fun _ => ?_
  refine iteInduction (fun _ => .starts (starts_quoted _ _ _)) fun _ => ?_
  refine iteInduction (fun _ => found_colon b bs frames) fun _ => ?_
  refine iteInduction (fun _ => .starts (.plain (isPlain_character _))) fun _ => ?_
  refine iteInduction (fun _ => .starts (starts_sigil _ _)) fun _ => ?_
  -- A closing brace belongs to the literal around it if no other brace is open.
  refine iteInduction (fun _ => ?_) fun brace => ?_
  · split
    · exact .continues rfl (continues_fragment _ _ _ _)
    · rename_i deeper
      refine .operator fun _ frame hframe hdepth => ?_
      obtain ⟨outer, rfl⟩ := List.head?_eq_some_iff.mp hframe
      obtain ⟨form, depth⟩ := frame
      subst hdepth
      exact deeper form outer rfl
  · refine .operator fun hk => absurd ?_ brace
    have closes : b = '\x7d' := (kind_operator_cases b bs).2 hk
    exact beq_iff_eq.mpr closes

/-- Only the end of the text gives the token of its end. -/
theorem kind_scan_ne_eof (b : UInt8) (bs : Bytes) (frames : List Frame) :
    (scan (b :: bs) frames).1.kind ≠ .eof := by
  have found := found_scan b bs frames
  generalize scan (b :: bs) frames = found' at found
  cases found with
  | separator => nofun
  | identifier _ =>
    rcases kind_identifier_cases (b :: bs) with h | h | h | h
    · simp [h]
    · simp [h]
    · simp [h]
    · have words : ∀ entry ∈ Kind.keywords, entry.2 ≠ .eof := by decide
      exact words (_, _) h
  | aliasName _ =>
    unfold aliasName named
    dsimp only
    split <;> nofun
  | starts literal =>
    cases literal with
    | plain h =>
      intro hk
      rw [hk] at h
      cases h
    | opens h => simp [h.kind]
  | continues _ literal =>
    cases literal with
    | opens h => simp [h.kind]
    | closes h => simp [h.kind]
    | unterminated h _ => simp [h]
  | typeOperator => nofun
  | operator _ =>
    have kinds : ∀ kind ∈ operatorKinds, kind ≠ .eof := by decide
    exact kinds _ (kind_operator_cases b bs).1

end Scan
end CallAtlas
