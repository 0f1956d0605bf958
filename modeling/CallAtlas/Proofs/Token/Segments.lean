import CallAtlas.Proofs.Name
import CallAtlas.Proofs.Token.Run

/-! # What the tokens of module references hold

Of all that the lexer can find at a place, only a name with a capital letter gives a token of kind
`alias`. So such a token holds a name that can be a segment of a module's name.
-/
namespace CallAtlas

open ModuleName (IsSegment)

namespace Scan

/-! ### Names with a capital letter -/

theorem isSegment_of_upper {b : UInt8} {bs : Bytes} (hb : Bytes.isUpper b)
    (hbs : ∀ x ∈ bs, continuesName x) : IsSegment (b :: bs) := by
  have continues : ∀ x ∈ b :: bs, continuesName x := by
    intro x hx
    rcases List.mem_cons.mp hx with rfl | hx
    · simp [continuesName, hb]
    · exact hbs x hx
  refine ⟨⟨List.cons_ne_nil b bs, ?_⟩, ?_, ?_⟩
  · intro hdot
    exact absurd (continues _ hdot) (by decide)
  · intro hcolon
    obtain rfl := Option.some.inj hcolon
    exact absurd hb (by decide)
  · intro hunknown
    have first : some b = (text "unknown").head? := congrArg List.head? hunknown
    obtain rfl := Option.some.inj first
    exact absurd hb (by decide)

theorem isSegment_takeWhile {b : UInt8} (bs : Bytes) (hb : Bytes.isUpper b) :
    IsSegment ((b :: bs).takeWhile continuesName) := by
  have first : continuesName b := by simp [continuesName, hb]
  rw [List.takeWhile_cons_of_pos first]
  exact isSegment_of_upper hb fun x hx => List.all_eq_true.mp List.all_takeWhile x hx

theorem isSegment_aliasName {b : UInt8} (bs : Bytes) (hb : Bytes.isUpper b) :
    IsSegment (aliasName (b :: bs)).value := by
  have name : (b :: bs).take ((b :: bs).takeWhile continuesName).length =
      (b :: bs).takeWhile continuesName :=
    (List.prefix_iff_eq_take.mp (List.takeWhile_prefix _)).symm
  have value : (aliasName (b :: bs)).value = (b :: bs).takeWhile continuesName := by
    unfold aliasName named
    dsimp only
    split <;> exact name
  rw [value]
  exact isSegment_takeWhile bs hb

/-- No word is a name with a capital letter. -/
theorem kind_identifier (bs : Bytes) : (identifier bs).kind ≠ .alias := by
  rcases kind_identifier_cases bs with h | h | h | h
  · simp [h]
  · simp [h]
  · simp [h]
  · have words : ∀ entry ∈ Kind.keywords, entry.2 ≠ .alias := by decide
    exact words (_, _) h

end Scan

/-! ### Tokens -/

/-- A token of kind `alias` holds a segment. -/
def HoldsSegment (found : Lexeme × List Frame) : Prop :=
  found.1.kind = .alias → IsSegment found.1.value

open Scan in
theorem holdsSegment_scan (b : UInt8) (bs : Bytes) (frames : List Frame) :
    HoldsSegment (scan (b :: bs) frames) := by
  have found := found_scan b bs frames
  generalize scan (b :: bs) frames = found' at found
  intro hk
  cases found with
  | separator => cases hk
  | identifier _ => exact absurd hk (kind_identifier _)
  | aliasName upper => exact isSegment_aliasName bs upper
  | starts literal =>
    cases literal with
    | plain h =>
      rw [hk] at h
      cases h
    | opens h => exact absurd (h.kind.symm.trans hk) nofun
  | continues _ literal =>
    cases literal with
    | opens h => exact absurd (h.kind.symm.trans hk) nofun
    | closes h => exact absurd (h.kind.symm.trans hk) nofun
    | unterminated h _ => exact absurd (h.symm.trans hk) nofun
  | typeOperator => cases hk
  | operator _ =>
    have kinds : ∀ kind ∈ operatorKinds, kind ≠ .alias := by decide
    exact absurd hk (kinds _ (kind_operator_cases b bs).1)

/-- Every token of kind `alias` of a source holds a segment. -/
theorem isSegment_tokenize (s : Source) :
    ∀ t ∈ (tokenize s).1, t.kind = .alias → IsSegment t.value := by
  refine Lexer.forall_mem_tokenize s ?_ ?_
  · intro t ht hk
    rw [hk] at ht
    simp at ht
  · intro _ _ b bs frames
    exact holdsSegment_scan b bs frames

end CallAtlas
