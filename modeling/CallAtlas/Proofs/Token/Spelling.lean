import CallAtlas.Proofs.Token.Run

/-! # How tokens are spelled

The kind of a reserved word tells how it is written, an operator has no value beside its text, and a
name is not empty. So the text that a tree keeps of such a token can be told from its kind.
-/
namespace CallAtlas

/-- What the kind of a token tells about its text. -/
structure Token.Spelled (t : Token) : Prop where
  reserved : ∀ word, (word, t.kind) ∈ Kind.keywords → t.lexeme = word ∧ t.value = word
  identifier : t.kind = .identifier → t.value ≠ []
  moduleSelf : t.kind = .moduleSelf → t.value = text "__MODULE__"
  operator : t.kind = .operator → t.value = [] ∧ t.lexeme.length ≤ 3

/-- The kinds that tell something about the text of their tokens. -/
def Kind.isVerbal : Kind → Bool
  | .identifier | .moduleSelf | .operator | .kwDo | .kwEnd | .kwFn | .kwElse | .kwAfter | .kwCatch
  | .kwRescue | .kwWhen | .kwAnd | .kwOr | .kwNot | .kwIn | .kwTrue | .kwFalse | .kwNil => true
  | _ => false

theorem Token.spelled_of_kind {t : Token} (h : t.kind.isVerbal = false) : t.Spelled where
  reserved word hword := by
    have verbal : ∀ entry ∈ Kind.keywords, entry.2.isVerbal := by decide
    have := verbal _ hword
    simp [h] at this
  identifier hk := by simp [hk, Kind.isVerbal] at h
  moduleSelf hk := by simp [hk, Kind.isVerbal] at h
  operator hk := by simp [hk, Kind.isVerbal] at h

theorem Kind.of_keyword {word : Bytes} {kind : Kind} (h : (word, kind) ∈ keywords) :
    kind ≠ .identifier ∧ kind ≠ .moduleSelf ∧ kind ≠ .operator := by
  have kinds : ∀ entry ∈ keywords,
      entry.2 ≠ .identifier ∧ entry.2 ≠ .moduleSelf ∧ entry.2 ≠ .operator := by decide
  exact kinds _ h

theorem Kind.keyword_unique {word word' : Bytes} {kind : Kind} (h : (word, kind) ∈ keywords)
    (h' : (word', kind) ∈ keywords) : word = word' := by
  have unique : ∀ entry ∈ keywords, ∀ entry' ∈ keywords,
      entry.2 = entry'.2 → entry.1 = entry'.1 := by decide
  exact unique _ h _ h' rfl

namespace Token

variable {t : Token}

theorem spelled_word (ne : t.value ≠ []) (lexeme : t.lexeme = t.value)
    (kind : t.kind = Kind.ofWord t.value) : t.Spelled := by
  rcases Scan.ofWord_cases t.value with h | h
  · rw [← kind] at h
    obtain ⟨-, notSelf, notOperator⟩ := Kind.of_keyword h
    constructor
    · intro word hword
      obtain rfl := Kind.keyword_unique h hword
      exact ⟨lexeme, rfl⟩
    · exact fun _ => ne
    · exact fun hk => absurd hk notSelf
    · exact fun hk => absurd hk notOperator
  · rw [← kind] at h
    constructor
    · exact fun word hword => absurd h (Kind.of_keyword hword).1
    · exact fun _ => ne
    · exact fun hk => absurd (h.symm.trans hk) nofun
    · exact fun hk => absurd (h.symm.trans hk) nofun

theorem spelled_moduleSelf (h : t.kind = .moduleSelf) (value : t.value = text "__MODULE__") :
    t.Spelled where
  reserved _ hword := absurd h (Kind.of_keyword hword).2.1
  identifier hk := absurd (h.symm.trans hk) nofun
  moduleSelf _ := value
  operator hk := absurd (h.symm.trans hk) nofun

theorem spelled_operator (h : t.kind = .operator) (value : t.value = [])
    (lexeme : t.lexeme.length ≤ 3) : t.Spelled where
  reserved _ hword := absurd h (Kind.of_keyword hword).2.2
  identifier hk := absurd (h.symm.trans hk) nofun
  moduleSelf hk := absurd (h.symm.trans hk) nofun
  operator _ := ⟨value, lexeme⟩

end Token

namespace Scan

theorem isVerbal_plain {kind : Kind} (h : kind.isPlain) : kind.isVerbal = false := by
  cases kind <;> first | rfl | cases h

/-- A word that is no key has its own text for its value. -/
theorem identifier_cases (bs : Bytes) : (identifier bs).kind = .keywordKey ∨
    ∃ name, bs.take (identifier bs).width = name ∧ (identifier bs).value = name ∧
      (identifier bs).kind =
        if name == text "__MODULE__" then .moduleSelf else Kind.ofWord name := by
  unfold identifier named
  dsimp only
  split
  · exact .inl rfl
  · exact .inr ⟨_, rfl, rfl, rfl⟩

theorem width_operator_le (bs : Bytes) : (operator bs).width ≤ 3 ∧ (operator bs).value = [] := by
  unfold operator
  split
  · rename_i op kind h
    have long : ∀ entry ∈ longOperators, entry.1.length ≤ 3 := by decide
    exact ⟨long _ (List.mem_of_find?_eq_some h), rfl⟩
  · split
    · exact ⟨Nat.le_add_left 1 2, rfl⟩
    · exact ⟨Nat.le_add_left 1 2, rfl⟩

section Place

open Lexer

variable (lines : LineTable) (offset : Nat) (gap : Gap) (b : UInt8) (bs : Bytes)

theorem spelled_identifier (h : startsName b) :
    (place lines offset (b :: bs) gap (identifier (b :: bs))).Spelled := by
  have cases := identifier_cases (b :: bs)
  have width := (within_identifier bs h).1
  generalize identifier (b :: bs) = lexeme at cases width
  rcases cases with hkey | ⟨name, hlexeme, value, kind⟩
  · exact Token.spelled_of_kind (by simp [place, hkey, Kind.isVerbal])
  split at kind
  · rename_i self
    exact Token.spelled_moduleSelf kind (value.trans (beq_iff_eq.mp self))
  · rw [← value] at kind hlexeme
    refine Token.spelled_word ?_ hlexeme kind
    have ne : lexeme.value ≠ [] := by
      simp only [← hlexeme, ne_eq, List.take_eq_nil_iff, reduceCtorEq, or_false]
      omega
    exact ne

theorem spelled_operator :
    (place lines offset (b :: bs) gap (operator (b :: bs))).Spelled := by
  obtain ⟨width, value⟩ := width_operator_le (b :: bs)
  have kind := (kind_operator_cases b bs).1
  generalize operator (b :: bs) = lexeme at width value kind
  by_cases hk : lexeme.kind = .operator
  · refine Token.spelled_operator hk value ?_
    exact Nat.le_trans (List.length_take_le _ _) width
  · have kinds : ∀ kind ∈ operatorKinds, kind ≠ .operator → kind.isVerbal = false := by decide
    exact Token.spelled_of_kind (kinds _ kind hk)

theorem spelled_scan (frames : List Frame) :
    (place lines offset (b :: bs) gap (scan (b :: bs) frames).1).Spelled := by
  have found := found_scan b bs frames
  generalize scan (b :: bs) frames = found' at found
  cases found with
  | separator => exact Token.spelled_of_kind rfl
  | identifier h =>
    dsimp only
    exact spelled_identifier lines offset gap b bs h
  | aliasName _ =>
    refine Token.spelled_of_kind ?_
    unfold aliasName named
    dsimp only [place]
    split <;> rfl
  | starts literal =>
    cases literal with
    | plain h => exact Token.spelled_of_kind (isVerbal_plain h)
    | opens h => exact Token.spelled_of_kind (by simp [place, h.kind, Kind.isVerbal])
  | continues _ literal =>
    cases literal with
    | opens h => exact Token.spelled_of_kind (by simp [place, h.kind, Kind.isVerbal])
    | closes h => exact Token.spelled_of_kind (by simp [place, h.kind, Kind.isVerbal])
    | unterminated h _ => exact Token.spelled_of_kind (by simp [place, h, Kind.isVerbal])
  | typeOperator =>
    refine Token.spelled_operator rfl rfl ?_
    exact Nat.le_trans (List.length_take_le _ _) (Nat.le_add_left 2 1)
  | operator _ =>
    dsimp only [operatorIn]
    exact spelled_operator lines offset gap b bs

end Place

end Scan

/-- Every token of a source is spelled as its kind tells. -/
theorem spelled_tokenize (s : Source) : ∀ t ∈ (tokenize s).1, t.Spelled := by
  refine Lexer.forall_mem_tokenize s ?_ ?_
  · intro t ht
    have kinds : ∀ kind ∈ [Kind.newline, .error, .eof], kind.isVerbal = false := by decide
    exact Token.spelled_of_kind (kinds _ ht)
  · intro offset gap b bs frames
    exact Scan.spelled_scan s.lineTable offset gap b bs frames

end CallAtlas
