import Mathlib.Data.List.Find
import CallAtlas.Proofs.Token.Widths

/-! # How far one token looks ahead

What is scanned at a place may depend on the bytes behind it: a name asks for a colon and a blank, a
number for a point and a digit. Where a line ends behind the token, all these questions are answered
as at the end of the text, whatever stands at the end of the line. So the token is settled by its
own bytes.
-/
namespace CallAtlas

/-- The bytes that the end of a line starts with. -/
def lineEndBytes : Bytes := text " \t\r\n"

-- What holds of these bytes is found by looking at them, not at all bytes.
instance (P : UInt8 → Prop) [DecidablePred P] : Decidable (∀ b ∈ lineEndBytes, P b) :=
  List.decidableBAll P lineEndBytes

/-- The bytes that no closer of a literal holds: those that end a line, and the mark of a
comment. -/
def unclosing : Bytes := text " \t\r\n#"

theorem unclosing_of_lineEnd : ∀ b ∈ lineEndBytes, b ∈ unclosing := by decide

/-- The text starts with the end of a line: a line feed, perhaps behind blanks, or a comment behind
blanks. -/
def EndsLine (r : Bytes) : Prop :=
  ∃ blanks b more, r = blanks ++ b :: more ∧ (∀ c ∈ blanks, Lexer.isBlank c) ∧
    (b = ('\n' : UInt8) ∨ b = ('#' : UInt8) ∧ blanks ≠ [])

/-- `f` gives the same at `y` whatever end of a line stands behind it, and the same as at the end of
the text. -/
def Settled {α : Type} (f : Bytes → α) (y : Bytes) : Prop :=
  ∀ r, EndsLine r → f (y ++ r) = f y

namespace EndsLine

variable {r : Bytes}

theorem mem_lineEndBytes {b : UInt8} (h : Lexer.isBlank b) : b ∈ lineEndBytes := by
  simp only [Lexer.isBlank, Bool.or_eq_true, beq_iff_eq] at h
  rcases h with (rfl | rfl) | rfl <;> decide

theorem exists_cons (h : EndsLine r) : ∃ b more, r = b :: more ∧ b ∈ lineEndBytes := by
  obtain ⟨blanks, b, more, rfl, blank, hb⟩ := h
  cases blanks with
  | nil =>
    obtain rfl : b = ('\n' : UInt8) := by simpa using hb
    exact ⟨_, more, rfl, by decide⟩
  | cons c blanks => exact ⟨c, _, rfl, mem_lineEndBytes (blank c (by simp))⟩

theorem ne_nil (h : EndsLine r) : r ≠ [] := by
  obtain ⟨b, more, rfl, -⟩ := h.exists_cons
  exact List.cons_ne_nil _ _

/-- Behind the blanks of one sort stands another blank, a line feed or a comment. -/
theorem exists_drop_takeWhile (h : EndsLine r) (p : UInt8 → Bool) (feed : p '\n' = false)
    (hash : p '#' = false) :
    ∃ b more, r.drop (r.takeWhile p).length = b :: more ∧ b ∈ unclosing := by
  obtain ⟨blanks, b, more, rfl, blank, hb⟩ := h
  have stop : p b = false ∧ b ∈ unclosing := by
    rcases hb with rfl | ⟨rfl, -⟩
    · exact ⟨feed, by decide⟩
    · exact ⟨hash, by decide⟩
  clear hb
  induction blanks with
  | nil => exact ⟨b, more, by simp [stop.1], stop.2⟩
  | cons c blanks ih =>
    by_cases hc : p c
    · obtain ⟨b', more', rest, stop'⟩ := ih fun c hc => blank c (List.mem_cons_of_mem _ hc)
      exact ⟨b', more', by simpa [hc] using rest, stop'⟩
    · have inside : c ∈ lineEndBytes := mem_lineEndBytes (blank c (by simp))
      exact ⟨c, blanks ++ b :: more, by simp [hc], unclosing_of_lineEnd c inside⟩

/-! ### Questions about the bytes ahead -/

theorem takeWhile_append (h : EndsLine r) (p : UInt8 → Bool)
    (stops : ∀ b ∈ lineEndBytes, p b = false) (y : Bytes) :
    (y ++ r).takeWhile p = y.takeWhile p := by
  obtain ⟨b, more, rfl, hb⟩ := h.exists_cons
  induction y with
  | nil => simp [stops b hb]
  | cons c y ih =>
    rw [List.cons_append, List.takeWhile_cons, List.takeWhile_cons, ih]

/-- A text that holds no end of a line stands in front of one or not at all. -/
theorem isPrefixOf_append (h : EndsLine r) {choice : Bytes}
    (stops : ∀ b ∈ lineEndBytes, b ∉ choice) (y : Bytes) :
    choice.isPrefixOf (y ++ r) = choice.isPrefixOf y := by
  obtain ⟨b, more, rfl, hb⟩ := h.exists_cons
  have absent := stops b hb
  clear stops
  induction choice generalizing y with
  | nil => rfl
  | cons c choice ih =>
    rw [List.mem_cons, not_or] at absent
    cases y with
    | nil => simp [List.isPrefixOf, Ne.symm absent.1]
    | cons d y => simp [List.isPrefixOf, ih y absent.2]

theorem firstOf_append (h : EndsLine r) {choices : List Bytes}
    (stops : ∀ choice ∈ choices, ∀ b ∈ lineEndBytes, b ∉ choice) (y : Bytes) :
    Scan.firstOf choices (y ++ r) = Scan.firstOf choices y := by
  exact List.find?_congr fun choice hchoice => h.isPrefixOf_append (stops choice hchoice) y

theorem head?_append (h : EndsLine r) {b : UInt8} (stops : b ∉ lineEndBytes) (y : Bytes) :
    ((y ++ r).head? == some b) = (y.head? == some b) := by
  obtain ⟨c, more, rfl, hc⟩ := h.exists_cons
  cases y with
  | nil =>
    have other : c ≠ b := fun same => stops (same ▸ hc)
    simp [other]
  | cons d y => rfl

end EndsLine

namespace Scan

theorem peek_append {y : Bytes} {i : Nat} (r : Bytes) (h : i < y.length) :
    peek (y ++ r) i = peek y i := by
  simp [peek, List.getD, List.getElem?_append_left h]

variable {r y : Bytes}

/-- A question that no end of a line answers otherwise than the end of the text. -/
theorem ask_append {α : Type} (h : EndsLine r) (q : UInt8 → α)
    (stops : ∀ b ∈ lineEndBytes, q b = q 0) {i : Nat} (le : i ≤ y.length) :
    q (peek (y ++ r) i) = q (peek y i) := by
  rcases Nat.lt_or_eq_of_le le with lt | rfl
  · rw [peek_append r lt]
  · obtain ⟨b, more, rfl, hb⟩ := h.exists_cons
    simpa [peek] using stops b hb

/-- Two questions, the second one about the byte behind. -/
theorem ask_two_append (h : EndsLine r) (p q : UInt8 → Bool) (zero : p 0 = false)
    (stops : ∀ b ∈ lineEndBytes, p b = p 0 ∧ q b = q 0) {i : Nat} (le : i ≤ y.length) :
    (p (peek (y ++ r) i) && q (peek (y ++ r) (i + 1))) = (p (peek y i) && q (peek y (i + 1))) := by
  rw [ask_append h p (fun b hb => (stops b hb).1) le]
  cases asked : p (peek y i) with
  | false => rfl
  | true =>
    rw [ask_append h q (fun b hb => (stops b hb).2) (lt_length_of_peek p zero asked)]

/-! ### Names -/

theorem named_append (h : EndsLine r) {width : Nat} (le : width ≤ y.length) (kind : Bytes → Kind) :
    named (y ++ r) width kind = named y width kind := by
  unfold named
  rw [List.take_append_of_le_length le,
    ask_two_append h (· == ':') isSpaceOrEnd (by decide) (by decide) le]

theorem markedWidth_append (h : EndsLine r) : markedWidth (y ++ r) = markedWidth y := by
  unfold markedWidth
  rw [h.takeWhile_append continuesName (by decide)]
  extract_lets width mark mark'
  have le : width ≤ y.length := length_takeWhile_le _ _
  have question : (mark == '?') = (mark' == '?') := ask_append h (· == '?') (by decide) le
  have exclamation : (mark == '!' && peek (y ++ r) (width + 1) != '=') =
      (mark' == '!' && peek y (width + 1) != '=') :=
    ask_two_append h (· == '!') (· != '=') (by decide) (by decide) le
  rw [question, exclamation]

theorem settled_identifier (y : Bytes) : Settled identifier y := by
  intro r h
  unfold identifier
  rw [markedWidth_append h, named_append h (markedWidth_le y)]

theorem settled_aliasName (y : Bytes) : Settled aliasName y := by
  intro r h
  unfold aliasName
  rw [h.takeWhile_append continuesName (by decide), named_append h (length_takeWhile_le _ _)]

/-! ### Numbers -/

theorem settled_decimalRun (y : Bytes) : Settled decimalRun y := by
  intro r h
  induction y with
  | nil =>
    obtain ⟨b, more, rfl, hb⟩ := h.exists_cons
    have stops : ∀ b ∈ lineEndBytes, ¬ (Bytes.isDigit b || b == '_') := by decide
    have stop := stops b hb
    simp only [Bool.or_eq_true, not_or] at stop
    simp [decimalRun, stop]
  | cons c y ih =>
    rw [List.cons_append, decimalRun, decimalRun, ih,
      ask_append h Bytes.isDigit (by decide) (Nat.zero_le _)]

theorem settled_fractionRun (y : Bytes) : Settled fractionRun y := by
  intro r h
  unfold fractionRun
  rw [ask_two_append h (· == '.') Bytes.isDigit (by decide) (by decide) (Nat.zero_le _)]
  split
  · rename_i point
    have inside : 0 < y.length :=
      lt_length_of_peek (· == '.') (by decide) (Bool.and_eq_true_iff.mp point).1
    rw [List.drop_append_of_le_length inside, settled_decimalRun _ r h]
  · rfl

theorem settled_exponentRun (y : Bytes) : Settled exponentRun y := by
  intro r h
  unfold exponentRun
  rw [ask_append h (fun b => b == 'e' || b == 'E') (by decide) (Nat.zero_le _)]
  split
  · rename_i mark
    have first : 1 ≤ y.length := lt_length_of_peek (fun b => b == 'e' || b == 'E') (by decide) mark
    rw [ask_append h Bytes.isDigit (by decide) first,
      ask_two_append h (fun b => b == '+' || b == '-') Bytes.isDigit (by decide) (by decide) first,
      List.drop_append_of_le_length first, settled_decimalRun _ r h]
    split
    · rfl
    split
    · rename_i sign
      have second : 2 ≤ y.length :=
        lt_length_of_peek (fun b => b == '+' || b == '-') (by decide)
          (Bool.and_eq_true_iff.mp sign).1
      rw [List.drop_append_of_le_length second, settled_decimalRun _ r h]
    · rfl
  · rfl

theorem settled_decimalNumber (y : Bytes) : Settled decimalNumber y := by
  intro r h
  have whole := decimalRun_le y
  have fraction := fractionRun_le (y.drop (decimalRun y))
  have exponent := exponentRun_le (y.drop (decimalRun y + fractionRun (y.drop (decimalRun y))))
  simp only [List.length_drop] at fraction exponent
  unfold decimalNumber
  dsimp only
  rw [settled_decimalRun y r h, List.drop_append_of_le_length whole, settled_fractionRun _ r h,
    List.take_append_of_le_length whole, List.drop_append_of_le_length (by omega),
    settled_exponentRun _ r h, List.take_append_of_le_length (by omega)]

theorem settled_basedNumber {isDigit : UInt8 → Bool} (h2 : 2 ≤ y.length)
    (stops : ∀ b ∈ lineEndBytes, isDigit b = false) : Settled (basedNumber isDigit) y := by
  intro r h
  have stops' : ∀ b ∈ lineEndBytes, (isDigit b || b == '_') = false := by
    have underscore : ∀ b ∈ lineEndBytes, (b == '_') = false := by decide
    intro b hb
    rw [stops b hb, underscore b hb, Bool.or_false]
  have digits := length_takeWhile_le (fun b => isDigit b || b == '_') (y.drop 2)
  simp only [List.length_drop] at digits
  unfold basedNumber
  dsimp only
  rw [List.drop_append_of_le_length h2, h.takeWhile_append _ stops',
    List.take_append_of_le_length (by omega)]

/-- No digit of a base ends a line. -/
theorem baseDigit_lineEnd {letter : UInt8} {isDigit : UInt8 → Bool}
    (h : baseDigit? letter = some isDigit) : ∀ b ∈ lineEndBytes, isDigit b = false := by
  unfold baseDigit? at h
  split at h
  · obtain rfl := Option.some.inj h
    decide
  split at h
  · obtain rfl := Option.some.inj h
    decide
  split at h
  · obtain rfl := Option.some.inj h
    decide
  · cases h

theorem settled_number {c : UInt8} (y : Bytes) : Settled number (c :: y) := by
  intro r h
  have letter : baseDigit? (peek (c :: y ++ r) 1) = baseDigit? (peek (c :: y) 1) := by
    have none : ∀ b ∈ lineEndBytes, (baseDigit? b).isNone = (baseDigit? 0).isNone := by decide
    refine ask_append h baseDigit? (fun b hb => ?_) (Nat.succ_pos _)
    exact (Option.isNone_iff_eq_none.mp (none b hb)).trans rfl
  have first : peek (c :: y ++ r) 0 = peek (c :: y) 0 := rfl
  unfold number
  rw [letter, first]
  split
  · rename_i isDigit hbase
    split at hbase
    · have inside : (baseDigit? (peek (c :: y) 1)).isSome := by simp [hbase]
      exact settled_basedNumber
        (lt_length_of_peek (fun b => (baseDigit? b).isSome) (by decide) inside)
        (baseDigit_lineEnd hbase) r h
    · cases hbase
  · exact settled_decimalNumber _ r h

/-! ### Operators -/

theorem settled_operator (c : UInt8) (y : Bytes) : Settled operator (c :: y) := by
  intro r h
  have stops : ∀ op ∈ longOperators, ∀ b ∈ lineEndBytes, b ∉ op.1 := by decide
  have long : longOperators.find? (fun op => op.1.isPrefixOf (c :: y ++ r)) =
      longOperators.find? fun op => op.1.isPrefixOf (c :: y) := by
    exact List.find?_congr fun op hop => h.isPrefixOf_append (stops op hop) (c :: y)
  have first : peek (c :: y ++ r) 0 = peek (c :: y) 0 := rfl
  unfold operator
  rw [long, first]

theorem settled_operatorIn (c : UInt8) (y : Bytes) (frames : List Frame) :
    Settled (operatorIn · frames) (c :: y) := by
  intro r h
  simp only [operatorIn]
  rw [settled_operator c y r h]

end Scan

/-! ### Escapes -/

namespace Escape

variable {r : Bytes}

theorem isHexDigit_lineEnd : ∀ b ∈ lineEndBytes, isHexDigit b = false := by decide

theorem bracedDigits_append (h : EndsLine r) (y : Bytes) :
    (y ++ r).takeWhile isHexDigit = y.takeWhile isHexDigit ∧
      (((y ++ r).drop (y.takeWhile isHexDigit).length).head? == some ('\x7d' : UInt8)) =
        ((y.drop (y.takeWhile isHexDigit).length).head? == some ('\x7d' : UInt8)) := by
  refine ⟨h.takeWhile_append _ isHexDigit_lineEnd y, ?_⟩
  rw [List.drop_append_of_le_length (length_takeWhile_le _ _), h.head?_append (by decide)]

theorem limitedDigits_append (h : EndsLine r) (n : Nat) (y : Bytes) :
    ((y ++ r).take n).takeWhile isHexDigit = (y.take n).takeWhile isHexDigit := by
  induction n generalizing y with
  | zero => rfl
  | succ n ih =>
    cases y with
    | nil =>
      obtain ⟨b, more, rfl, hb⟩ := h.exists_cons
      simp [isHexDigit_lineEnd b hb]
    | cons c y =>
      simp only [List.cons_append, List.take_succ_cons, List.takeWhile_cons, ih y]

theorem settled_byteNumber (y : Bytes) : Settled byteNumber y := by
  intro r h
  cases y with
  | nil =>
    obtain ⟨b, more, rfl, hb⟩ := h.exists_cons
    have stops : ∀ b ∈ lineEndBytes, b ≠ '\x7b' := by decide
    simp [byteNumber, stops b hb, isHexDigit_lineEnd b hb]
  | cons c y =>
    obtain ⟨digits, closed⟩ := bracedDigits_append h y
    have limited := limitedDigits_append h 2 (c :: y)
    rw [List.cons_append] at limited
    simp only [byteNumber, List.cons_append, digits, closed, limited]

theorem settled_codePoint (y : Bytes) : Settled codePoint y := by
  intro r h
  cases y with
  | nil =>
    obtain ⟨b, more, rfl, hb⟩ := h.exists_cons
    have stops : ∀ b ∈ lineEndBytes, b ≠ '\x7b' := by decide
    simp [codePoint, stops b hb, isHexDigit_lineEnd b hb, hexNumber]
  | cons c y =>
    obtain ⟨digits, closed⟩ := bracedDigits_append h y
    have limited := limitedDigits_append h 4 (c :: y)
    rw [List.cons_append] at limited
    simp only [codePoint, List.cons_append, digits, closed, limited]

theorem settled_decode (c : UInt8) (y : Bytes) : Settled decode (c :: y) := by
  intro r h
  simp only [decode, List.cons_append, settled_byteNumber y r h, settled_codePoint y r h]

theorem width_decode_pos (b : UInt8) (more : Bytes) : 0 < (decode (b :: more)).width := by
  unfold decode byteNumber codePoint
  dsimp only
  repeat' split
  all_goals
    dsimp only
    omega

end Escape

end CallAtlas
