import CallAtlas.Token.Lexer

/-! # How far one token reaches

Whatever is scanned at a place has at least one byte and ends within the text, also where it is
malformed. A look ahead sees zero beyond the end, and every byte that makes a token longer is
compared with something else than zero, so none of them lies beyond the end.
-/
namespace CallAtlas

/-- The lexeme has a first byte, and all of its bytes are in the text. -/
def Lexeme.Within (lexeme : Lexeme) (bs : Bytes) : Prop :=
  0 < lexeme.width ∧ lexeme.width ≤ bs.length

theorem length_takeWhile_le (p : UInt8 → Bool) (bs : Bytes) : (bs.takeWhile p).length ≤ bs.length :=
  (List.takeWhile_prefix p).length_le

/-! ### Escapes and bodies -/

namespace Escape

/-- The width of digits in braces. -/
theorem bracedWidth_le (more : Bytes) :
    (more.takeWhile isHexDigit).length +
      ((more.drop (more.takeWhile isHexDigit).length).head? == some ('\x7d' : UInt8)).toNat ≤
        more.length := by
  have digits := length_takeWhile_le isHexDigit more
  cases h : more.drop (more.takeWhile isHexDigit).length with
  | nil => simpa using digits
  | cons b bs =>
    have length := congrArg List.length h
    have closed := Bool.toNat_le ((b :: bs).head? == some ('\x7d' : UInt8))
    simp only [List.length_drop, List.length_cons] at length
    omega

theorem limitedWidth_le (n : Nat) (bs : Bytes) :
    ((bs.take n).takeWhile isHexDigit).length ≤ bs.length := by
  calc ((bs.take n).takeWhile isHexDigit).length
    _ ≤ (bs.take n).length := length_takeWhile_le isHexDigit _
    _ ≤ bs.length := List.length_take_le' n bs

theorem width_byteNumber_le (bs : Bytes) : (byteNumber bs).width ≤ 1 + bs.length := by
  cases bs with
  | nil => simp [byteNumber]
  | cons b more =>
    have braced := bracedWidth_le more
    have limited := limitedWidth_le 2 (b :: more)
    unfold byteNumber
    dsimp only
    split
    · simp only [List.length_cons]
      omega
    · dsimp only
      omega

theorem width_codePoint_le (bs : Bytes) : (codePoint bs).width ≤ 1 + bs.length := by
  cases bs with
  | nil => simp [codePoint]
  | cons b more =>
    have braced := bracedWidth_le more
    have limited := limitedWidth_le 4 (b :: more)
    unfold codePoint
    dsimp only
    split
    · simp only [List.length_cons]
      omega
    · dsimp only
      omega

theorem width_decode_le (bs : Bytes) : (decode bs).width ≤ bs.length := by
  unfold decode
  split
  · simp
  · rename_i b more
    split
    · simp
    · split
      · simp
      · split
        · have := width_byteNumber_le more
          simp only [List.length_cons]
          omega
        · split
          · have := width_codePoint_le more
            simp only [List.length_cons]
            omega
          · simp

end Escape

namespace LiteralForm

theorem width_closes_le {form : LiteralForm} {lineStart : Bool} {bs : Bytes} {width : Nat}
    (h : form.closes? lineStart bs = some width) : width ≤ bs.length := by
  unfold closes? at h
  split at h
  · dsimp only at h
    split at h
    · rename_i hclose
      obtain rfl := Option.some.inj h
      have closer := (List.isPrefixOf_iff_prefix.mp (Bool.and_eq_true_iff.mp hclose).2).length_le
      have indent := length_takeWhile_le isIndent bs
      simp only [List.length_drop] at closer
      omega
    · cases h
  · split at h
    · rename_i hclose
      obtain rfl := Option.some.inj h
      exact (List.isPrefixOf_iff_prefix.mp hclose).length_le
    · cases h

theorem width_body_le (form : LiteralForm) (lineStart : Bool) (bs : Bytes) :
    (form.body lineStart bs).width ≤ bs.length := by
  fun_induction body form lineStart bs with
  | case1 => simp
  | case2 lineStart b more width h => exact width_closes_le h
  | case3 lineStart b more _ hmark =>
    simp only [Bool.and_eq_true, beq_iff_eq] at hmark
    cases more with
    | nil => simp at hmark
    | cons c cs => simp
  | case4 lineStart more _ escape _ _ ih =>
    have decoded : escape.width ≤ more.length := Escape.width_decode_le more
    simp only [List.length_drop] at ih
    simp only [Body.after, List.length_cons]
    omega
  | case5 lineStart more _ hclose _ _ ih =>
    have closer := (List.isPrefixOf_iff_prefix.mp hclose).length_le
    simp only [List.length_drop] at ih
    simp only [Body.after, List.length_cons]
    omega
  | case6 lineStart more _ _ _ _ ih =>
    simp only [Body.after, List.length_cons]
    omega
  | case7 lineStart b more _ _ _ ih =>
    simp only [Body.after, List.length_cons]
    omega

end LiteralForm

namespace Scan

/-- A byte ahead that passes a test which zero fails is in the text. -/
theorem lt_length_of_peek (p : UInt8 → Bool) {bs : Bytes} {index : Nat} (zero : p 0 = false)
    (h : p (peek bs index)) : index < bs.length := by
  apply Nat.lt_of_not_le
  intro hle
  have beyond : peek bs index = 0 := by simp [peek, List.getD, List.getElem?_eq_none hle]
  rw [beyond, zero] at h
  cases h

/-! ### Names -/

theorem within_named {bs : Bytes} {width : Nat} (kind : Bytes → Kind) (pos : 0 < width)
    (le : width ≤ bs.length) : (named bs width kind).Within bs := by
  unfold named
  dsimp only
  split
  · rename_i hkey
    have colon := (Bool.and_eq_true_iff.mp hkey).1
    exact ⟨Nat.succ_pos width, lt_length_of_peek (· == ':') (by decide) colon⟩
  · exact ⟨pos, le⟩

theorem length_takeWhile_pos {p : UInt8 → Bool} {b : UInt8} (bs : Bytes) (h : p b) :
    0 < ((b :: bs).takeWhile p).length := by
  simp [List.takeWhile_cons_of_pos h]

theorem markedWidth_le (bs : Bytes) : markedWidth bs ≤ bs.length := by
  unfold markedWidth
  extract_lets width mark
  split
  · rename_i hmark
    have marked : (mark == '?' || mark == '!') := by
      simp only [Bool.or_eq_true, Bool.and_eq_true] at hmark ⊢
      exact hmark.imp_right And.left
    exact lt_length_of_peek (fun m => m == '?' || m == '!') (by decide) marked
  · exact length_takeWhile_le continuesName bs

theorem le_markedWidth (bs : Bytes) : (bs.takeWhile continuesName).length ≤ markedWidth bs := by
  unfold markedWidth
  dsimp only
  split <;> omega

theorem within_identifier {b : UInt8} (bs : Bytes) (h : startsName b) :
    (identifier (b :: bs)).Within (b :: bs) := by
  have first : continuesName b := by simp [continuesName, h]
  have pos := length_takeWhile_pos bs first
  exact within_named _ (Nat.lt_of_lt_of_le pos (le_markedWidth _)) (markedWidth_le _)

theorem within_aliasName {b : UInt8} (bs : Bytes) (h : Bytes.isUpper b) :
    (aliasName (b :: bs)).Within (b :: bs) := by
  have first : continuesName b := by simp [continuesName, h]
  exact within_named _ (length_takeWhile_pos bs first) (length_takeWhile_le _ _)

/-! ### Literals -/

/-- A fragment whose body starts behind `opening` bytes. -/
theorem within_fragment (form : LiteralForm) (starts : Bool) {opening : Nat} {bs : Bytes}
    (frames : List Frame) (pos : 0 < opening) (le : opening ≤ bs.length) :
    (fragment form starts opening (bs.drop opening) frames).1.Within bs := by
  unfold fragment Lexeme.Within
  extract_lets body width faults fault failed modifiers
  have hbody : body.width ≤ (bs.drop opening).length := form.width_body_le _ _
  have hmodifiers : modifiers.length ≤ ((bs.drop opening).drop body.width).length := by
    unfold modifiers
    split
    · exact length_takeWhile_le isLetter _
    · exact Nat.zero_le _
  have hwidth : width = opening + body.width := rfl
  simp only [List.length_drop] at hbody hmodifiers
  split
  · dsimp only [failed, Lexeme.failed]
    omega
  · dsimp only
    omega
  · dsimp only
    omega

theorem length_firstOf_le {choices : List Bytes} {bs choice : Bytes}
    (h : firstOf choices bs = some choice) : choice.length ≤ bs.length := by
  have starts : choice.isPrefixOf bs := by simpa using List.find?_some h
  exact (List.isPrefixOf_iff_prefix.mp starts).length_le

theorem length_of_opensHeredoc {bs : Bytes} (h : opensHeredoc bs) : 3 ≤ bs.length := by
  obtain ⟨quotes, hq⟩ := Option.isSome_iff_exists.mp h
  have three : ∀ quotes ∈ [text "\"\"\"", text "'''"], quotes.length = 3 := by decide
  have fits := length_firstOf_le hq
  rw [three quotes (List.mem_of_find?_eq_some hq)] at fits
  exact fits

theorem within_heredoc (form : LiteralForm) (fault : LexicalFault) {before : Nat} {bs : Bytes}
    (frames : List Frame) (h : opensHeredoc (bs.drop before)) :
    (heredoc form fault before (bs.drop before) frames).1.Within bs := by
  have quotes := length_of_opensHeredoc h
  have margin := length_takeWhile_le isMargin ((bs.drop before).drop 3)
  simp only [List.length_drop] at quotes margin
  unfold heredoc
  extract_lets width
  have hwidth : width = 3 + (((bs.drop before).drop 3).takeWhile isMargin).length := rfl
  split
  · rename_i hbreak
    have inside : width < (bs.drop before).length :=
      lt_length_of_peek (· == '\n') (by decide) hbreak
    simp only [List.length_drop] at inside
    rw [List.drop_drop]
    exact within_fragment _ _ _ (Nat.succ_pos _) (by omega)
  · dsimp only [Lexeme.Within, Lexeme.failed]
    omega

theorem within_quoted (container : Container) (b : UInt8) (bs : Bytes) (frames : List Frame) :
    (quoted container (b :: bs) frames).1.Within (b :: bs) := by
  unfold quoted
  extract_lets form
  split
  · rename_i hopens
    exact within_heredoc _ _ _ (List.drop_zero ▸ hopens)
  · have one : 1 ≤ (b :: bs).length := Nat.succ_pos _
    have plain := within_fragment form true frames Nat.one_pos one
    split
    rename_i lexeme frames' hfragment
    rw [hfragment] at plain
    split
    · rename_i hkey
      have colon := (Bool.and_eq_true_iff.mp (Bool.and_eq_true_iff.mp hkey).1).2
      exact ⟨Nat.succ_pos _, lt_length_of_peek (· == ':') (by decide) colon⟩
    · exact plain

/-- The width of the name of a sigil, with the mark before it. -/
theorem sigilName_le (b : UInt8) (bs : Bytes) (p : UInt8 → Bool) (upper : Bool) :
    1 + (if upper then ((b :: bs).drop 1).takeWhile p else ((b :: bs).drop 1).take 1).length ≤
      (b :: bs).length := by
  have long := length_takeWhile_le p bs
  have short := List.length_take_le' 1 bs
  simp only [List.drop_succ_cons, List.drop_zero, List.length_cons]
  split <;> omega

theorem within_sigil (b : UInt8) (bs : Bytes) (frames : List Frame) :
    (sigil (b :: bs) frames).1.Within (b :: bs) := by
  unfold sigil
  extract_lets name decoded form before rest
  have hname : before ≤ (b :: bs).length := sigilName_le b bs _ _
  split
  · rename_i hopens
    exact within_heredoc _ _ _ hopens
  · split
    · exact ⟨Nat.lt_of_lt_of_le Nat.one_pos (Nat.le_add_right 1 name.length), hname⟩
    · rename_i close hclose
      have inside : 0 < rest.length :=
        lt_length_of_peek (fun c => (delimiters.lookup c).isSome) (by decide) (by simp [hclose])
      simp only [rest, List.length_drop] at inside
      simp only [rest, List.drop_drop]
      exact within_fragment _ _ _ (Nat.succ_pos before) (by omega)

/-! ### Atoms, characters and numbers -/

theorem within_colon (b : UInt8) (bs : Bytes) (frames : List Frame) :
    (colon (b :: bs) frames).1.Within (b :: bs) := by
  unfold colon
  extract_lets next plain mark width
  split
  · rename_i hcolon
    exact ⟨Nat.two_pos, lt_length_of_peek (· == ':') (by decide) hcolon⟩
  split
  · rename_i hquote
    have inside : 1 < (b :: bs).length :=
      lt_length_of_peek (fun c => c == '"' || c == '\'') (by decide) hquote
    exact within_fragment _ _ _ Nat.two_pos inside
  split
  · have hplain : plain ≤ bs.length := length_takeWhile_le _ _
    have hwidth : 1 + width ≤ (b :: bs).length := by
      unfold width
      split
      · rename_i hmark
        have inside : 1 + plain < (b :: bs).length :=
          lt_length_of_peek (fun m => m == '?' || m == '!') (by decide) hmark
        omega
      · simp only [List.length_cons]
        omega
    exact ⟨Nat.lt_of_lt_of_le Nat.one_pos (Nat.le_add_right 1 width), hwidth⟩
  split
  · rename_i op hop
    have fits : op.length ≤ bs.length := length_firstOf_le hop
    refine ⟨Nat.lt_of_lt_of_le Nat.one_pos (Nat.le_add_right 1 op.length), ?_⟩
    simp only [List.length_cons]
    omega
  · exact ⟨Nat.one_pos, Nat.succ_pos _⟩

theorem within_character (b : UInt8) (bs : Bytes) : (character (b :: bs)).Within (b :: bs) := by
  cases bs with
  | nil => exact ⟨Nat.one_pos, Nat.le_refl 1⟩
  | cons c more =>
    have decoded := Escape.width_decode_le more
    have tail := List.length_take_le' (continuationBytes c) more
    unfold character Lexeme.Within
    simp only [List.drop_succ_cons, List.drop_zero, List.length_cons]
    split
    · dsimp only [Lexeme.failed]
      omega
    split
    · dsimp only
      omega
    · dsimp only
      omega

theorem decimalRun_le (bs : Bytes) : decimalRun bs ≤ bs.length := by
  induction bs with
  | nil => simp [decimalRun]
  | cons b bs ih =>
    rw [decimalRun, List.length_cons]
    split <;> omega

theorem decimalRun_pos {b : UInt8} (bs : Bytes) (h : Bytes.isDigit b) :
    0 < decimalRun (b :: bs) := by
  rw [decimalRun, if_pos (by simp [h])]
  omega

theorem fractionRun_le (bs : Bytes) : fractionRun bs ≤ bs.length := by
  have digits := decimalRun_le (bs.drop 1)
  simp only [List.length_drop] at digits
  unfold fractionRun
  split
  · rename_i hpoint
    have point : 0 < bs.length :=
      lt_length_of_peek (· == '.') (by decide) (Bool.and_eq_true_iff.mp hpoint).1
    omega
  · exact Nat.zero_le _

theorem exponentRun_le (bs : Bytes) : exponentRun bs ≤ bs.length := by
  have plain := decimalRun_le (bs.drop 1)
  have signed := decimalRun_le (bs.drop 2)
  simp only [List.length_drop] at plain signed
  unfold exponentRun
  split
  · rename_i hmark
    have mark : 0 < bs.length :=
      lt_length_of_peek (fun m => m == 'e' || m == 'E') (by decide) hmark
    split
    · omega
    split
    · rename_i hsign
      have sign : 1 < bs.length :=
        lt_length_of_peek (fun m => m == '+' || m == '-') (by decide)
          (Bool.and_eq_true_iff.mp hsign).1
      omega
    · exact Nat.zero_le _
  · exact Nat.zero_le _

theorem within_basedNumber (isDigit : UInt8 → Bool) {bs : Bytes} (h : 2 ≤ bs.length) :
    (basedNumber isDigit bs).Within bs := by
  have digits := length_takeWhile_le (fun b => isDigit b || b == '_') (bs.drop 2)
  simp only [List.length_drop] at digits
  unfold basedNumber
  extract_lets width found
  have within : 0 < width ∧ width ≤ bs.length := by
    unfold width
    omega
  split <;> exact within

theorem within_decimalNumber {b : UInt8} (bs : Bytes) (h : Bytes.isDigit b) :
    (decimalNumber (b :: bs)).Within (b :: bs) := by
  have pos := decimalRun_pos bs h
  have le := decimalRun_le (b :: bs)
  unfold decimalNumber
  extract_lets whole fraction width
  have hfraction : fraction ≤ ((b :: bs).drop whole).length := fractionRun_le _
  have hexponent := exponentRun_le ((b :: bs).drop (whole + fraction))
  simp only [List.length_drop] at hfraction hexponent
  split
  · exact ⟨pos, le⟩
  · have within : 0 < width ∧ width ≤ (b :: bs).length := by
      unfold width
      omega
    exact within

theorem within_number {b : UInt8} (bs : Bytes) (h : Bytes.isDigit b) :
    (number (b :: bs)).Within (b :: bs) := by
  unfold number
  split
  · rename_i isDigit hbase
    -- The letter of the base stands behind the zero.
    have letter : (baseDigit? (peek (b :: bs) 1)).isSome := by
      split at hbase
      · simp [hbase]
      · cases hbase
    exact within_basedNumber isDigit
      (lt_length_of_peek (fun c => (baseDigit? c).isSome) (by decide) letter)
  · exact within_decimalNumber bs h

/-! ### Operators -/

theorem within_operator (b : UInt8) (bs : Bytes) : (operator (b :: bs)).Within (b :: bs) := by
  unfold operator
  split
  · rename_i op kind hop
    have long : ∀ entry ∈ longOperators, 0 < entry.1.length := by decide
    have starts : op.isPrefixOf (b :: bs) := by simpa using List.find?_some hop
    exact ⟨long _ (List.mem_of_find?_eq_some hop),
      (List.isPrefixOf_iff_prefix.mp starts).length_le⟩
  split
  · exact ⟨Nat.one_pos, Nat.succ_pos _⟩
  · exact ⟨Nat.one_pos, Nat.succ_pos _⟩

/-- What is scanned at a place has a first byte and ends within the text. -/
theorem within_scan (b : UInt8) (bs : Bytes) (frames : List Frame) :
    (scan (b :: bs) frames).1.Within (b :: bs) := by
  have one : 1 ≤ (b :: bs).length := Nat.succ_pos _
  let IsWithin (found : Lexeme × List Frame) : Prop := found.1.Within (b :: bs)
  change IsWithin (scan (b :: bs) frames)
  have operator : IsWithin (operatorIn (b :: bs) frames) := within_operator b bs
  unfold scan
  extract_lets first
  refine iteInduction (fun _ => ⟨Nat.one_pos, one⟩) fun _ => ?_
  refine iteInduction (fun start => ?_) fun _ => ?_
  · dsimp only [IsWithin]
    exact within_identifier bs start
  refine iteInduction (fun upper => within_aliasName bs upper) fun _ => ?_
  refine iteInduction (fun digit => within_number bs digit) fun _ => ?_
  refine iteInduction (fun _ => within_quoted _ b bs frames) fun _ => ?_
  refine iteInduction (fun _ => within_quoted _ b bs frames) fun _ => ?_
  refine iteInduction (fun _ => within_colon b bs frames) fun _ => ?_
  refine iteInduction (fun _ => within_character b bs) fun _ => ?_
  refine iteInduction (fun _ => within_sigil b bs frames) fun _ => ?_
  refine iteInduction (fun _ => ?_) fun _ => operator
  split
  · exact within_fragment _ _ _ Nat.one_pos one
  · exact operator

end Scan
end CallAtlas
