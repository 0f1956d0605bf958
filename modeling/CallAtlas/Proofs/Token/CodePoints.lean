import CallAtlas.Proofs.CodePoints
import CallAtlas.Proofs.Token.Escaping

/-! # Code points in literals

A code point may be written in a string by its number, `"\u{e9}"`, and as a character literal either
by its number, `?\u{e9}`, or as it is, `?é`. The string holds the bytes of the character, and the
character literal that shows it has its number for a value. An escape in a character literal counts
with its first byte only, so it has the right value for ASCII and for one character beyond.
-/
namespace CallAtlas

/-! ### UTF-8 -/

open Scan in
/-- The bytes of a character give its number back. -/
theorem codePoint_utf8EncodeChar (c : Char) : ∃ lead tail, String.utf8EncodeChar c = lead :: tail ∧
    continuationBytes lead = tail.length ∧ codePoint lead tail = c.toNat := by
  have bound := (toNat_bounds c).1
  have value : c.val.toNat = c.toNat := rfl
  -- What each sort of byte tells: how many bytes follow, and its part of the number.
  have ascii : ∀ k < 128, continuationBytes (UInt8.ofNat k) = 0 := by decide
  have two : ∀ k < 32, continuationBytes (UInt8.ofNat (k + 192)) = 1 ∧
      (UInt8.ofNat (k + 192)).toNat % (64 >>> 1) = k := by decide
  have three : ∀ k < 16, continuationBytes (UInt8.ofNat (k + 224)) = 2 ∧
      (UInt8.ofNat (k + 224)).toNat % (64 >>> 2) = k := by decide
  have four : ∀ k < 8, continuationBytes (UInt8.ofNat (k + 240)) = 3 ∧
      (UInt8.ofNat (k + 240)).toNat % (64 >>> 3) = k := by decide
  have later (k : Nat) : (UInt8.ofNat (k % 64 + 128)).toNat % 64 = k % 64 := by
    rw [UInt8.toNat_ofNat']
    omega
  simp only [String.utf8EncodeChar, value]
  generalize c.toNat = n at bound ⊢
  split
  · have width := ascii n (by omega)
    refine ⟨_, _, rfl, width, ?_⟩
    rw [codePoint, width, if_pos rfl, UInt8.toNat_ofNat']
    omega
  split
  · obtain ⟨width, part⟩ := two (n / 64 % 32) (by omega)
    refine ⟨_, _, rfl, width, ?_⟩
    rw [codePoint, width, if_neg (by decide), part]
    simp only [later, List.foldl_cons, List.foldl_nil]
    omega
  split
  · obtain ⟨width, part⟩ := three (n / 4096 % 16) (by omega)
    refine ⟨_, _, rfl, width, ?_⟩
    rw [codePoint, width, if_neg (by decide), part]
    simp only [later, List.foldl_cons, List.foldl_nil]
    omega
  · obtain ⟨width, part⟩ := four (n / 262144 % 8) (by omega)
    refine ⟨_, _, rfl, width, ?_⟩
    rw [codePoint, width, if_neg (by decide), part]
    simp only [later, List.foldl_cons, List.foldl_nil]
    omega

/-! ### Numbers in braces -/

namespace Escape

/-- The number of 32 bits that digits write is what is left of the whole number. -/
theorem hexNumber_eq (digits : Bytes) :
    hexNumber digits = Json.hexValue digits % UInt32.size := by
  have fold (digits : Bytes) (n : Nat) :
      digits.foldl (fun n d => (n * 16 + (Bytes.hexDigit? d).getD 0) % UInt32.size)
          (n % UInt32.size) =
        digits.foldl (fun n d => n * 16 + (Bytes.hexDigit? d).getD 0) n % UInt32.size := by
    induction digits generalizing n with
    | nil => rfl
    | cons d digits ih =>
      rw [List.foldl_cons, List.foldl_cons, ← ih, Nat.add_mod, Nat.mul_mod, Nat.mod_mod,
        ← Nat.mul_mod, ← Nat.add_mod]
  exact fold digits 0

theorem hexNumber_of_spells {digits : Bytes} {c : Char} (h : SpellsHex digits c.toNat) :
    hexNumber digits = c.toNat := by
  have bound := (toNat_bounds c).1
  rw [hexNumber_eq, h.2.2]
  exact Nat.mod_eq_of_lt (Nat.lt_trans bound (by decide))

/-- A number in braces, behind a backslash and in front of `rest`. -/
def braced (digits rest : Bytes) : Bytes :=
  '\\' :: 'u' :: '\x7b' :: (digits ++ ('\x7d' : UInt8) :: rest)

/-- A number in braces stands for the bytes of its character. -/
theorem decode_braced {digits : Bytes} {c : Char} (h : SpellsHex digits c.toNat) (rest : Bytes) :
    decode (braced digits rest).tail = ⟨String.utf8EncodeChar c, digits.length + 3, none⟩ := by
  have all : ∀ d ∈ digits, isHexDigit d := List.all_eq_true.mp h.2.1
  have run : (digits ++ ('\x7d' : UInt8) :: rest).takeWhile isHexDigit = digits := by
    rw [List.takeWhile_append_of_pos all, List.takeWhile_cons_of_neg (by decide), List.append_nil]
  change codePoint ('\x7b' :: (digits ++ ('\x7d' : UInt8) :: rest)) = _
  rw [codePoint, if_pos rfl, run]
  simp [hexNumber_of_spells h, utf8_toNat]
  omega

theorem drop_braced (digits rest : Bytes) :
    (braced digits rest).tail.drop (digits.length + 3) = rest := by
  simp [braced]

end Escape

namespace Scan

open Escape

theorem scan_braced_string {digits : Bytes} {c : Char} (h : SpellsHex digits c.toNat) :
    scan ('"' :: braced digits ['"']) [] =
      ({ kind := .string, width := digits.length + 6, value := String.utf8EncodeChar c }, []) := by
  let form : LiteralForm := { container := .string, closer := ['"'] }
  have closed : form.body false ['"'] = { value := [], width := 1, ending := .closed } := by
    rw [LiteralForm.body]
    rfl
  have body : form.body false (braced digits ['"']) =
      { value := String.utf8EncodeChar c, width := digits.length + 5, ending := .closed } := by
    have listed : ('"' : UInt8) ∈ closingDelimiters := by decide
    have step := form.body_escape listed rfl rfl rfl false (braced digits ['"']).tail
    rw [decode_braced h] at step
    dsimp only at step
    rw [drop_braced, closed] at step
    refine step.trans ?_
    simp [Body.after, shiftFaults]
    omega
  have literal : fragment form true 1 (braced digits ['"']) [] =
      ({ kind := .string, width := digits.length + 6, value := String.utf8EncodeChar c }, []) := by
    unfold fragment
    dsimp only
    rw [Bool.false_and, body]
    simp [form, shiftFaults, Container.kind]
    omega
  have here : scan ('"' :: braced digits ['"']) [] =
      keyed ('"' :: braced digits ['"']) (fragment form true 1 (braced digits ['"']) []) := rfl
  rw [here, literal]
  refine keyed_end ?_
  simp [braced]

/-- An escape in a character literal counts with the first of its bytes. -/
theorem character_braced {digits : Bytes} {c : Char} (h : SpellsHex digits c.toNat) :
    character ('?' :: braced digits []) =
      { kind := .char, width := digits.length + 5
        value := Bytes.decimal ((String.utf8EncodeChar c).headD 0).toNat } := by
  have decoded := decode_braced h []
  have solid : isSpaceOrEnd '\\' = false := by decide
  rw [braced, List.tail_cons] at decoded
  simp only [character, braced, List.drop_succ_cons, List.drop_zero, decoded, solid]
  simp
  omega

theorem character_shown {c : Char} (shown : c ∉ ['\x00', '\t', '\n', '\r', ' ', '\\']) :
    character ('?' :: String.utf8EncodeChar c) =
      { kind := .char, width := 1 + (String.utf8EncodeChar c).length
        value := Bytes.decimal c.toNat } := by
  obtain ⟨lead, tail, bytes, more, number⟩ := codePoint_utf8EncodeChar c
  have other {d : Char} (ascii : d.toNat < 0x80) (ne : c ≠ d) : lead ≠ d.toUInt8 :=
    ne_of_mem_utf8EncodeChar ascii ne lead (by simp [bytes])
  simp only [List.mem_cons, List.not_mem_nil, not_or] at shown
  obtain ⟨zero, tab, feed, carriage, space, backslash, -⟩ := shown
  have null : lead ≠ 0 := other (by decide) zero
  have solid : isSpaceOrEnd lead = false := by
    simp [isSpaceOrEnd, null, other (by decide) tab, other (by decide) feed,
      other (by decide) carriage, other (by decide) space]
  rw [bytes]
  simp [character, solid, other (by decide) backslash, more, number]
  omega

end Scan

/-! ### Literals -/

section Literals

variable {digits : Bytes} {c : Char} (spelled : SpellsHex digits c.toNat)

include spelled

theorem readsAlone_braced_string :
    ReadsAlone ('"' :: Escape.braced digits ['"']) .string (String.utf8EncodeChar c) :=
  Lexer.readsAlone_of_scan (by decide) (Scan.scan_braced_string spelled) (by simp [Escape.braced])
    rfl

theorem readsAlone_braced_character :
    ReadsAlone ('?' :: Escape.braced digits []) .char
      (Bytes.decimal ((String.utf8EncodeChar c).headD 0).toNat) := by
  have scanned : scan ('?' :: Escape.braced digits []) [] = (_, []) :=
    congrArg (·, []) (Scan.character_braced spelled)
  exact Lexer.readsAlone_of_scan (by decide) scanned (by simp [Escape.braced]) rfl

end Literals

theorem readsAlone_shown_character {c : Char}
    (shown : c ∉ ['\x00', '\t', '\n', '\r', ' ', '\\']) :
    ReadsAlone ('?' :: String.utf8EncodeChar c) .char (Bytes.decimal c.toNat) := by
  have scanned : scan ('?' :: String.utf8EncodeChar c) [] = (_, []) :=
    congrArg (·, []) (Scan.character_shown shown)
  exact Lexer.readsAlone_of_scan (by decide) scanned (Nat.add_comm _ _) rfl

/-- The first byte of a character is its number for ASCII, and for `Ã`. -/
theorem head_utf8EncodeChar_eq_toNat (c : Char) :
    ((String.utf8EncodeChar c).headD 0).toNat = c.toNat ↔ c.toNat < 0x80 ∨ c.toNat = 0xC3 := by
  have value : c.val.toNat = c.toNat := rfl
  simp only [String.utf8EncodeChar, value]
  generalize c.toNat = n
  split
  · simp only [List.headD_cons, UInt8.toNat_ofNat']
    omega
  split
  · have lead : (n / 64 % 32 + 192) % 256 = n / 64 + 192 := by omega
    rw [List.headD_cons, UInt8.toNat_ofNat', lead]
    omega
  split <;>
  · simp only [List.headD_cons, UInt8.toNat_ofNat']
    omega

theorem decimal_inj {m n : Nat} : Bytes.decimal m = Bytes.decimal n ↔ m = n := by
  refine ⟨fun same => ?_, congrArg _⟩
  rw [← Bytes.readDecimal_decimal m, same, Bytes.readDecimal_decimal]

/-- A string with a code point in braces holds the bytes of the character, and a character literal
that shows it has its number for a value. A character literal with the number in braces has the
value of the first byte, and so the right one only for ASCII and for `Ã`. -/
theorem code_point_read (c : Char) :
    (∀ digits, SpellsHex digits c.toNat →
      ReadsAlone ('"' :: Escape.braced digits ['"']) .string (String.utf8EncodeChar c) ∧
      ReadsAlone ('?' :: Escape.braced digits []) .char
        (Bytes.decimal ((String.utf8EncodeChar c).headD 0).toNat) ∧
      (ReadsAlone ('?' :: Escape.braced digits []) .char (Bytes.decimal c.toNat) ↔
        c.toNat < 0x80 ∨ c.toNat = 0xC3)) ∧
    (c ∉ ['\x00', '\t', '\n', '\r', ' ', '\\'] →
      ReadsAlone ('?' :: String.utf8EncodeChar c) .char (Bytes.decimal c.toNat)) := by
  refine ⟨fun digits spelled => ?_, readsAlone_shown_character⟩
  have first := readsAlone_braced_character spelled
  refine ⟨readsAlone_braced_string spelled, first, ?_⟩
  rw [← head_utf8EncodeChar_eq_toNat]
  constructor
  · intro right
    exact decimal_inj.mp (first.value_eq right)
  · intro same
    rw [← same]
    exact first

theorem code_point_read_accent :
    SpellsHex (text "00E9") 'é'.toNat ∧ 'é' ∉ ['\x00', '\t', '\n', '\r', ' ', '\\'] ∧
      ReadsAlone (text "\"\\u\x7b00E9\x7d\"") .string (text "é") ∧
      ReadsAlone (text "?é") .char (Bytes.decimal 233) :=
  have spelled : SpellsHex (text "00E9") 'é'.toNat := by decide
  have shown : 'é' ∉ ['\x00', '\t', '\n', '\r', ' ', '\\'] := by decide
  have read := code_point_read 'é'
  ⟨spelled, shown, (read.1 _ spelled).1, read.2 shown⟩

/-- The value is 195, the first byte of the two, and not 233. -/
theorem braced_accent_misread :
    SpellsHex (text "e9") 'é'.toNat ∧
      ¬ ReadsAlone ('?' :: Escape.braced (text "e9") []) .char (Bytes.decimal 'é'.toNat) := by
  have spelled : SpellsHex (text "e9") 'é'.toNat := by decide
  refine ⟨spelled, fun right => ?_⟩
  have value := (readsAlone_braced_character spelled).value_eq right
  exact absurd (decimal_inj.mp value) (by decide)

end CallAtlas
