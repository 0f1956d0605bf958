import CallAtlas.Proofs.CodePoints
import CallAtlas.Proofs.Json.RoundTrip

/-! # Characters in strings

JSON leaves a choice for each character of a string: it may stand there as it is, as a letter behind
a backslash, or by its number. A character beyond U+FFFF has no number of four digits and is written
as the two units of a surrogate pair. All of these may be mixed in one string.

The reader takes each unit for a character of its own, so a pair is read as six bytes that are no
UTF-8. Everything else is read as the character that it stands for.
-/
namespace CallAtlas.Json

/-- Four hexadecimal digits that write a unit of 16 bits. -/
def SpellsUnit (digits : Bytes) (unit : Nat) : Prop := digits.length = 4 ∧ SpellsHex digits unit

instance (digits : Bytes) (unit : Nat) : Decidable (SpellsUnit digits unit) :=
  inferInstanceAs (Decidable (_ ∧ _))

def highSurrogate (c : Char) : Nat := 0xD800 + (c.toNat - 0x10000) / 0x400

def lowSurrogate (c : Char) : Nat := 0xDC00 + (c.toNat - 0x10000) % 0x400

def unitEscape (digits : Bytes) : Bytes := parted [] '\\' (parted [] 'u' digits)

inductive Spelling (c : Char) where
  | raw (printable : 0x20 ≤ c.toNat) (unquoted : c ≠ '"') (unescaped : c ≠ '\\')
  | letter (b : UInt8) (listed : ∃ byte, (b, byte) ∈ letters ∧ byte.toNat = c.toNat)
  | unit (digits : Bytes) (spells : SpellsUnit digits c.toNat)
  | pair (high low : Bytes) (beyond : 0xFFFF < c.toNat)
      (spellsHigh : SpellsUnit high (highSurrogate c)) (spellsLow : SpellsUnit low (lowSurrogate c))

namespace Spelling

variable {c : Char}

def text : Spelling c → Bytes
  | raw _ _ _ => String.utf8EncodeChar c
  | letter b _ => ['\\', b]
  | unit digits _ => unitEscape digits
  | pair high low _ _ _ => unitEscape high ++ unitEscape low

def reading : Spelling c → Bytes
  | raw _ _ _ | letter _ _ | unit _ _ => String.utf8EncodeChar c
  | pair _ _ _ _ _ => unitBytes (highSurrogate c) ++ unitBytes (lowSurrogate c)

def isPair : Spelling c → Bool
  | raw _ _ _ | letter _ _ | unit _ _ => false
  | pair _ _ _ _ _ => true

end Spelling

/-- The characters of a string, each with a way to write it. -/
abbrev SpelledString := List ((c : Char) × Spelling c)

namespace SpelledString

def literal (parts : SpelledString) : Bytes := enclosed '"' (parts.flatMap fun p => p.2.text) '"'

def content (parts : SpelledString) : Bytes := CallAtlas.text (String.ofList (parts.map Sigma.fst))

/-- The bytes that the reader makes of the literal. -/
def reading (parts : SpelledString) : Bytes := parts.flatMap fun p => p.2.reading

end SpelledString

/-! ### One character -/

theorem SpellsText.plains {bs rest s : Bytes} (plain : ∀ b ∈ bs, b ≠ '"' ∧ ¬ b < 0x20 ∧ b ≠ '\\')
    (h : SpellsText rest s) : SpellsText (bs ++ rest) (bs ++ s) := by
  induction bs with
  | nil => exact h
  | cons b bs ih =>
    obtain ⟨⟨quote, control, backslash⟩, plain⟩ := List.forall_mem_cons.mp plain
    exact .plain quote control backslash (ih plain)

/-- No byte of a printable character is a control byte. -/
theorem printable_utf8EncodeChar {c : Char} (printable : 0x20 ≤ c.toNat) :
    ∀ b ∈ String.utf8EncodeChar c, ¬ b < 0x20 := by
  intro b hb control
  have low := UInt8.lt_iff_toNat_lt.mp control
  rcases utf8EncodeChar_cases c with ⟨ascii, bytes⟩ | ⟨-, beyond⟩
  · rw [bytes, List.mem_singleton] at hb
    rw [hb, UInt8.toNat_ofNat', Nat.mod_eq_of_lt (by omega)] at low
    exact absurd printable (Nat.not_le.mpr low)
  · have high := UInt8.le_iff_toNat_le.mp (beyond b hb)
    exact absurd (Nat.lt_of_lt_of_le low (by decide)) (Nat.not_lt.mpr high)

/-- Behind a backslash, a letter stands for one ASCII character. -/
theorem utf8EncodeChar_of_letter {b byte : UInt8} {c : Char} (listed : (b, byte) ∈ letters)
    (number : byte.toNat = c.toNat) : String.utf8EncodeChar c = [byte] := by
  have ascii : ∀ e ∈ letters, e.2.toNat < 0x80 := forall_mem_of_all (by decide)
  have bound := ascii _ listed
  rcases utf8EncodeChar_cases c with ⟨-, single⟩ | ⟨beyond, -⟩
  · rw [single, ← number, UInt8.ofNat_toNat]
  · dsimp only at bound
    omega

/-- A unit is read as the character of its number. -/
theorem unitBytes_of_spellsUnit {digits : Bytes} {c : Char} (h : SpellsUnit digits c.toNat) :
    unitBytes (hexValue digits) = String.utf8EncodeChar c := by
  obtain ⟨length, -, -, value⟩ := h
  rw [← utf8_hexValue length, value, utf8_toNat]

theorem SpellsText.spelling {c : Char} (p : Spelling c) {rest s : Bytes} (h : SpellsText rest s) :
    SpellsText (p.text ++ rest) (p.reading ++ s) := by
  cases p with
  | raw printable unquoted unescaped =>
    refine .plains (fun b hb => ⟨?_, printable_utf8EncodeChar printable b hb, ?_⟩) h
    · exact ne_of_mem_utf8EncodeChar (by decide) unquoted b hb
    · exact ne_of_mem_utf8EncodeChar (by decide) unescaped b hb
  | letter b listed =>
    obtain ⟨byte, listed, number⟩ := listed
    rw [Spelling.reading, utf8EncodeChar_of_letter listed number]
    exact .letter listed h
  | unit digits spells =>
    have read := SpellsText.unit spells.1 (List.all_eq_true.mp spells.2.2.1) h
    rwa [unitBytes_of_spellsUnit spells] at read
  | pair high low _ spellsHigh spellsLow =>
    have behind := SpellsText.unit spellsLow.1 (List.all_eq_true.mp spellsLow.2.2.1) h
    have read := SpellsText.unit spellsHigh.1 (List.all_eq_true.mp spellsHigh.2.2.1) behind
    rw [spellsHigh.2.2.2, spellsLow.2.2.2] at read
    simpa [Spelling.text, Spelling.reading, unitEscape, parted] using read

/-- A pair is read as two bytes too many. -/
theorem length_reading {c : Char} (p : Spelling c) :
    p.reading.length = (String.utf8EncodeChar c).length + if p.isPair then 2 else 0 := by
  cases p with
  | raw | letter | unit => rfl
  | pair high low beyond _ _ =>
    have three (n : Nat) (h : 0x800 ≤ n) : (unitBytes n).length = 3 := by
      rw [unitBytes, if_neg (by omega), if_neg (by omega)]
      rfl
    have four : (String.utf8EncodeChar c).length = 4 := by
      rw [← utf8_toNat, Bytes.utf8, if_neg (by omega), if_neg (by omega), if_neg (by omega)]
      rfl
    simp only [Spelling.reading, Spelling.isPair, List.length_append, four]
    rw [three _ (by rw [highSurrogate]; omega), three _ (by rw [lowSurrogate]; omega)]
    rfl

theorem reading_of_not_pair {c : Char} {p : Spelling c} (h : p.isPair = false) :
    p.reading = String.utf8EncodeChar c := by
  cases p with
  | raw | letter | unit => rfl
  | pair => cases h

/-! ### Whole strings -/

namespace SpelledString

theorem parse_literal (parts : SpelledString) :
    parse parts.literal = .ok (.string parts.reading) := by
  have inside : SpellsText (parts.flatMap fun p => p.2.text) parts.reading := by
    unfold reading
    induction parts with
    | nil => exact .nil
    | cons p parts ih =>
      rw [List.flatMap_cons, List.flatMap_cons]
      exact ih.spelling p.2
  have spelled : SpellsString parts.literal parts.reading := ⟨_, inside, rfl⟩
  have document : SpellsDocument parts.literal (.string parts.reading) := by
    simpa [SpellsDocument] using Spells.padded blank_nil (Spells.string spelled) blank_nil
  exact parse_of_spells document

theorem content_eq (parts : SpelledString) :
    parts.content = parts.flatMap fun p => String.utf8EncodeChar p.1 := by
  rw [content, text_ofList, List.flatMap_map]

theorem length_reading (parts : SpelledString) :
    parts.reading.length = parts.content.length + 2 * parts.countP fun p => p.2.isPair := by
  rw [content_eq, reading]
  induction parts with
  | nil => rfl
  | cons p parts ih =>
    rw [List.flatMap_cons, List.flatMap_cons, List.length_append, List.length_append, ih,
      Json.length_reading, List.countP_cons]
    split <;> omega

theorem reading_of_no_pair {parts : SpelledString} (h : ∀ p ∈ parts, p.2.isPair = false) :
    parts.reading = parts.content := by
  rw [content_eq, reading]
  induction parts with
  | nil => rfl
  | cons p parts ih =>
    obtain ⟨first, rest⟩ := List.forall_mem_cons.mp h
    rw [List.flatMap_cons, List.flatMap_cons, ih rest, reading_of_not_pair first]

end SpelledString

/-- A string literal is read as the characters that it spells, in UTF-8, exactly if none of them is
written as a surrogate pair. A surrogate pair is read as its two units, each in three bytes. -/
theorem spelled_string_read (parts : SpelledString) :
    parse parts.literal = .ok (.string parts.reading) ∧
      (parse parts.literal = .ok (.string parts.content) ↔ ∀ p ∈ parts, p.2.isPair = false) := by
  refine ⟨parts.parse_literal, ?_⟩
  rw [parts.parse_literal]
  constructor
  · intro same
    have same : parts.reading = parts.content := Value.string.inj (Except.ok.inj same)
    have none : parts.countP (fun p => p.2.isPair) = 0 := by
      have length := parts.length_reading
      rw [same] at length
      omega
    simpa [List.countP_eq_zero] using none
  · intro none
    rw [SpelledString.reading_of_no_pair none]

/-- A face beyond U+FFFF. -/
def pairedFace : SpelledString :=
  [⟨'😀', .pair (text "d83d") (text "DE00") (by decide) (by decide) (by decide)⟩]

/-- The pair is read as six bytes, which are not the four of the face. -/
theorem pairedFace_misread :
    pairedFace.literal = text "\"\\ud83d\\uDE00\"" ∧ pairedFace.content = text "😀" ∧
      parse pairedFace.literal = .ok (.string [0xED, 0xA0, 0xBD, 0xED, 0xB8, 0x80]) ∧
      parse pairedFace.literal ≠ .ok (.string pairedFace.content) := by
  have reading : pairedFace.reading = [0xED, 0xA0, 0xBD, 0xED, 0xB8, 0x80] := by decide +kernel
  have content : pairedFace.content = [0xF0, 0x9F, 0x98, 0x80] := by decide +kernel
  have read := pairedFace.parse_literal
  rw [reading] at read
  refine ⟨by decide +kernel, by decide +kernel, read, ?_⟩
  rw [read, content]
  intro same
  have bytes := Value.string.inj (Except.ok.inj same)
  exact absurd bytes (by decide)

end CallAtlas.Json
