import CallAtlas.Json.Reader
import CallAtlas.Proofs.Table

/-! # The grammar of JSON

Which bytes spell which value, told without a reader. Blanks may stand around any entry of a
container, but not inside numbers, words and strings. `Spells d bs p` says that the bytes `bs` spell
the phrase `p` with containers nested at most `d` deep.
-/
namespace CallAtlas.Json

def Blank (bs : Bytes) : Prop := ∀ b ∈ bs, b ∈ text " \t\n\r"

/-- One digit or more. -/
def Digits (bs : Bytes) : Prop := bs ≠ [] ∧ ∀ b ∈ bs, Bytes.isDigit b

/-- What stands between two marks, with the marks. -/
def enclosed (first : UInt8) (bs : Bytes) (last : UInt8) : Bytes := first :: (bs ++ [last])

/-- Two parts with a mark between them. -/
def parted (left : Bytes) (mark : UInt8) (right : Bytes) : Bytes := left ++ mark :: right

/-! ### Numbers -/

/-- A point and the digits behind it, or nothing. -/
def SpellsFraction (bs : Bytes) : Option Bytes → Prop
  | none => bs = []
  | some digits => Digits digits ∧ bs = parted [] '.' digits

/-- A mark, a sign, which may be left out, and digits, or nothing. -/
def SpellsExponent (bs : Bytes) : Option Int → Prop
  | none => bs = []
  | some exponent =>
    ∃ mark sign digits, mark ∈ text "eE" ∧ sign ∈ [[], text "+", text "-"] ∧ Digits digits ∧
      bs = parted [] mark (sign ++ digits) ∧
      exponent =
        if sign = text "-" then -(Bytes.readDecimal digits : Int) else Bytes.readDecimal digits

/-- The text of a number in its parts. -/
def SpellsNumber (bs : Bytes) (n : Numeral) : Prop :=
  Digits n.whole ∧ ∃ fraction exponent, SpellsFraction fraction n.fraction ∧
    SpellsExponent exponent n.exponent ∧
    bs = (if n.negative then text "-" else []) ++ (n.whole ++ (fraction ++ exponent))

namespace Numeral

/-- The integer that the sign and the digits before the point write. -/
def integer (n : Numeral) : Int :=
  if n.negative then -(Bytes.readDecimal n.whole : Int) else Bytes.readDecimal n.whole

/-- The float nearest to what is written. -/
def nearest (n : Numeral) : Float :=
  let fraction := n.fraction.getD []
  Binary64.ofDecimal n.negative (Bytes.readDecimal (n.whole ++ fraction))
    (n.exponent.getD 0 - fraction.length)

/-- Whether a number without point and exponent is one of the integers of 64 bits. -/
def IsInteger (n : Numeral) : Prop :=
  n.fraction = none ∧ n.exponent = none ∧
    -0x8000000000000000 ≤ n.integer ∧ n.integer ≤ 0x7FFFFFFFFFFFFFFF

/-- The value of a number: the integer itself where it is one, and the nearest float elsewhere. -/
def Denotes (n : Numeral) : Value → Prop
  | .integer i => n.IsInteger ∧ i.toInt = n.integer
  | .float f => ¬ n.IsInteger ∧ f = n.nearest
  | _ => False

end Numeral

/-! ### Strings -/

/-- The letters that may stand behind a backslash, and the bytes they stand for. -/
def letters : List (UInt8 × UInt8) :=
  [('"', '"'), ('\\', '\\'), ('/', '/'), ('b', 8), ('f', 12), ('n', 10), ('r', 13), ('t', 9)]

/-- The number that hexadecimal digits write. -/
def hexValue (digits : Bytes) : Nat :=
  digits.foldl (fun n d => n * 16 + (Bytes.hexDigit? d).getD 0) 0

/-- The one to three bytes that stand for a unit of 16 bits. -/
def unitBytes (unit : Nat) : Bytes :=
  if unit < 0x80 then [UInt8.ofNat unit]
  else if unit < 0x800 then [UInt8.ofNat (0xC0 + unit / 64), UInt8.ofNat (0x80 + unit % 64)]
  else
    [UInt8.ofNat (0xE0 + unit / 4096), UInt8.ofNat (0x80 + unit / 64 % 64),
      UInt8.ofNat (0x80 + unit % 64)]

/-- What stands between the quotes of a string, and the bytes it stands for. -/
inductive SpellsText : Bytes → Bytes → Prop
  | nil : SpellsText [] []
  | plain {b : UInt8} {bs s} : b ≠ '"' → ¬ b < 0x20 → b ≠ '\\' → SpellsText bs s →
      SpellsText (b :: bs) (b :: s)
  | letter {b byte bs s} : (b, byte) ∈ letters → SpellsText bs s →
      SpellsText (parted [] '\\' (b :: bs)) (byte :: s)
  | unit {digits bs s} : digits.length = 4 → (∀ d ∈ digits, (Bytes.hexDigit? d).isSome) →
      SpellsText bs s →
      SpellsText (parted [] '\\' (parted [] 'u' (digits ++ bs)))
        (unitBytes (hexValue digits) ++ s)

/-- A string in quotes. -/
def SpellsString (bs s : Bytes) : Prop :=
  ∃ inside, SpellsText inside s ∧ bs = enclosed '"' inside '"'

/-! ### Values -/

/-- The values that are written as words. -/
def wordValues : List (Bytes × Value) :=
  [(text "true", .bool true), (text "false", .bool false), (text "null", .null)]

/-- `t` has every key of `ms` once, in increasing order, with the last of its values. -/
def Collects (ms t : List (Bytes × Value)) : Prop :=
  Ordered.Increasing Bytes.order (t.map Prod.fst) ∧
    ∀ key v, (key, v) ∈ t ↔ ms.reverse.lookup key = some v

inductive Phrase where
  | value (v : Value)
  /-- A value with blanks around it. -/
  | padded (v : Value)
  /-- The items of an array, of which there is one or more. -/
  | items (vs : List Value)
  | member (key : Bytes) (v : Value)
  /-- The members of an object, of which there is one or more, as they are written. -/
  | members (ms : List (Bytes × Value))

inductive Spells : Nat → Bytes → Phrase → Prop
  | word {d bs v} : (bs, v) ∈ wordValues → Spells d bs (.value v)
  | number {d bs n v} : SpellsNumber bs n → n.Denotes v → Spells d bs (.value v)
  | string {d bs s} : SpellsString bs s → Spells d bs (.value (.string s))
  | emptyArray {d blanks} : Blank blanks →
      Spells (d + 1) (enclosed '[' blanks ']') (.value (.array []))
  | array {d bs vs} : Spells d bs (.items vs) →
      Spells (d + 1) (enclosed '[' bs ']') (.value (.array vs))
  | emptyObject {d blanks} : Blank blanks →
      Spells (d + 1) (enclosed '\x7b' blanks '\x7d') (.value (.object []))
  | object {d bs ms t} : Spells d bs (.members ms) → Collects ms t →
      Spells (d + 1) (enclosed '\x7b' bs '\x7d') (.value (.object t))
  | padded {d before bs behind v} : Blank before → Spells d bs (.value v) → Blank behind →
      Spells d (before ++ (bs ++ behind)) (.padded v)
  | lastItem {d bs v} : Spells d bs (.padded v) → Spells d bs (.items [v])
  | moreItems {d bs v more vs} : Spells d bs (.padded v) → Spells d more (.items vs) →
      Spells d (parted bs ',' more) (.items (v :: vs))
  | member {d before key name between bs v} : Blank before → SpellsString key name →
      Blank between → Spells d bs (.padded v) →
      Spells d (before ++ parted (key ++ between) ':' bs) (.member name v)
  | lastMember {d bs key v} : Spells d bs (.member key v) → Spells d bs (.members [(key, v)])
  | moreMembers {d bs key v more ms} : Spells d bs (.member key v) →
      Spells d more (.members ms) → Spells d (parted bs ',' more) (.members ((key, v) :: ms))

/-- A document is a value with blanks around it, in which containers nest at most 512 deep. -/
def SpellsDocument (bs : Bytes) (v : Value) : Prop := Spells 512 bs (.padded v)

/-! ### The tables of the reader

The reader has its own tests and tables for bytes and parts of values. They are those of the
grammar.
-/

/-- What a test tells of a short list, told of its elements. -/
theorem forall_mem_of_all {α : Type} {P : α → Prop} [DecidablePred P] {l : List α}
    (h : l.all (fun a => P a) = true) : ∀ a ∈ l, P a := by
  simpa using h

theorem isBlank_iff {b : UInt8} : Cursor.isBlank b ↔ b ∈ text " \t\n\r" := by
  have blanks : text " \t\n\r" = [32, 9, 10, 13] := by decide
  simp only [Cursor.isBlank, blanks, Bool.or_eq_true, beq_iff_eq, List.mem_cons, List.not_mem_nil,
    or_false, or_assoc]
  rfl

theorem simpleEscape?_eq_some {b byte : UInt8} :
    simpleEscape? b = some byte ↔ (b, byte) ∈ letters := by
  have sound : ∀ e ∈ letters, simpleEscape? e.1 = some e.2 := forall_mem_of_all (by decide)
  refine ⟨?_, sound (b, byte)⟩
  intro h
  unfold simpleEscape? at h
  split at h
  · rename_i plain
    simp only [Bool.or_eq_true, decide_eq_true_eq] at plain
    cases h
    rcases plain with (rfl | rfl) | rfl <;> decide
  -- The other five branches are for one letter each.
  iterate 5
    split at h
    · subst b
      cases h
      decide
  cases h

theorem hexValue_lt {digits : Bytes} (length : digits.length = 4) : hexValue digits < 0x10000 := by
  have bound (b : UInt8) : (Bytes.hexDigit? b).getD 0 < 16 := by
    cases h : Bytes.hexDigit? b with
    | none => decide
    | some d => exact Bytes.hexDigit?_lt h
  match digits, length with
  | [a, b, c, d], _ =>
    have := bound a
    have := bound b
    have := bound c
    have := bound d
    simp only [hexValue, List.foldl_cons, List.foldl_nil]
    omega

theorem utf8_hexValue {digits : Bytes} (length : digits.length = 4) :
    Bytes.utf8 (hexValue digits) = unitBytes (hexValue digits) := by
  simp only [Bytes.utf8, unitBytes, Nat.shiftRight_eq_div_pow, hexValue_lt length, if_true]
  simp

theorem wordValues_eq : wordValues = words.map fun w => (w.1 :: w.2.1, w.2.2) := rfl

namespace Numeral

theorem toValue_of_isInteger {n : Numeral} (h : n.IsInteger) :
    n.toValue = .integer (Int64.ofInt n.integer) := by
  obtain ⟨fraction, exponent, range⟩ := h
  simp only [toValue, fraction, exponent]
  exact if_pos range

theorem toValue_of_not_isInteger {n : Numeral} (h : ¬ n.IsInteger) :
    n.toValue = .float n.nearest := by
  unfold toValue
  split
  · rename_i fraction exponent
    refine if_neg ?_
    intro range
    exact h ⟨fraction, exponent, range⟩
  · rfl

theorem denotes_toValue (n : Numeral) : n.Denotes n.toValue := by
  by_cases h : n.IsInteger
  · rw [toValue_of_isInteger h]
    refine ⟨h, Int64.toInt_ofInt_of_le ?_ ?_⟩
    · exact h.2.2.1
    · have := h.2.2.2
      omega
  · rw [toValue_of_not_isInteger h]
    exact ⟨h, rfl⟩

theorem eq_toValue_of_denotes {n : Numeral} {v : Value} (h : n.Denotes v) : v = n.toValue := by
  cases v with
  | integer i =>
    obtain ⟨whole, hi⟩ := h
    rw [toValue_of_isInteger whole, ← hi, Int64.ofInt_toInt]
  | float f =>
    obtain ⟨other, rfl⟩ := h
    rw [toValue_of_not_isInteger other]
  | _ => exact h.elim

end Numeral

theorem collects_iff {ms t : List (Bytes × Value)} :
    Collects ms t ↔ Value.ofMembers ms = .object t := by
  have increasing := Table.increasing_filled (t := []) List.Pairwise.nil ms
  have mem (key : Bytes) (v : Value) :
      (key, v) ∈ Table.filled [] ms ↔ ms.reverse.lookup key = some v := by
    rw [Table.mem_iff_find? increasing, Table.find?_filled]
    simp [Table.find?]
  constructor
  · rintro ⟨ht, hmem⟩
    have same : Table.filled [] ms = t :=
      Table.eq_of_mem_iff increasing ht fun e => (mem e.1 e.2).trans (hmem e.1 e.2).symm
    exact congrArg Value.object same
  · intro h
    obtain rfl : Table.filled [] ms = t := Value.object.inj h
    exact ⟨increasing, mem⟩

theorem collects_nil : Collects [] [] := collects_iff.mpr rfl

end CallAtlas.Json
