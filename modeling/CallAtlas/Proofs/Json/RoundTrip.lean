import CallAtlas.Json.Writer
import CallAtlas.Proofs.Json.Completeness
import CallAtlas.Proofs.Table

/-! # What is written is read back

The text of a value spells it, in either layout, and whatever is spelled is read. Two things do not
survive: floats, whose text is rounded or `null`, and members of an object that are out of order. A
value without them is plain.

A writer puts a text in front of whatever follows. `Lays w d p` says so, and that the text spells
the phrase `p`; the layouts differ only in the blanks between the parts.
-/
namespace CallAtlas.Json

/-! ### Plain values -/

namespace Value

/-- A value without floats, its members in order of their keys and its containers nested at most
`d` deep. -/
inductive Plain : Nat → Value → Prop
  | null {d} : Plain d .null
  | bool {d b} : Plain d (.bool b)
  | integer {d i} : Plain d (.integer i)
  | string {d s} : Plain d (.string s)
  | array {d vs} : (∀ v ∈ vs, Plain d v) → Plain (d + 1) (.array vs)
  | object {d ms} : Ordered.Increasing Bytes.order (ms.map Prod.fst) →
      (∀ m ∈ ms, Plain d m.2) → Plain (d + 1) (.object ms)

theorem collects_of_increasing {ms : List (Bytes × Value)}
    (h : Ordered.Increasing Bytes.order (ms.map Prod.fst)) : Collects ms ms :=
  collects_iff.mpr (congrArg object (Table.filled_of_increasing (t := []) h))

theorem Plain.ofMembers {d : Nat} {ms : List (Bytes × Value)} (h : ∀ m ∈ ms, Plain d m.2) :
    Plain (d + 1) (ofMembers ms) := by
  refine .object (Table.increasing_filled (t := []) List.Pairwise.nil ms) ?_
  intro m hm
  rcases Table.mem_filled (t := []) hm with hm | hm
  · cases hm
  · exact h m hm

end Value

/-! ### Strings -/

theorem hexDigit?_hexDigit {n : Nat} (h : n < 16) : Bytes.hexDigit? (hexDigit n) = some n :=
  (show ∀ n < 16, Bytes.hexDigit? (hexDigit n) = some n by decide) n h

/-- A control character is written as its number. -/
theorem SpellsText.control {b : UInt8} (hb : b < 0x20) {bs s : Bytes} (h : SpellsText bs s) :
    SpellsText (text "\\u00" ++ [hexDigit (b.toNat / 16), hexDigit (b.toNat % 16)] ++ bs)
      (b :: s) := by
  have small : b.toNat < 32 := hb
  have high := hexDigit?_hexDigit (show b.toNat / 16 < 16 by omega)
  have low := hexDigit?_hexDigit (show b.toNat % 16 < 16 by omega)
  let digits := text "00" ++ [hexDigit (b.toNat / 16), hexDigit (b.toNat % 16)]
  have number : hexValue digits = b.toNat := by
    have zero : Bytes.hexDigit? 48 = some 0 := by decide
    change ((((0 * 16 + (Bytes.hexDigit? 48).getD 0) * 16 + (Bytes.hexDigit? 48).getD 0) * 16 +
      (Bytes.hexDigit? (hexDigit (b.toNat / 16))).getD 0) * 16 +
      (Bytes.hexDigit? (hexDigit (b.toNat % 16))).getD 0) = b.toNat
    rw [zero, high, low]
    simp only [Option.getD_some]
    omega
  have encoded : unitBytes (hexValue digits) = [b] := by
    rw [number, unitBytes, if_pos (by omega), UInt8.ofNat_toNat]
  have spelled := SpellsText.unit (show digits.length = 4 from rfl) ?_ h
  · rw [encoded] at spelled
    exact spelled
  · intro d hd
    rcases List.mem_append.mp hd with hd | hd
    · have zeros : ∀ d ∈ text "00", (Bytes.hexDigit? d).isSome := forall_mem_of_all (by decide)
      exact zeros d hd
    · simp only [List.mem_cons, List.not_mem_nil, or_false] at hd
      rcases hd with rfl | rfl
      · rw [high]; rfl
      · rw [low]; rfl

theorem SpellsText.escape (b : UInt8) {bs s : Bytes} (h : SpellsText bs s) :
    SpellsText (escape b ++ bs) (b :: s) := by
  unfold Json.escape
  -- The first seven branches are the bytes that have a letter of their own.
  iterate 7
    split
    · subst b
      exact .letter (by decide) h
  split
  · rename_i control
    exact .control control h
  · rename_i quote backslash _ _ _ _ _ control
    exact .plain quote control backslash h

theorem spellsText_flatMap (s : Bytes) : SpellsText (s.flatMap Json.escape) s := by
  induction s with
  | nil => exact .nil
  | cons b s ih =>
    rw [List.flatMap_cons]
    exact ih.escape b

theorem writeString_eq (s rest : Bytes) :
    writeString s rest = enclosed '"' (s.flatMap escape) '"' ++ rest := by
  have inside (tail : Bytes) : s.foldr (fun b more => escape b ++ more) tail =
      s.flatMap escape ++ tail := by
    induction s with
    | nil => rfl
    | cons b s ih => rw [List.foldr_cons, ih, List.flatMap_cons, List.append_assoc]
  rw [writeString, inside]
  simp [enclosed]

/-! ### Integers -/

theorem digits_decimal (n : Nat) : Digits (Bytes.decimal n) := by
  refine ⟨Bytes.decimal_ne_nil n, ?_⟩
  have digit : ∀ d < 10, Bytes.isDigit (UInt8.ofNat (48 + d)) := by decide
  fun_induction Bytes.decimal n with
  | case1 n h => exact fun b hb => List.mem_singleton.mp hb ▸ digit n h
  | case2 n h ih =>
    intro b hb
    rcases List.mem_append.mp hb with hb | hb
    · exact ih b hb
    · exact List.mem_singleton.mp hb ▸ digit (n % 10) (by omega)

/-- The parts of the text of an integer. -/
def Numeral.ofInt (i : Int) : Numeral := ⟨decide (i < 0), Bytes.decimal i.natAbs, none, none⟩

theorem spellsNumber_ofInt (i : Int) :
    SpellsNumber (Bytes.signedDecimal i) (Numeral.ofInt i) := by
  refine ⟨digits_decimal _, [], [], rfl, rfl, ?_⟩
  simp only [Numeral.ofInt, List.append_nil, decide_eq_true_eq]
  cases i with
  | ofNat n =>
    have positive : ¬ Int.ofNat n < 0 := Int.not_lt.mpr (Int.natCast_nonneg n)
    rw [if_neg positive]
    rfl
  | negSucc n =>
    rw [if_pos (Int.negSucc_lt_zero n)]
    rfl

theorem denotes_ofInt (i : Int64) : (Numeral.ofInt i.toInt).Denotes (.integer i) := by
  have whole : (Numeral.ofInt i.toInt).integer = i.toInt := by
    simp only [Numeral.integer, Numeral.ofInt, Bytes.readDecimal_decimal, decide_eq_true_eq]
    split <;> omega
  refine ⟨⟨rfl, rfl, ?_⟩, whole.symm⟩
  rw [whole]
  exact ⟨i.minValue_le_toInt, i.toInt_le⟩

/-! ### Layouts -/

theorem blank_nil : Blank [] := fun _ h => nomatch h

/-- The writer `w` puts a text that spells `p` in front of what follows. -/
def Lays (w : Bytes → Bytes) (d : Nat) (p : Phrase) : Prop :=
  ∃ bs, (∀ rest, w rest = bs ++ rest) ∧ Spells d bs p

namespace Lays

variable {d : Nat} {w more : Bytes → Bytes} {v : Value} {vs : List Value} {key : Bytes}
  {ms : List (Bytes × Value)}

theorem word {i : Nat} (x : Bytes × Value) (h : wordValues[i]? = some x) :
    Lays (fun rest => x.1 ++ rest) d (.value x.2) :=
  ⟨x.1, fun _ => rfl, .word (List.mem_of_getElem? h)⟩

theorem string (s : Bytes) : Lays (writeString s) d (.value (.string s)) :=
  ⟨_, writeString_eq s, .string ⟨_, spellsText_flatMap s, rfl⟩⟩

theorem integer (i : Int64) :
    Lays (fun rest => Bytes.signedDecimal i.toInt ++ rest) d (.value (.integer i)) :=
  ⟨_, fun _ => rfl, .number (spellsNumber_ofInt i.toInt) (denotes_ofInt i)⟩

theorem padded (h : Lays w d (.value v)) {before behind : Bytes} (hbefore : Blank before)
    (hbehind : Blank behind) : Lays (fun rest => before ++ w (behind ++ rest)) d (.padded v) := by
  obtain ⟨bs, hw, hs⟩ := h
  refine ⟨before ++ (bs ++ behind), ?_, .padded hbefore hs hbehind⟩
  intro rest
  simp [hw]

theorem lastItem (h : Lays w d (.padded v)) : Lays w d (.items [v]) := by
  obtain ⟨bs, hw, hs⟩ := h
  exact ⟨bs, hw, .lastItem hs⟩

theorem moreItems (h : Lays w d (.padded v)) (hmore : Lays more d (.items vs)) :
    Lays (fun rest => w (parted [] ',' (more rest))) d (.items (v :: vs)) := by
  obtain ⟨bs, hw, hs⟩ := h
  obtain ⟨bs', hw', hs'⟩ := hmore
  refine ⟨parted bs ',' bs', ?_, .moreItems hs hs'⟩
  intro rest
  simp [hw, hw', parted]

theorem array (h : Lays w d (.items vs)) :
    Lays (fun rest => parted [] '[' (w (parted [] ']' rest))) (d + 1) (.value (.array vs)) := by
  obtain ⟨bs, hw, hs⟩ := h
  refine ⟨enclosed '[' bs ']', ?_, .array hs⟩
  intro rest
  simp [hw, parted, enclosed]

theorem member (h : Lays w d (.padded v)) {before : Bytes} (hb : Blank before) (key : Bytes) :
    Lays (fun rest => before ++ writeString key (parted [] ':' (w rest))) d (.member key v) := by
  obtain ⟨bs, hw, hs⟩ := h
  have name : SpellsString (enclosed '"' (key.flatMap escape) '"') key :=
    ⟨_, spellsText_flatMap key, rfl⟩
  refine ⟨_, ?_, .member hb name blank_nil hs⟩
  intro rest
  simp [hw, parted, writeString_eq]

theorem lastMember (h : Lays w d (.member key v)) : Lays w d (.members [(key, v)]) := by
  obtain ⟨bs, hw, hs⟩ := h
  exact ⟨bs, hw, .lastMember hs⟩

theorem moreMembers (h : Lays w d (.member key v)) (hmore : Lays more d (.members ms)) :
    Lays (fun rest => w (parted [] ',' (more rest))) d (.members ((key, v) :: ms)) := by
  obtain ⟨bs, hw, hs⟩ := h
  obtain ⟨bs', hw', hs'⟩ := hmore
  refine ⟨parted bs ',' bs', ?_, .moreMembers hs hs'⟩
  intro rest
  simp [hw, hw', parted]

theorem object (h : Lays w d (.members ms))
    (increasing : Ordered.Increasing Bytes.order (ms.map Prod.fst)) :
    Lays (fun rest => parted [] '\x7b' (w (parted [] '\x7d' rest))) (d + 1)
      (.value (.object ms)) := by
  obtain ⟨bs, hw, hs⟩ := h
  refine ⟨enclosed '\x7b' bs '\x7d', ?_, .object hs (Value.collects_of_increasing increasing)⟩
  intro rest
  simp [hw, parted, enclosed]

/-- The text of a document is read back. -/
theorem parse_eq (h : Lays w maxDepth (.value v)) : parse (w []) = .ok v := by
  obtain ⟨bs, hw, hs⟩ := h
  rw [hw]
  exact parse_of_spells (.padded blank_nil hs blank_nil)

end Lays

namespace Value

theorem newLine_append (indent level : Nat) (rest : Bytes) :
    newLine indent level [] ++ rest = newLine indent level rest := by
  simp [newLine]

theorem blank_newLine (indent level : Nat) : Blank (newLine indent level []) := by
  intro b hb
  simp only [newLine, List.append_nil, List.mem_cons, List.mem_replicate] at hb
  rcases hb with rfl | ⟨-, rfl⟩ <;> decide

section Compact

variable {d : Nat}

theorem lays_padded {w : Bytes → Bytes} {v : Value} (h : Lays w d (.value v)) :
    Lays w d (.padded v) :=
  h.padded blank_nil blank_nil

theorem lays_items {vs : List Value} (h : ∀ v ∈ vs, Lays v.write d (.value v))
    (nonempty : vs ≠ []) : Lays (writeItems vs) d (.items vs) := by
  induction vs with
  | nil => exact absurd rfl nonempty
  | cons v vs ih =>
    obtain ⟨first, others⟩ := List.forall_mem_cons.mp h
    cases vs with
    | nil => exact (lays_padded first).lastItem
    | cons v' vs => exact (lays_padded first).moreItems (ih others (by simp))

theorem lays_members {ms : List (Bytes × Value)} (h : ∀ m ∈ ms, Lays m.2.write d (.value m.2))
    (nonempty : ms ≠ []) : Lays (writeMembers ms) d (.members ms) := by
  induction ms with
  | nil => exact absurd rfl nonempty
  | cons m ms ih =>
    obtain ⟨first, others⟩ := List.forall_mem_cons.mp h
    have head := (lays_padded first).member blank_nil m.1
    cases ms with
    | nil => exact head.lastMember
    | cons m' ms => exact head.moreMembers (ih others (by simp))

end Compact

section Pretty

variable {d indent : Nat}

theorem lays_prettyItems {vs : List Value} (level : Nat)
    (h : ∀ v ∈ vs, Lays (v.writePretty indent (level + 1)) d (.value v)) (nonempty : vs ≠ []) :
    Lays (fun rest => prettyItems indent level vs (newLine indent level rest)) d (.items vs) := by
  induction vs with
  | nil => exact absurd rfl nonempty
  | cons v vs ih =>
    obtain ⟨first, others⟩ := List.forall_mem_cons.mp h
    cases vs with
    | nil =>
      have last := first.padded (blank_newLine indent (level + 1)) (blank_newLine indent level)
      simp only [newLine_append] at last
      exact last.lastItem
    | cons v' vs =>
      have head := first.padded (blank_newLine indent (level + 1)) blank_nil
      simp only [newLine_append] at head
      exact head.moreItems (ih others (by simp))

theorem lays_prettyMembers {ms : List (Bytes × Value)} (level : Nat)
    (h : ∀ m ∈ ms, Lays (m.2.writePretty indent (level + 1)) d (.value m.2))
    (nonempty : ms ≠ []) :
    Lays (fun rest => prettyMembers indent level ms (newLine indent level rest)) d
      (.members ms) := by
  have space : Blank (text " ") := forall_mem_of_all (by decide)
  induction ms with
  | nil => exact absurd rfl nonempty
  | cons m ms ih =>
    obtain ⟨first, others⟩ := List.forall_mem_cons.mp h
    cases ms with
    | nil =>
      have last := (first.padded space (blank_newLine indent level)).member
        (blank_newLine indent (level + 1)) m.1
      simp only [newLine_append] at last
      exact last.lastMember
    | cons m' ms =>
      have head := (first.padded space blank_nil).member (blank_newLine indent (level + 1)) m.1
      simp only [newLine_append] at head
      exact head.moreMembers (ih others (by simp))

end Pretty

theorem Plain.lays_write {d : Nat} {v : Value} (h : Plain d v) : Lays v.write d (.value v) := by
  induction h with
  | null => exact Lays.word (i := 2) (text "null", .null) rfl
  | @bool _ b =>
    cases b with
    | true => exact Lays.word (i := 0) (text "true", .bool true) rfl
    | false => exact Lays.word (i := 1) (text "false", .bool false) rfl
  | integer => exact Lays.integer _
  | string => exact Lays.string _
  | @array d vs _ ih =>
    cases vs with
    | nil => exact ⟨text "[]", fun _ => rfl, .emptyArray blank_nil⟩
    | cons v vs => exact (lays_items ih (by simp)).array
  | @object d ms increasing _ ih =>
    cases ms with
    | nil => exact ⟨text "\x7b\x7d", fun _ => rfl, .emptyObject blank_nil⟩
    | cons m ms => exact (lays_members ih (by simp)).object increasing

theorem Plain.lays_writePretty {d : Nat} {v : Value} (h : Plain d v) (indent level : Nat) :
    Lays (v.writePretty indent level) d (.value v) := by
  induction h generalizing level with
  | null => exact Plain.null.lays_write
  | bool => exact Plain.bool.lays_write
  | integer => exact Lays.integer _
  | string => exact Lays.string _
  | @array d vs _ ih =>
    cases vs with
    | nil => exact ⟨text "[]", fun _ => rfl, .emptyArray blank_nil⟩
    | cons v vs => exact (lays_prettyItems level (fun v hv => ih v hv _) (by simp)).array
  | @object d ms increasing _ ih =>
    cases ms with
    | nil => exact ⟨text "\x7b\x7d", fun _ => rfl, .emptyObject blank_nil⟩
    | cons m ms =>
      exact (lays_prettyMembers level (fun m hm => ih m hm _) (by simp)).object increasing

/-- A plain value is read back from its compact text. -/
theorem Plain.parse_compact {v : Value} (h : Plain maxDepth v) : parse v.compact = .ok v :=
  h.lays_write.parse_eq

/-- A plain value is read back from its pretty text, whatever the indent. -/
theorem Plain.parse_pretty {v : Value} (h : Plain maxDepth v) (indent : Nat) :
    parse (v.pretty indent) = .ok v :=
  (h.lays_writePretty indent 0).parse_eq

end Value

end CallAtlas.Json
