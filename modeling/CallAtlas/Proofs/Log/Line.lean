import CallAtlas.Log.Line
import CallAtlas.Proofs.Json.RoundTrip
import CallAtlas.Proofs.Json.Soundness

/-! # Log lines as JSON

A line of the log in JSON is one line: whatever bytes the tag and the message hold, the only line
feed is the last byte. Before it stands an object of four members. It spells the entry if the tag
and the message hold no control bytes but line feeds, carriage returns and tabs, which are the ones
that are escaped. Any other control byte is written as it is, and then no reader takes the line,
since no document holds such a byte.
-/
namespace CallAtlas.Json

/-! ### Control bytes in documents -/

/-- The only control bytes are line feeds, carriage returns and tabs. -/
def BreaksOnly (bs : Bytes) : Prop := ∀ b ∈ bs, b < 0x20 → b ∈ text "\n\r\t"

instance (bs : Bytes) : Decidable (BreaksOnly bs) :=
  List.decidableBAll (fun b => b < 0x20 → b ∈ text "\n\r\t") bs

namespace BreaksOnly

@[simp] theorem append_iff {as bs : Bytes} :
    BreaksOnly (as ++ bs) ↔ BreaksOnly as ∧ BreaksOnly bs := List.forall_mem_append

@[simp] theorem cons_iff {b : UInt8} {bs : Bytes} :
    BreaksOnly (b :: bs) ↔ (b < 0x20 → b ∈ text "\n\r\t") ∧ BreaksOnly bs := List.forall_mem_cons

theorem of_le {bs : Bytes} (h : ∀ b ∈ bs, 0x20 ≤ b) : BreaksOnly bs := by
  intro b hb low
  exact absurd low (UInt8.not_lt.mpr (h b hb))

theorem enclosed {first last : UInt8} {bs : Bytes} (marks : BreaksOnly [first, last])
    (h : BreaksOnly bs) : BreaksOnly (enclosed first bs last) := by
  simp_all [Json.enclosed]

theorem parted {mark : UInt8} {left right : Bytes} (hm : BreaksOnly [mark]) (hl : BreaksOnly left)
    (hr : BreaksOnly right) : BreaksOnly (parted left mark right) := by
  simp_all [Json.parted]

end BreaksOnly

theorem Blank.breaksOnly {bs : Bytes} (h : Blank bs) : BreaksOnly bs := by
  have blanks : BreaksOnly (text " \t\n\r") := by decide
  exact fun b hb => blanks b (h b hb)

theorem Digits.breaksOnly {bs : Bytes} (h : Digits bs) : BreaksOnly bs := by
  refine .of_le fun b hb => ?_
  have digit := h.2 b hb
  simp only [Bytes.isDigit, Bool.and_eq_true, decide_eq_true_eq] at digit
  exact UInt8.le_trans (by decide) digit.1

theorem breaksOnly_of_hexDigit {bs : Bytes} (h : ∀ b ∈ bs, (Bytes.hexDigit? b).isSome) :
    BreaksOnly bs := by
  refine .of_le fun b hb => ?_
  have digit := h b hb
  simp only [Bytes.hexDigit?, Bytes.isDigit, Bool.and_eq_true, decide_eq_true_eq] at digit
  split at digit
  · rename_i hd
    exact UInt8.le_trans (by decide) hd.1
  · split at digit
    · rename_i hd
      exact UInt8.le_trans (by decide) hd.1
    · split at digit
      · rename_i hd
        exact UInt8.le_trans (by decide) hd.1
      · cases digit

theorem SpellsNumber.breaksOnly {bs : Bytes} {n : Numeral} (h : SpellsNumber bs n) :
    BreaksOnly bs := by
  obtain ⟨whole, fraction, exponent, hf, he, rfl⟩ := h
  have sign : BreaksOnly (if n.negative then text "-" else []) := by
    split <;> decide
  have point : BreaksOnly fraction := by
    cases hd : n.fraction with
    | none =>
      rw [hd] at hf
      cases hf
      decide
    | some digits =>
      rw [hd] at hf
      obtain ⟨digits, rfl⟩ := hf
      exact .parted (by decide) (by decide) digits.breaksOnly
  have power : BreaksOnly exponent := by
    cases hd : n.exponent with
    | none =>
      rw [hd] at he
      cases he
      decide
    | some i =>
      rw [hd] at he
      obtain ⟨mark, sign, digits, hm, hs, digits, rfl, -⟩ := he
      have marks : ∀ mark ∈ text "eE", BreaksOnly [mark] := forall_mem_of_all (by decide)
      have signs : ∀ sign ∈ [[], text "+", text "-"], BreaksOnly sign :=
        forall_mem_of_all (by decide)
      refine .parted (marks mark hm) (by decide) ?_
      exact BreaksOnly.append_iff.mpr ⟨signs sign hs, digits.breaksOnly⟩
  simp only [BreaksOnly.append_iff]
  exact ⟨sign, whole.breaksOnly, point, power⟩

theorem SpellsText.breaksOnly {bs s : Bytes} (h : SpellsText bs s) : BreaksOnly bs := by
  induction h with
  | nil => decide
  | plain _ visible _ _ ih => exact BreaksOnly.cons_iff.mpr ⟨fun low => absurd low visible, ih⟩
  | @letter b _ _ _ hb _ ih =>
    have letters : ∀ l ∈ letters, BreaksOnly [l.1] := forall_mem_of_all (by decide)
    exact .parted (by decide) (by decide) (BreaksOnly.append_iff.mpr ⟨letters _ hb, ih⟩)
  | unit _ digits _ ih =>
    have inside := BreaksOnly.append_iff.mpr ⟨breaksOnly_of_hexDigit digits, ih⟩
    exact .parted (by decide) (by decide) (.parted (by decide) (by decide) inside)

theorem SpellsString.breaksOnly {bs s : Bytes} (h : SpellsString bs s) : BreaksOnly bs := by
  obtain ⟨inside, spelled, rfl⟩ := h
  exact .enclosed (by decide) spelled.breaksOnly

/-- No text of the grammar holds a control byte that is not a blank. -/
theorem Spells.breaksOnly {d : Nat} {bs : Bytes} {p : Phrase} (h : Spells d bs p) :
    BreaksOnly bs := by
  induction h with
  | @word _ bs v hw =>
    have words : ∀ w ∈ wordValues, BreaksOnly w.1 := by
      simp only [wordValues, List.forall_mem_cons]
      decide
    exact words (bs, v) hw
  | number hn _ => exact hn.breaksOnly
  | string hs => exact hs.breaksOnly
  | emptyArray hb => exact .enclosed (by decide) hb.breaksOnly
  | array _ ih => exact .enclosed (by decide) ih
  | emptyObject hb => exact .enclosed (by decide) hb.breaksOnly
  | object _ _ ih => exact .enclosed (by decide) ih
  | padded before _ behind ih =>
    simp only [BreaksOnly.append_iff]
    exact ⟨before.breaksOnly, ih, behind.breaksOnly⟩
  | lastItem _ ih => exact ih
  | moreItems _ _ first more => exact .parted (by decide) first more
  | member before key between _ ih =>
    have name := BreaksOnly.append_iff.mpr ⟨key.breaksOnly, between.breaksOnly⟩
    exact BreaksOnly.append_iff.mpr ⟨before.breaksOnly, .parted (by decide) name ih⟩
  | lastMember _ ih => exact ih
  | moreMembers _ _ first more => exact .parted (by decide) first more

end CallAtlas.Json

namespace CallAtlas.Log

open Json

/-! ### Quoted texts -/

/-- A control byte that has no escape of its own stays in the text. -/
theorem escapeByte_eq_singleton {b : UInt8} (control : b < 0x20) (other : b ∉ text "\n\r\t") :
    escapeByte b = [b] := by
  have marks : ∀ c ∈ [('"' : UInt8), '\\'], ¬ c < 0x20 := forall_mem_of_all (by decide)
  have breaks : ∀ c ∈ [('\n' : UInt8), '\r', '\t'], c ∈ text "\n\r\t" :=
    forall_mem_of_all (by decide)
  simp only [List.forall_mem_cons] at marks breaks
  unfold escapeByte
  rw [if_neg, if_neg, if_neg, if_neg, if_neg]
  · rintro rfl; exact other breaks.2.2.1
  · rintro rfl; exact other breaks.2.1
  · rintro rfl; exact other breaks.1
  · rintro rfl; exact marks.2.1 control
  · rintro rfl; exact marks.1 control

theorem breaksOnly_of_escaped {s : Bytes} (h : BreaksOnly (s.flatMap escapeByte)) :
    BreaksOnly s := by
  intro b hb control
  by_cases escaped : b ∈ text "\n\r\t"
  · exact escaped
  · have stays : b ∈ s.flatMap escapeByte := by
      refine List.mem_flatMap.mpr ⟨b, hb, ?_⟩
      rw [escapeByte_eq_singleton control escaped]
      exact List.mem_singleton_self b
    exact h b stays control

theorem spellsText_escapeByte {b : UInt8} (hb : b < 0x20 → b ∈ text "\n\r\t") {bs s : Bytes}
    (h : SpellsText bs s) : SpellsText (escapeByte b ++ bs) (b :: s) := by
  unfold escapeByte
  -- The first five branches are the bytes that have a letter of their own.
  iterate 5
    split
    · subst b
      exact .letter (by decide) h
  rename_i quote backslash feed carriage tab
  refine .plain quote ?_ backslash h
  intro control
  have breaks : text "\n\r\t" = [('\n' : UInt8), '\r', '\t'] := by decide
  have := hb control
  simp_all

theorem spellsString_escaped {s : Bytes} (h : BreaksOnly s) :
    SpellsString (enclosed '"' (s.flatMap escapeByte) '"') s := by
  refine ⟨_, ?_, rfl⟩
  induction s with
  | nil => exact .nil
  | cons b s ih =>
    obtain ⟨first, rest⟩ := BreaksOnly.cons_iff.mp h
    rw [List.flatMap_cons]
    exact spellsText_escapeByte first (ih rest)

theorem lineFeed_not_mem_escapeByte (b : UInt8) : ('\n' : UInt8) ∉ escapeByte b := by
  unfold escapeByte
  iterate 5
    split
    · decide
  rename_i feed _ _
  intro h
  exact feed (List.mem_singleton.mp h).symm

theorem lineFeed_not_mem_escaped (s : Bytes) : ('\n' : UInt8) ∉ s.flatMap escapeByte := by
  intro h
  obtain ⟨b, -, hb⟩ := List.mem_flatMap.mp h
  exact lineFeed_not_mem_escapeByte b hb

/-! ### Lines -/

namespace Entry

/-- A member of the object of a line: its key, and its value as it is written. -/
def member (key : String) (value : Bytes) : Bytes :=
  parted (enclosed '"' (text key) '"') ':' value

/-- The object of a line, without the line feed behind it. -/
def jsonObject (e : Entry) (millis : Int64) : Bytes :=
  enclosed '\x7b'
    (parted (member "ts" (Bytes.signedDecimal millis.toInt)) ','
      (parted (member "level" (enclosed '"' e.level.name '"')) ','
        (parted (member "module" (enclosed '"' (e.tag.flatMap escapeByte) '"')) ','
          (member "msg" (enclosed '"' (e.message.flatMap escapeByte) '"'))))) '\x7d'

theorem jsonLine_eq (e : Entry) (millis : Int64) :
    e.jsonLine millis = e.jsonObject millis ++ text "\n" := by
  simp only [jsonLine, jsonObject, member, enclosed, parted, List.append_assoc, List.cons_append,
    List.nil_append]
  rfl

/-- The value that the object of a line is to be read as. -/
def jsonValue (e : Entry) (millis : Int64) : Value :=
  .object
    [(text "level", .string e.level.name), (text "module", .string e.tag),
      (text "msg", .string e.message), (text "ts", .integer millis)]

theorem spells_member {d : Nat} {key : String} {bs : Bytes} {v : Value}
    (named : SpellsString (enclosed '"' (text key) '"') (text key)) (h : Spells d bs (.value v)) :
    Spells d (member key bs) (.member (text key) v) := by
  have value := Spells.padded blank_nil h blank_nil
  simpa [member] using Spells.member blank_nil named blank_nil value

/-- A text that no escape changes. -/
theorem spellsString_plain {s : Bytes} (plain : s.flatMap escapeByte = s) (h : BreaksOnly s) :
    SpellsString (enclosed '"' s '"') s := by
  have spelled := spellsString_escaped h
  rwa [plain] at spelled

theorem spells_jsonObject {e : Entry} (ht : BreaksOnly e.tag) (hm : BreaksOnly e.message)
    (millis : Int64) : Spells 512 (e.jsonObject millis) (.value (e.jsonValue millis)) := by
  have stamp : Spells 511 (Bytes.signedDecimal millis.toInt) (.value (.integer millis)) :=
    .number (spellsNumber_ofInt _) (denotes_ofInt millis)
  have level : SpellsString (enclosed '"' e.level.name '"') e.level.name := by
    apply spellsString_plain
    · cases e.level <;> decide
    · cases e.level <;> decide
  have ts := spells_member (spellsString_plain (s := text "ts") (by decide) (by decide)) stamp
  have name := spells_member (spellsString_plain (s := text "level") (by decide) (by decide))
    (.string (d := 511) level)
  have tag := spells_member (spellsString_plain (s := text "module") (by decide) (by decide))
    (.string (d := 511) (spellsString_escaped ht))
  have message := spells_member (spellsString_plain (s := text "msg") (by decide) (by decide))
    (.string (d := 511) (spellsString_escaped hm))
  -- The members are written with the time first and collected in the order of their keys.
  exact .object (.moreMembers ts (.moreMembers name (.moreMembers tag (.lastMember message))))
    (collects_iff.mpr rfl)

theorem breaksOnly_of_jsonObject {e : Entry} {millis : Int64}
    (h : BreaksOnly (e.jsonObject millis)) : BreaksOnly (e.tag ++ e.message) := by
  simp only [jsonObject, member, enclosed, parted, BreaksOnly.append_iff, BreaksOnly.cons_iff] at h
  have tag : BreaksOnly (e.tag.flatMap escapeByte) := by simp_all
  have message : BreaksOnly (e.message.flatMap escapeByte) := by simp_all
  exact BreaksOnly.append_iff.mpr ⟨breaksOnly_of_escaped tag, breaksOnly_of_escaped message⟩

theorem lineFeed_not_mem_signedDecimal (i : Int) : ('\n' : UInt8) ∉ Bytes.signedDecimal i := by
  have digits (n : Nat) : ('\n' : UInt8) ∉ Bytes.decimal n := by
    intro h
    exact absurd ((digits_decimal n).2 _ h) (by decide)
  cases i with
  | ofNat n => exact digits n
  | negSucc n =>
    rw [Bytes.signedDecimal, List.mem_cons, not_or]
    exact ⟨by decide, digits (n + 1)⟩

theorem lineFeed_not_mem_jsonObject (e : Entry) (millis : Int64) :
    ('\n' : UInt8) ∉ e.jsonObject millis := by
  have stamp := lineFeed_not_mem_signedDecimal millis.toInt
  have level : ('\n' : UInt8) ∉ e.level.name := by cases e.level <;> decide
  have tag := lineFeed_not_mem_escaped e.tag
  have message := lineFeed_not_mem_escaped e.message
  have keys : ∀ key ∈ ["ts", "level", "module", "msg"], ('\n' : UInt8) ∉ text key :=
    forall_mem_of_all (by decide)
  have marks : ∀ mark ∈ [('\x7b' : UInt8), '\x7d', '"', ',', ':'], ('\n' : UInt8) ≠ mark :=
    forall_mem_of_all (by decide)
  simp_all [jsonObject, member, enclosed, parted]

end Entry

/-- An entry is written as one line, whose only line feed is its last byte. What stands before the
line feed is a JSON text exactly if the tag and the message hold no control bytes but line feeds,
carriage returns and tabs, and then it is read as an object of four members: the time, the name of
the level, the tag and the message. -/
theorem jsonLine_read_iff (e : Entry) (millis : Int64) :
    ∃ line, e.jsonLine millis = line ++ text "\n" ∧ ('\n' : UInt8) ∉ line ∧
      ∀ v, Json.parse line = .ok v ↔
        (∀ b ∈ e.tag ++ e.message, b < 0x20 → b ∈ text "\n\r\t") ∧
          v = .object
            [(text "level", .string e.level.name), (text "module", .string e.tag),
              (text "msg", .string e.message), (text "ts", .integer millis)] := by
  refine ⟨e.jsonObject millis, e.jsonLine_eq millis, e.lineFeed_not_mem_jsonObject millis, ?_⟩
  -- Where the bytes are such that the object can be read, it is read as it should be.
  have read (clean : BreaksOnly (e.tag ++ e.message)) :
      Json.parse (e.jsonObject millis) = .ok (e.jsonValue millis) := by
    obtain ⟨tag, message⟩ := BreaksOnly.append_iff.mp clean
    have document := Spells.padded blank_nil (Entry.spells_jsonObject tag message millis) blank_nil
    simpa using parse_of_spells document
  intro v
  constructor
  · intro accepted
    have clean := Entry.breaksOnly_of_jsonObject (Spells.breaksOnly (spells_of_parse accepted))
    exact ⟨clean, Except.ok.inj (accepted.symm.trans (read clean))⟩
  · rintro ⟨clean, rfl⟩
    exact read clean

/-- What is said of a file with a byte in it that starts nothing. -/
def controlEntry : Entry := ⟨.warn, text "parse", text "Unexpected character '\x01'"⟩

/-- The line of this entry is no JSON text. -/
theorem controlEntry_unread :
    ∃ line, controlEntry.jsonLine 0 = line ++ text "\n" ∧ ∀ v, Json.parse line ≠ .ok v := by
  have refused : (Json.parse (controlEntry.jsonLine 0).dropLast).toOption.isNone := by
    decide +kernel
  refine ⟨(controlEntry.jsonLine 0).dropLast, by decide +kernel, ?_⟩
  intro v h
  rw [h] at refused
  cases refused

end CallAtlas.Log
