import CallAtlas.Proofs.Json.Completeness

/-! # Reads byte by byte

A read is followed by the rest of the reader, which is given the value that was read and the cursor
behind it. For each read there is an equation about the read with such a rest: it says what the next
byte is taken for, and leaves what is behind that byte to other reads with rests of their own.
-/
namespace CallAtlas.Json

/-- A read, and the rest of the reader behind it. -/
def andThen {m : Nat} {α β : Type} (read : Except Error (Read m α))
    (next : α → Cursor → Except Error β) : Except Error β :=
  match read with
  | .error e => .error e
  | .ok r => next r.value r.rest

section AndThen

variable {m n : Nat} {α β γ : Type}

theorem andThen_widen (read : Except Error (Read m α)) (f : α → β) (h : m ≤ n)
    (next : β → Cursor → Except Error γ) :
    andThen (read.map (·.widen f h)) next = andThen read fun v => next (f v) := by
  cases read <;> rfl

theorem andThen_ok (r : Read m α) (next : α → Cursor → Except Error β) :
    andThen (.ok r) next = next r.value r.rest := rfl

end AndThen

namespace Cursor

theorem skipBlanks_nil (l k : Nat) : skipBlanks ⟨[], l, k⟩ = ⟨[], l, k⟩ := by
  rw [skipBlanks]
  rfl

theorem skipBlanks_blank {b : UInt8} (rest : Bytes) (l k : Nat) (h : isBlank b) :
    skipBlanks ⟨b :: rest, l, k⟩ = skipBlanks (past ⟨b :: rest, l, k⟩ b rest) := by
  rw [skipBlanks]
  exact if_pos h

theorem skipBlanks_solid {b : UInt8} (rest : Bytes) (l k : Nat) (h : ¬ isBlank b) :
    skipBlanks ⟨b :: rest, l, k⟩ = ⟨b :: rest, l, k⟩ := by
  rw [skipBlanks]
  exact if_neg h

theorem skip_skip (c : Cursor) (m n : Nat) : (c.skip m).skip n = c.skip (m + n) := by
  simp [skip, Nat.add_assoc]

end Cursor

section Values

variable {α β : Type}

theorem andThen_value (d : Nat) (c : Cursor) (next : Value → Cursor → Except Error β) :
    andThen (value d c) next = andThen (valueHere (nestedAt d) c.skipBlanks) next := by
  rw [value_eq, valueWithin, andThen_widen]
  rfl

/-- What follows an entry of a container and blanks: a comma and more entries, or the end. -/
def behindEntry (close : UInt8) (fault : Fault) (more finish : Cursor → Except Error β)
    (c : Cursor) : Except Error β :=
  match c.next? with
  | none => c.fail fault
  | some r =>
    if r.value = ',' then more r.rest
    else if r.value = close then finish r.rest
    else c.fail fault

theorem andThen_entries (entry : (c : Cursor) → Except Error (Read c.size α)) (close : UInt8)
    (fault : Fault) (c : Cursor) (next : List α → Cursor → Except Error β) :
    andThen (entries entry close fault c) next = andThen (entry c) fun first c =>
      behindEntry close fault
        (fun c => andThen (entries entry close fault c) fun more => next (first :: more))
        (next [first]) c.skipBlanks := by
  rw [entries]
  cases entry c with
  | error e => rfl
  | ok first =>
    obtain ⟨first, c₁, h₁⟩ := first
    rw [andThen_ok, behindEntry]
    dsimp only
    cases c₁.skipBlanks.next? with
    | none => rfl
    | some r =>
      obtain ⟨b, c₂, h₂⟩ := r
      by_cases comma : b = ','
      · simp only [comma, if_true, andThen_widen]
      · simp only [comma, if_false]
        split <;> rfl

/-- What follows the opening bracket of a container and blanks: its end, or entries. -/
def insideOf (close : UInt8) (entries finish : Cursor → Except Error β) (c : Cursor) :
    Except Error β :=
  match c.next? with
  | none => entries c
  | some r => if r.value = close then finish r.rest else entries c

theorem andThen_container (entry : (c : Cursor) → Except Error (Read c.size α)) (close : UInt8)
    (fault : Fault) (c : Cursor) (next : List α → Cursor → Except Error β) :
    andThen (container entry close fault c) next =
      insideOf close (fun c => andThen (entries entry close fault c) next) (next [])
        c.skipBlanks := by
  unfold container insideOf
  dsimp only
  cases c.skipBlanks.next? with
  | none => exact andThen_widen _ _ _ _
  | some r =>
    obtain ⟨b, c₁, h₁⟩ := r
    dsimp only
    split
    · rfl
    · exact andThen_widen _ _ _ _

/-- What follows the key of a member and blanks. -/
def behindKey (value : Cursor → Except Error β) (c : Cursor) : Except Error β :=
  match c.next? with
  | none => c.fail .expectedColon
  | some r => if r.value = ':' then value r.rest else c.fail .expectedColon

theorem andThen_member (read : ValueReader) (c : Cursor)
    (next : Bytes × Value → Cursor → Except Error β) :
    andThen (member read c) next = andThen (quoted .expectedKey c.skipBlanks) fun key c =>
      behindKey (fun c => andThen (read c) fun v => next (key, v)) c.skipBlanks := by
  unfold member
  cases quoted .expectedKey c.skipBlanks with
  | error e => rfl
  | ok key =>
    obtain ⟨key, c₁, h₁⟩ := key
    rw [andThen_ok, behindKey]
    dsimp only
    cases c₁.skipBlanks.next? with
    | none => rfl
    | some r =>
      obtain ⟨b, c₂, h₂⟩ := r
      by_cases colon : b = ':'
      · simp only [colon, if_true, andThen_widen]
      · simp only [colon, if_false]
        rfl

/-! ### Strings -/

theorem andThen_quoted (fault : Fault) (rest : Bytes) (l k : Nat)
    (next : Bytes → Cursor → Except Error β) :
    andThen (quoted fault ⟨'"' :: rest, l, k⟩) next =
      andThen (stringBody (Cursor.past ⟨'"' :: rest, l, k⟩ '"' rest)) next :=
  andThen_widen _ _ _ _

/-- The rest of a string, from a byte of it on. -/
theorem andThen_stringBody (b : UInt8) (rest : Bytes) (l k : Nat)
    (next : Bytes → Cursor → Except Error β) :
    let c := Cursor.past ⟨b :: rest, l, k⟩ b rest
    andThen (stringBody ⟨b :: rest, l, k⟩) next =
      if b = '"' then next [] c
      else if b < 0x20 then c.fail .controlCharacter
      else if b = '\\' then
        andThen (escaped c) fun bytes c => andThen (stringBody c) fun more => next (bytes ++ more)
      else andThen (stringBody c) fun more => next (b :: more) := by
  dsimp only
  rw [stringBody]
  dsimp only [Cursor.next?]
  split
  · rfl
  split
  · rfl
  split
  · cases escaped (Cursor.past ⟨b :: rest, l, k⟩ b rest) with
    | error e => rfl
    | ok r => exact andThen_widen _ _ _ _
  · exact andThen_widen _ _ _ _

theorem andThen_escaped (b : UInt8) (rest : Bytes) (l k : Nat)
    (next : Bytes → Cursor → Except Error β) :
    let c := Cursor.past ⟨b :: rest, l, k⟩ b rest
    andThen (escaped ⟨b :: rest, l, k⟩) next =
      match simpleEscape? b with
      | some byte => next [byte] c
      | none =>
        if b = 'u' then andThen (hexNumber 4 0 c) fun n => next (Bytes.utf8 n)
        else c.fail (.invalidEscape b) := by
  dsimp only
  rw [escaped]
  dsimp only [Cursor.next?]
  cases simpleEscape? b with
  | some byte => rfl
  | none =>
    dsimp only
    split
    · exact andThen_widen _ _ _ _
    · rfl

theorem andThen_hexNumber (digits n : Nat) (b : UInt8) (rest : Bytes) (l k : Nat)
    (next : Nat → Cursor → Except Error β) :
    let c := Cursor.past ⟨b :: rest, l, k⟩ b rest
    andThen (hexNumber (digits + 1) n ⟨b :: rest, l, k⟩) next =
      match Bytes.hexDigit? b with
      | none => c.fail .invalidUnicodeEscape
      | some d => andThen (hexNumber digits (n * 16 + d) c) next := by
  dsimp only
  rw [hexNumber]
  dsimp only [Cursor.next?]
  cases Bytes.hexDigit? b with
  | none => rfl
  | some d => exact andThen_widen _ _ _ _

/-! ### Numbers -/

/-- The digits that are next, behind those of `run`. -/
def digitsFrom (run : Bytes) (fault : Fault) (next : Bytes → Cursor → Except Error β) (c : Cursor) :
    Except Error β :=
  let more := c.rest.takeWhile Bytes.isDigit
  if run ++ more = [] then c.fail fault else next (run ++ more) (c.skip more.length)

theorem andThen_digits (fault : Fault) (c : Cursor) (next : Bytes → Cursor → Except Error β) :
    andThen (digits fault c) next = digitsFrom [] fault next c := by
  unfold digits digitsFrom
  dsimp only
  split
  · rename_i none
    rw [List.nil_append, if_pos none]
    rfl
  · rename_i some
    rw [List.nil_append, if_neg some]
    rfl

theorem Cursor.past_digit {b : UInt8} (rest : Bytes) (l k : Nat) (h : Bytes.isDigit b) :
    Cursor.past ⟨b :: rest, l, k⟩ b rest = ⟨rest, l, k + 1⟩ := by
  have solid : b ≠ '\n' := by
    rintro rfl
    exact absurd h (by decide)
  exact if_neg solid

theorem digitsFrom_digit {b : UInt8} (run : Bytes) (fault : Fault) (rest : Bytes) (l k : Nat)
    (next : Bytes → Cursor → Except Error β) (h : Bytes.isDigit b) :
    digitsFrom run fault next ⟨b :: rest, l, k⟩ =
      digitsFrom (run ++ [b]) fault next (Cursor.past ⟨b :: rest, l, k⟩ b rest) := by
  rw [Cursor.past_digit rest l k h]
  unfold digitsFrom
  dsimp only
  rw [List.takeWhile_cons_of_pos h, List.append_assoc, List.singleton_append]
  simp [Cursor.skip, Nat.add_assoc, Nat.add_comm 1]

theorem digitsFrom_end {c : Cursor} (run : Bytes) (fault : Fault)
    (next : Bytes → Cursor → Except Error β) (h : ∀ b ∈ c.rest.head?, ¬ Bytes.isDigit b) :
    digitsFrom run fault next c = if run = [] then c.fail fault else next run c := by
  have none : c.rest.takeWhile Bytes.isDigit = [] := by
    cases hr : c.rest with
    | nil => rfl
    | cons b rest => exact List.takeWhile_cons_of_neg (h b (by simp [hr]))
  unfold digitsFrom
  dsimp only
  rw [none, List.append_nil]
  rfl

/-- The exponent of a number, if its mark is next. -/
theorem andThen_exponentPart (c : Cursor) (next : Option Int → Cursor → Except Error β) :
    andThen (exponentPart c) next =
      if sees c ['e', 'E'] then
        digitsFrom [] .expectedExponent
          (fun run => next (some (if sees (c.skip 1) ['-'] then -(Bytes.readDecimal run : Int)
            else Bytes.readDecimal run)))
          (optional (c.skip 1) ['+', '-'])
      else next none c := by
  unfold exponentPart
  split
  · rw [andThen_widen, andThen_digits]
    rfl
  · rfl

theorem andThen_fractionPart (c : Cursor) (next : Option Bytes → Cursor → Except Error β) :
    andThen (fractionPart c) next =
      if sees c ['.'] then digitsFrom [] .expectedFraction (fun run => next (some run)) (c.skip 1)
      else next none c := by
  unfold fractionPart
  split
  · rw [andThen_widen, andThen_digits]
  · rfl

theorem andThen_number (c : Cursor) (next : Value → Cursor → Except Error β) :
    andThen (number c) next =
      digitsFrom [] .invalidNumber (fun whole c₁ => andThen (fractionPart c₁) fun fraction c₂ =>
        andThen (exponentPart c₂) fun exponent =>
          next (Numeral.toValue ⟨sees c ['-'], whole, fraction, exponent⟩))
        (optional c ['-']) := by
  rw [← andThen_digits]
  unfold number
  cases digits .invalidNumber (optional c ['-']) with
  | error e => rfl
  | ok whole =>
    obtain ⟨whole, c₁, h₁⟩ := whole
    rw [andThen_ok]
    dsimp only
    cases fractionPart c₁ with
    | error e => rfl
    | ok fraction => exact andThen_widen _ _ _ _

/-! ### Values from their first byte on -/

/-- What follows the opening bracket of a container, where there is a reader for what it holds. -/
def behindBracket (nested : Option ValueReader) (c : Cursor)
    (inside : ValueReader → Except Error β) : Except Error β :=
  match nested with
  | none => c.fail .tooDeep
  | some value => inside value

theorem andThen_valueHere (nested : Option ValueReader) (b : UInt8) (rest : Bytes) (l k : Nat)
    (next : Value → Cursor → Except Error β) :
    let c : Cursor := ⟨b :: rest, l, k⟩
    let behind := c.past b rest
    andThen (valueHere nested c) next =
      if b = '\x7b' then
        behindBracket nested c fun value =>
          andThen (container (member value) '\x7d' .expectedMemberEnd behind) fun members =>
            next (.ofMembers members)
      else if b = '[' then
        behindBracket nested c fun value =>
          andThen (container value ']' .expectedItemEnd behind) fun items => next (.array items)
      else if b = '"' then andThen (stringBody behind) fun bytes => next (.string bytes)
      else if b = '-' || Bytes.isDigit b then andThen (number c) next
      else
        match words.find? fun w => w.1 == b && w.2.1.isPrefixOf rest with
        | none => c.fail (.unexpected b)
        | some w => next w.2.2 (behind.skip w.2.1.length) := by
  dsimp only
  unfold valueHere
  dsimp only [Cursor.next?]
  split
  · cases nested with
    | none => rfl
    | some value => exact andThen_widen _ _ _ _
  split
  · cases nested with
    | none => rfl
    | some value => exact andThen_widen _ _ _ _
  split
  · rename_i quote
    subst quote
    rw [andThen_widen, andThen_quoted]
  split
  · rfl
  · unfold word
    rw [Cursor.rest_past]
    cases words.find? fun w => w.1 == b && w.2.1.isPrefixOf rest with
    | none => rfl
    | some w => rfl

end Values

end CallAtlas.Json
