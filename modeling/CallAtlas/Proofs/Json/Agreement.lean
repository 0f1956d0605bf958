import CallAtlas.Proofs.Json.Counters
import CallAtlas.Proofs.Json.Reads

/-! # The machine reads what the reader reads

A state of the machine has an answer: what the reader makes of the text that is ahead, and of what
the state keeps. The answer of the first state is what the reader makes of the whole text, no step
changes it, and a run ends with it. So what is known of the machine holds of the reader: each of its
errors is about a place of the text.
-/
namespace CallAtlas.Json

namespace Machine

/-! ### Answers -/

/-- The reader's cursor at a place of the machine. -/
def Place.cursor (t : Bytes) (p : Place) : Cursor := ⟨t.drop p.offset, p.line, p.column⟩

/-- What the reader makes of more entries of a container that has `depth` containers around it. -/
def entriesFrom (depth : Nat) (next : Value → Cursor → Except Error Value) (c : Cursor) :
    Container → Except Error Value
  | .array items =>
    andThen (entries (value (maxDepth - (depth + 1))) ']' .expectedItemEnd c) fun more =>
      next (.array (items ++ more))
  | .object members =>
    andThen (entries (member (value (maxDepth - (depth + 1)))) '\x7d' .expectedMemberEnd c)
      fun more => next (.ofMembers (members ++ more))

/-- What it makes of what follows an entry and blanks. -/
def fromNext (depth : Nat) (next : Value → Cursor → Except Error Value) (container : Container) :
    Cursor → Except Error Value :=
  behindEntry container.close container.fault (entriesFrom depth next · container)
    (next container.value)

/-- What it makes of what follows an opening bracket and blanks. -/
def fromFirst (depth : Nat) (next : Value → Cursor → Except Error Value) (container : Container) :
    Cursor → Except Error Value :=
  insideOf container.close (entriesFrom depth next · container) (next container.value)

/-- What it makes of what follows a value in the containers around it. -/
def resume : List Context → Value → Cursor → Except Error Value
  | [], v, c =>
    if c.skipBlanks.rest.isEmpty then .ok v else c.skipBlanks.fail .trailingContent
  | context :: outer, v, c => fromNext outer.length (resume outer) (context.put v) c.skipBlanks

/-- What it makes of what follows a key and blanks. -/
def fromColon (outer : List Context) (members : List (Bytes × Value)) (key : Bytes) :
    Cursor → Except Error Value :=
  behindKey fun c =>
    andThen (value (maxDepth - (outer.length + 1)) c) (resume (.member members key :: outer))

/-- What it makes of what follows a string. -/
def fromString (outer : List Context) (bytes : Bytes) (c : Cursor) : Role → Except Error Value
  | .value => resume outer (.string bytes) c
  | .key members => fromColon outer members bytes c.skipBlanks

/-- What it makes of the exponent of a number, from its mark on. -/
def fromMark (outer : List Context) (n : Numeral) (c : Cursor) : Except Error Value :=
  andThen (exponentPart c) fun exponent =>
    resume outer { n with exponent := exponent.or n.exponent }.toValue

/-- What it makes of the digits of an exponent. -/
def fromExponent (outer : List Context) (n : Numeral) (negative : Bool) (run : Bytes) :
    Cursor → Except Error Value :=
  digitsFrom run .expectedExponent fun run =>
    resume outer { n with exponent := some (if negative then -(Bytes.readDecimal run : Int)
      else Bytes.readDecimal run) }.toValue

def fromFraction (outer : List Context) (n : Numeral) (run : Bytes) :
    Cursor → Except Error Value :=
  digitsFrom run .expectedFraction fun run => fromMark outer { n with fraction := some run }

def fromWhole (outer : List Context) (negative : Bool) (run : Bytes) :
    Cursor → Except Error Value :=
  digitsFrom run .invalidNumber fun whole c => andThen (fractionPart c) fun fraction =>
    fromMark outer ⟨negative, whole, fraction, none⟩

/-- The answer of a state. -/
def State.answer (t : Bytes) (s : State) : Except Error Value :=
  let c := s.place.cursor t
  match s.task with
  | .start =>
    if c.skipBlanks.rest.isEmpty then c.skipBlanks.fail .emptyInput
    else andThen (value (maxDepth - s.outer.length) c.skipBlanks) (resume s.outer)
  | .value => andThen (value (maxDepth - s.outer.length) c) (resume s.outer)
  | .opened container =>
    if maxDepth < s.depth then c.fail .tooDeep
    else
      -- the bracket is not looked at again
      let behind := c.past (s.place.peek t) c.rest.tail
      fromFirst s.outer.length (resume s.outer) container behind.skipBlanks
  | .first container => fromFirst s.outer.length (resume s.outer) container c.skipBlanks
  | .key members =>
    andThen (quoted .expectedKey c.skipBlanks) fun key c => fromString s.outer key c (.key members)
  | .colon members key => fromColon s.outer members key c.skipBlanks
  | .next container => fromNext s.outer.length (resume s.outer) container c.skipBlanks
  | .string role bytes =>
    andThen (stringBody c) fun more c => fromString s.outer (bytes ++ more) c role
  | .escape role bytes =>
    andThen (escaped c) fun unit c => andThen (stringBody c) fun more c =>
      fromString s.outer (bytes ++ (unit ++ more)) c role
  | .unicode role bytes digits n =>
    andThen (hexNumber digits n c) fun n c => andThen (stringBody c) fun more c =>
      fromString s.outer (bytes ++ (Bytes.utf8 n ++ more)) c role
  | .word rest v => resume s.outer v (c.skip rest.length)
  | .whole negative run => fromWhole s.outer negative run c
  | .fraction n run => fromFraction s.outer n run c
  | .mark n => fromMark s.outer n c
  | .sign n => fromExponent s.outer n (sees c ['-']) [] (optional c ['+', '-'])
  | .exponent n negative run => fromExponent s.outer n negative run c
  | .done v => resume [] v c

/-- The answer of an outcome. A byte that is not there has none. -/
def Outcome.Answers (t : Bytes) (answer : Except Error Value) : Outcome → Prop
  | .on s => s.answer t = answer
  | .finished v => .ok v = answer
  | .failed e => .error e = answer
  | .overrun => False

/-! ### Views of a place -/

namespace Place

variable {t : Bytes} {p : Place}

/-- What is seen at the end of a text. -/
structure AtEnd (t : Bytes) (p : Place) : Prop where
  peek_eq : p.peek t = 0
  atEnd_eq : p.atEnd t = true
  cursor_eq : p.cursor t = ⟨[], p.line, p.column⟩

/-- What is seen at a byte of a text. -/
structure AtByte (t : Bytes) (p : Place) (b : UInt8) (rest : Bytes) : Prop where
  peek_eq : p.peek t = b
  atEnd_eq : p.atEnd t = false
  byte_eq : t[p.offset]? = some b
  drop_eq : t.drop p.offset = b :: rest
  cursor_eq : p.cursor t = ⟨b :: rest, p.line, p.column⟩
  past_eq : (p.past b).cursor t = Cursor.past ⟨b :: rest, p.line, p.column⟩ b rest

theorem atEnd_of_drop (h : t.drop p.offset = []) : p.AtEnd t where
  peek_eq := by
    rw [peek, List.getD_eq_getElem?_getD, List.getElem?_eq_none (List.drop_eq_nil_iff.mp h)]
    rfl
  atEnd_eq := decide_eq_true (List.drop_eq_nil_iff.mp h)
  cursor_eq := by rw [cursor, h]

theorem atByte_of_drop {b : UInt8} {rest : Bytes} (h : t.drop p.offset = b :: rest) :
    p.AtByte t b rest := by
  have byte : t[p.offset]? = some b := by rw [← List.head?_drop, h, List.head?_cons]
  obtain ⟨inside, -⟩ := List.getElem?_eq_some_iff.mp byte
  constructor
  · rw [peek, List.getD_eq_getElem?_getD, byte]
    rfl
  · exact decide_eq_false (Nat.not_le_of_lt inside)
  · exact byte
  · exact h
  · rw [cursor, h]
  · have behind : t.drop (p.offset + 1) = rest := by
      rw [← List.drop_drop, h]
      rfl
    unfold cursor Cursor.past
    rw [offset_past, behind, past]
    split <;> rfl

theorem atEnd_or_atByte (t : Bytes) (p : Place) : p.AtEnd t ∨ ∃ b rest, p.AtByte t b rest := by
  cases h : t.drop p.offset with
  | nil => exact .inl (atEnd_of_drop h)
  | cons b rest => exact .inr ⟨b, rest, atByte_of_drop h⟩

end Place

section Steps

variable {t : Bytes} {a : Except Error Value}

theorem answers_take {place : Place} {depth : Nat} {outer : List Context} {task : Task} {b : UInt8}
    {rest : Bytes} (h : place.AtByte t b rest) {next : UInt8 → State → Outcome}
    (hn : (next b ⟨place.past b, depth, outer, task⟩).Answers t a) :
    (State.take ⟨place, depth, outer, task⟩ t next).Answers t a := by
  unfold State.take
  rw [h.byte_eq]
  exact hn

theorem answers_deliver (s : State) (v : Value) :
    (s.deliver v).Answers t (resume s.outer v (s.place.cursor t)) := by
  obtain ⟨place, depth, outer, task⟩ := s
  cases outer <;> rfl

theorem answers_endString (s : State) (bytes : Bytes) (role : Role) :
    (s.endString bytes role).Answers t (fromString s.outer bytes (s.place.cursor t) role) := by
  cases role with
  | value => exact answers_deliver s _
  | key members => rfl

/-- An item is followed by what is kept while it is read: the items before it in its array, and what
is around the array. -/
theorem entriesFrom_array (outer : List Context) (items : List Value) (c : Cursor) :
    entriesFrom outer.length (resume outer) c (.array items) =
      andThen (value (maxDepth - (outer.length + 1)) c) (resume (.item items :: outer)) := by
  rw [entriesFrom, andThen_entries]
  congr 1
  funext v c
  unfold resume fromNext
  congr 1
  funext c
  simp [entriesFrom, Context.put]

theorem entriesFrom_object (outer : List Context) (members : List (Bytes × Value)) (c : Cursor) :
    entriesFrom outer.length (resume outer) c (.object members) =
      andThen (quoted .expectedKey c.skipBlanks) fun key c =>
        fromString outer key c (.key members) := by
  rw [entriesFrom, andThen_entries, andThen_member]
  congr 1
  funext key c
  unfold fromString fromColon
  congr 1
  funext c
  congr 1
  funext v c
  unfold resume fromNext
  congr 1
  funext c
  simp [entriesFrom, Context.put]

theorem answers_entry (s : State) (container : Container) :
    (s.entry container).Answers t
      (entriesFrom s.outer.length (resume s.outer) (s.place.cursor t) container) := by
  cases container with
  | array items => exact (entriesFrom_array s.outer items _).symm
  | object members => exact (entriesFrom_object s.outer members _).symm

end Steps

/-! ### One step -/

section Tasks

variable {t : Bytes} {place : Place} {depth : Nat} {outer : List Context}

/-- The tasks that may have blanks before them: their answer is one about the next byte that is no
blank. -/
theorem answers_pastBlanks {task : Task} {behind : Outcome} {f : Cursor → Except Error Value}
    (hf : ∀ p, State.answer t ⟨p, depth, outer, task⟩ = f (p.cursor t).skipBlanks)
    (hb : behind.Answers t (f (place.cursor t))) :
    (if Cursor.isBlank (place.peek t) then State.takeTo ⟨place, depth, outer, task⟩ t task
      else behind).Answers t (State.answer t ⟨place, depth, outer, task⟩) := by
  rw [hf]
  rcases place.atEnd_or_atByte t with ended | ⟨b, rest, byte⟩
  · rw [ended.peek_eq, if_neg (by decide), ended.cursor_eq, Cursor.skipBlanks_nil,
      ← ended.cursor_eq]
    exact hb
  · rw [byte.peek_eq]
    split
    · rename_i blank
      rw [byte.cursor_eq, Cursor.skipBlanks_blank rest _ _ blank, ← byte.past_eq]
      exact answers_take byte (hf _)
    · rename_i solid
      rw [byte.cursor_eq, Cursor.skipBlanks_solid rest _ _ solid, ← byte.cursor_eq]
      exact hb

theorem answers_start :
    (step t ⟨place, depth, outer, .start⟩).Answers t
      (State.answer t ⟨place, depth, outer, .start⟩) := by
  refine answers_pastBlanks (f := fun c => if c.rest.isEmpty then c.fail .emptyInput
    else andThen (value (maxDepth - outer.length) c) (resume outer)) (fun _ => rfl) ?_
  dsimp only
  rcases place.atEnd_or_atByte t with ended | ⟨b, rest, byte⟩
  · rw [ended.atEnd_eq, ended.cursor_eq]
    rfl
  · have solid : (place.cursor t).rest.isEmpty = false := by rw [byte.cursor_eq]; rfl
    rw [byte.atEnd_eq, solid]
    rfl

theorem answers_done (v : Value) :
    (step t ⟨place, depth, outer, .done v⟩).Answers t
      (State.answer t ⟨place, depth, outer, .done v⟩) := by
  refine answers_pastBlanks (f := fun c => if c.rest.isEmpty then .ok v
    else c.fail .trailingContent) (fun _ => rfl) ?_
  dsimp only
  rcases place.atEnd_or_atByte t with ended | ⟨b, rest, byte⟩
  · rw [ended.atEnd_eq, ended.cursor_eq]
    rfl
  · rw [byte.atEnd_eq, byte.cursor_eq]
    rfl

theorem answers_first (container : Container) :
    (step t ⟨place, depth, outer, .first container⟩).Answers t
      (State.answer t ⟨place, depth, outer, .first container⟩) := by
  refine answers_pastBlanks (f := fromFirst outer.length (resume outer) container)
    (fun _ => rfl) ?_
  have entry := answers_entry (t := t) ⟨place, depth, outer, .first container⟩ container
  rcases place.atEnd_or_atByte t with ended | ⟨b, rest, byte⟩
  · rw [ended.peek_eq, if_neg container.close_ne_zero.symm, ended.cursor_eq]
    rw [ended.cursor_eq] at entry
    exact entry
  · rw [byte.peek_eq, byte.cursor_eq]
    rw [byte.cursor_eq] at entry
    unfold fromFirst insideOf
    dsimp only [Cursor.next?]
    split
    · rw [← byte.past_eq]
      exact answers_take byte (answers_deliver _ _)
    · exact entry

theorem answers_next (container : Container) :
    (step t ⟨place, depth, outer, .next container⟩).Answers t
      (State.answer t ⟨place, depth, outer, .next container⟩) := by
  refine answers_pastBlanks (f := fromNext outer.length (resume outer) container)
    (fun _ => rfl) ?_
  unfold fromNext behindEntry
  rcases place.atEnd_or_atByte t with ended | ⟨b, rest, byte⟩
  · rw [ended.peek_eq, if_neg (by decide), if_neg container.close_ne_zero.symm, ended.cursor_eq]
    rfl
  · rw [byte.peek_eq, byte.cursor_eq]
    dsimp only [Cursor.next?]
    split
    · rw [← byte.past_eq]
      exact answers_take byte (answers_entry _ container)
    split
    · rw [← byte.past_eq]
      exact answers_take byte (answers_deliver _ _)
    · rfl

theorem answers_key (members : List (Bytes × Value)) :
    (step t ⟨place, depth, outer, .key members⟩).Answers t
      (State.answer t ⟨place, depth, outer, .key members⟩) := by
  refine answers_pastBlanks (f := fun c => andThen (quoted .expectedKey c) fun key c =>
    fromString outer key c (.key members)) (fun _ => rfl) ?_
  dsimp only
  rcases place.atEnd_or_atByte t with ended | ⟨b, rest, byte⟩
  · rw [ended.peek_eq, if_neg (by decide), ended.cursor_eq]
    rfl
  · rw [byte.peek_eq, byte.cursor_eq]
    split
    · rename_i quote
      subst quote
      rw [andThen_quoted, ← byte.past_eq]
      exact answers_take byte rfl
    · rename_i other
      have refused : quoted .expectedKey ⟨b :: rest, place.line, place.column⟩ =
          Cursor.fail ⟨b :: rest, place.line, place.column⟩ .expectedKey := if_neg other
      rw [refused]
      rfl

theorem answers_colon (members : List (Bytes × Value)) (key : Bytes) :
    (step t ⟨place, depth, outer, .colon members key⟩).Answers t
      (State.answer t ⟨place, depth, outer, .colon members key⟩) := by
  refine answers_pastBlanks (f := fromColon outer members key) (fun _ => rfl) ?_
  unfold fromColon behindKey
  rcases place.atEnd_or_atByte t with ended | ⟨b, rest, byte⟩
  · rw [ended.peek_eq, if_neg (by decide), ended.cursor_eq]
    rfl
  · rw [byte.peek_eq, byte.cursor_eq]
    dsimp only [Cursor.next?]
    split
    · rw [← byte.past_eq]
      exact answers_take byte rfl
    · rfl

theorem answers_opened (container : Container) (there : t.drop place.offset ≠ []) :
    (step t ⟨place, depth, outer, .opened container⟩).Answers t
      (State.answer t ⟨place, depth, outer, .opened container⟩) := by
  obtain ⟨b, rest, drop⟩ := List.exists_cons_of_ne_nil there
  have byte := Place.atByte_of_drop drop
  unfold step State.answer
  dsimp only
  split
  · rfl
  · rw [byte.peek_eq, byte.cursor_eq]
    dsimp only [List.tail_cons]
    rw [← byte.past_eq]
    exact answers_take byte rfl

/-! ### Strings -/

/-- The tasks inside of a string: at the end of the text they fail, and else they take a byte. -/
theorem answers_inString {task : Task} {fault : Fault} {next : UInt8 → State → Outcome}
    {f : Cursor → Except Error Value} (hf : ∀ l k, f ⟨[], l, k⟩ = Cursor.fail ⟨[], l, k⟩ fault)
    (hn : ∀ b rest, place.AtByte t b rest →
      (next b ⟨place.past b, depth, outer, task⟩).Answers t
        (f ⟨b :: rest, place.line, place.column⟩)) :
    (if place.atEnd t then State.fail ⟨place, depth, outer, task⟩ fault
      else State.take ⟨place, depth, outer, task⟩ t next).Answers t (f (place.cursor t)) := by
  rcases place.atEnd_or_atByte t with ended | ⟨b, rest, byte⟩
  · rw [ended.atEnd_eq, if_pos rfl, ended.cursor_eq, hf]
    rfl
  · rw [byte.atEnd_eq, if_neg Bool.false_ne_true, byte.cursor_eq]
    exact answers_take byte (hn b rest byte)

theorem answers_string (role : Role) (bytes : Bytes) :
    (step t ⟨place, depth, outer, .string role bytes⟩).Answers t
      (State.answer t ⟨place, depth, outer, .string role bytes⟩) := by
  refine answers_inString (f := fun c => andThen (stringBody c) fun more c =>
    fromString outer (bytes ++ more) c role) (fun l k => ?_) fun b rest byte => ?_
  · rw [stringBody]
    rfl
  · dsimp only
    rw [andThen_stringBody, ← byte.past_eq]
    split
    · rw [List.append_nil]
      exact answers_endString _ bytes role
    split
    · rfl
    split
    · rfl
    · simp only [State.goTo, Outcome.Answers, State.answer, List.append_assoc,
        List.singleton_append]

theorem answers_escape (role : Role) (bytes : Bytes) :
    (step t ⟨place, depth, outer, .escape role bytes⟩).Answers t
      (State.answer t ⟨place, depth, outer, .escape role bytes⟩) := by
  refine answers_inString (f := fun c => andThen (escaped c) fun unit c =>
    andThen (stringBody c) fun more c => fromString outer (bytes ++ (unit ++ more)) c role)
    (fun l k => rfl) fun b rest byte => ?_
  dsimp only
  rw [andThen_escaped, ← byte.past_eq]
  cases simpleEscape? b with
  | some byte =>
    simp only [← List.append_assoc]
    rfl
  | none =>
    dsimp only
    split
    · rfl
    · rfl

theorem answers_unicode (role : Role) (bytes : Bytes) (digits n : Nat) :
    (step t ⟨place, depth, outer, .unicode role bytes digits n⟩).Answers t
      (State.answer t ⟨place, depth, outer, .unicode role bytes digits n⟩) := by
  cases digits with
  | zero =>
    simp only [step, State.answer, hexNumber, andThen_ok, ← List.append_assoc]
    rfl
  | succ digits =>
    refine answers_inString (f := fun c => andThen (hexNumber (digits + 1) n c) fun n c =>
      andThen (stringBody c) fun more c =>
        fromString outer (bytes ++ (Bytes.utf8 n ++ more)) c role)
      (fun l k => rfl) fun b rest byte => ?_
    dsimp only
    rw [andThen_hexNumber, ← byte.past_eq]
    cases Bytes.hexDigit? b with
    | none => rfl
    | some d => rfl

/-! ### Words and numbers -/

theorem sees_end (ended : place.AtEnd t) (choices : Bytes) :
    sees (place.cursor t) choices = false := by
  rw [ended.cursor_eq]
  rfl

theorem sees_cursor {b : UInt8} {rest : Bytes} (byte : place.AtByte t b rest) (choices : Bytes) :
    sees (place.cursor t) choices = choices.contains b := by
  rw [byte.cursor_eq]
  exact sees_cons rfl choices

theorem skip_cursor {b : UInt8} {rest : Bytes} (byte : place.AtByte t b rest) (solid : b ≠ '\n') :
    (place.cursor t).skip 1 = (place.past b).cursor t := by
  rw [byte.past_eq, byte.cursor_eq]
  exact (if_neg solid).symm

theorem skip_past {b : UInt8} {rest : Bytes} (byte : place.AtByte t b rest) (solid : b ≠ '\n')
    (n : Nat) : ((place.past b).cursor t).skip n = (place.cursor t).skip (n + 1) := by
  rw [← skip_cursor byte solid, Cursor.skip_skip, Nat.add_comm]

theorem answers_word (bytes : Bytes) (v : Value)
    (ready : (Task.word bytes v).Ready (t.drop place.offset)) :
    (step t ⟨place, depth, outer, .word bytes v⟩).Answers t
      (State.answer t ⟨place, depth, outer, .word bytes v⟩) := by
  cases bytes with
  | nil => exact answers_deliver _ v
  | cons b bytes =>
    obtain ⟨⟨rest, there⟩, solid⟩ := ready
    have byte : place.AtByte t b (bytes ++ rest) := Place.atByte_of_drop there.symm
    have further := skip_past byte (List.ne_of_not_mem_cons solid).symm bytes.length
    have same : State.answer t ⟨place.past b, depth, outer, .word bytes v⟩ =
        State.answer t ⟨place, depth, outer, .word (b :: bytes) v⟩ :=
      congrArg (resume outer v) further
    unfold step State.takeTo
    exact answers_take byte same

/-- The tasks inside of a run of digits. -/
theorem answers_digits {task : Task} (again : Bytes → Task) (run : Bytes) (fault : Fault)
    {behind : Outcome} {f : Bytes → Cursor → Except Error Value}
    (hf : ∀ p run, State.answer t ⟨p, depth, outer, again run⟩ =
      digitsFrom run fault f (p.cursor t))
    (hb : behind.Answers t (f run (place.cursor t))) :
    (if Bytes.isDigit (place.peek t) then
        State.takeTo ⟨place, depth, outer, task⟩ t (again (run ++ [place.peek t]))
      else if run = [] then State.fail ⟨place, depth, outer, task⟩ fault
      else behind).Answers t (State.answer t ⟨place, depth, outer, again run⟩) := by
  rw [hf]
  have finish (other : ∀ b ∈ (place.cursor t).rest.head?, ¬ Bytes.isDigit b) :
      (if run = [] then State.fail ⟨place, depth, outer, task⟩ fault else behind).Answers t
        (digitsFrom run fault f (place.cursor t)) := by
    rw [digitsFrom_end run fault f other]
    split
    · rfl
    · exact hb
  rcases place.atEnd_or_atByte t with ended | ⟨b, rest, byte⟩
  · rw [ended.peek_eq, if_neg (by decide)]
    exact finish (by simp [ended.cursor_eq])
  · rw [byte.peek_eq]
    split
    · rename_i digit
      rw [byte.cursor_eq, digitsFrom_digit run fault rest _ _ f digit, ← byte.past_eq]
      exact answers_take byte (hf _ _)
    · rename_i other
      exact finish (by simpa [byte.cursor_eq] using other)

theorem answers_whole (negative : Bool) (run : Bytes) :
    (step t ⟨place, depth, outer, .whole negative run⟩).Answers t
      (State.answer t ⟨place, depth, outer, .whole negative run⟩) := by
  refine answers_digits (.whole negative) run .invalidNumber (f := fun whole c =>
    andThen (fractionPart c) fun fraction => fromMark outer ⟨negative, whole, fraction, none⟩)
    (fun _ _ => rfl) ?_
  dsimp only
  rw [andThen_fractionPart]
  rcases place.atEnd_or_atByte t with ended | ⟨b, rest, byte⟩
  · rw [ended.peek_eq, sees_end ended]
    rfl
  · rw [byte.peek_eq, sees_cursor byte]
    by_cases point : b = '.'
    · subst point
      rw [if_pos rfl, if_pos (by decide), skip_cursor byte (by decide)]
      exact answers_take byte rfl
    · rw [if_neg point, if_neg (by simpa using point)]
      rfl

theorem answers_fraction (n : Numeral) (run : Bytes) :
    (step t ⟨place, depth, outer, .fraction n run⟩).Answers t
      (State.answer t ⟨place, depth, outer, .fraction n run⟩) :=
  answers_digits (.fraction n) run .expectedFraction
    (f := fun run => fromMark outer { n with fraction := some run }) (fun _ _ => rfl) rfl

theorem answers_mark (n : Numeral) :
    (step t ⟨place, depth, outer, .mark n⟩).Answers t
      (State.answer t ⟨place, depth, outer, .mark n⟩) := by
  have absent : (State.deliver ⟨place, depth, outer, .mark n⟩ n.toValue).Answers t
      (resume outer n.toValue (place.cursor t)) := answers_deliver _ _
  unfold step State.answer fromMark
  dsimp only
  rw [andThen_exponentPart]
  rcases place.atEnd_or_atByte t with ended | ⟨b, rest, byte⟩
  · rw [ended.peek_eq, sees_end ended]
    exact absent
  · rw [byte.peek_eq, sees_cursor byte]
    by_cases mark : b = 'e' ∨ b = 'E'
    · have solid : b ≠ '\n' := by
        rintro rfl
        exact absurd mark (by decide)
      rw [if_pos mark, if_pos (by simpa using mark), skip_cursor byte solid]
      exact answers_take byte rfl
    · rw [if_neg mark, if_neg (by simpa using mark)]
      exact absent

theorem answers_sign (n : Numeral) :
    (step t ⟨place, depth, outer, .sign n⟩).Answers t
      (State.answer t ⟨place, depth, outer, .sign n⟩) := by
  unfold step State.answer optional
  dsimp only
  rcases place.atEnd_or_atByte t with ended | ⟨b, rest, byte⟩
  · rw [ended.peek_eq, sees_end ended, sees_end ended]
    rfl
  · rw [byte.peek_eq, sees_cursor byte, sees_cursor byte]
    by_cases sign : b = '+' ∨ b = '-'
    · have solid : b ≠ '\n' := by
        rintro rfl
        exact absurd sign (by decide)
      rw [if_pos sign, if_pos (by simpa using sign), skip_cursor byte solid]
      refine answers_take byte ?_
      rcases sign with rfl | rfl <;> rfl
    · have other : ¬ b = '-' := fun h => sign (.inr h)
      rw [if_neg sign, if_neg (by simpa using sign)]
      simp [other]
      rfl

theorem answers_exponent (n : Numeral) (negative : Bool) (run : Bytes) :
    (step t ⟨place, depth, outer, .exponent n negative run⟩).Answers t
      (State.answer t ⟨place, depth, outer, .exponent n negative run⟩) :=
  answers_digits (.exponent n negative) run .expectedExponent
    (f := fun run => resume outer { n with exponent := some (if negative then
      -(Bytes.readDecimal run : Int) else Bytes.readDecimal run) }.toValue)
    (fun _ _ => rfl) (answers_deliver _ _)

/-! ### Values -/

/-- At the limit there is no reader for what a container holds. -/
theorem behindBracket_sub {β : Type} (n : Nat) (c : Cursor)
    (inside : ValueReader → Except Error β) :
    behindBracket (nestedAt (maxDepth - n)) c inside =
      if maxDepth < n + 1 then c.fail .tooDeep else inside (value (maxDepth - (n + 1))) := by
  split
  · rename_i deep
    rw [Nat.sub_eq_zero_of_le (Nat.le_of_lt_succ deep)]
    rfl
  · rename_i shallow
    have left : maxDepth - n = maxDepth - (n + 1) + 1 := by omega
    rw [left]
    rfl

/-- The words are found in the rest behind their first byte. -/
theorem word?_cons (b : UInt8) (rest : Bytes) :
    word? (b :: rest) = (words.find? fun w => w.1 == b && w.2.1.isPrefixOf rest).map
      fun w => (w.1 :: w.2.1, w.2.2) := by
  rw [word?, List.find?_map]
  rfl

/-- A container is entered where its bracket is, which is at the limit what fails. -/
theorem answers_enter {b : UInt8} {rest : Bytes} (byte : place.AtByte t b rest)
    (container : Container) :
    (State.enter ⟨place, outer.length, outer, .value⟩ container).Answers t
      (if maxDepth < outer.length + 1 then Cursor.fail (place.cursor t) .tooDeep
        else fromFirst outer.length (resume outer) container
          ((place.past b).cursor t).skipBlanks) := by
  have tail : (place.cursor t).past b (place.cursor t).rest.tail = (place.past b).cursor t := by
    rw [byte.past_eq, byte.cursor_eq]
    rfl
  have peek := byte.peek_eq
  rw [← tail, ← peek]
  rfl

theorem andThen_number_resume (outer : List Context) (c : Cursor) :
    andThen (number c) (resume outer) =
      fromWhole outer (sees c ['-']) [] (optional c ['-']) := by
  rw [andThen_number]
  unfold fromWhole fromMark
  simp only [Option.or_none]

theorem answers_minus {rest : Bytes} (byte : place.AtByte t '-' rest) :
    (State.takeTo ⟨place, depth, outer, .value⟩ t (.whole true [])).Answers t
      (andThen (number (place.cursor t)) (resume outer)) := by
  rw [andThen_number_resume, optional, sees_cursor byte, if_pos (by decide),
    skip_cursor byte (by decide)]
  exact answers_take byte rfl

theorem answers_unsigned {b : UInt8} {rest : Bytes} (byte : place.AtByte t b rest)
    (unsigned : b ≠ '-') :
    (State.goTo ⟨place, depth, outer, .value⟩ (.whole false [])).Answers t
      (andThen (number (place.cursor t)) (resume outer)) := by
  have none : sees (place.cursor t) ['-'] = false := by
    rw [sees_cursor byte]
    simpa using unsigned
  rw [andThen_number_resume, optional, none]
  rfl

theorem answers_words {b : UInt8} {rest : Bytes} (byte : place.AtByte t b rest) :
    (match word? (b :: rest) with
      | some (word, v) => State.goTo ⟨place, depth, outer, .value⟩ (.word word v)
      | none => State.fail ⟨place, depth, outer, .value⟩ (.unexpected b)).Answers t
      (match words.find? fun (w : UInt8 × Bytes × Value) => w.1 == b && w.2.1.isPrefixOf rest with
        | none => (place.cursor t).fail (.unexpected b)
        | some w => resume outer w.2.2 (((place.past b).cursor t).skip w.2.1.length)) := by
  cases found : words.find? fun w => w.1 == b && w.2.1.isPrefixOf rest with
  | none =>
    rw [word?_cons, found, byte.cursor_eq]
    rfl
  | some w =>
    have here : word? (b :: rest) = some (w.1 :: w.2.1, w.2.2) := by
      rw [word?_cons, found]
      rfl
    -- the reader counts the columns of a word at once, so the word must hold no line feed
    obtain ⟨⟨behind, there⟩, solid⟩ := prefix_of_word? here
    rw [(List.cons.inj there).1] at solid
    rw [here]
    dsimp only
    rw [skip_past byte (List.ne_of_not_mem_cons solid).symm]
    rfl

theorem answers_value (eq : depth = outer.length) :
    (step t ⟨place, depth, outer, .value⟩).Answers t
      (State.answer t ⟨place, depth, outer, .value⟩) := by
  refine answers_pastBlanks (f := fun c =>
    andThen (valueHere (nestedAt (maxDepth - outer.length)) c) (resume outer))
    (fun _ => andThen_value _ _ _) ?_
  subst eq
  dsimp only
  rcases place.atEnd_or_atByte t with ended | ⟨b, rest, byte⟩
  · rw [ended.atEnd_eq, ended.cursor_eq]
    rfl
  rw [byte.atEnd_eq, if_neg Bool.false_ne_true, byte.peek_eq, byte.drop_eq, byte.cursor_eq,
    andThen_valueHere, ← byte.past_eq, ← byte.cursor_eq]
  -- both look at the byte in the same order; the reader takes signs and digits as one case
  split
  · rw [behindBracket_sub]
    simp only [andThen_container]
    exact answers_enter byte (.object [])
  split
  · rw [behindBracket_sub]
    simp only [andThen_container]
    exact answers_enter byte (.array [])
  split
  · exact answers_take byte rfl
  by_cases minus : b = '-'
  · subst minus
    rw [if_pos rfl, if_pos (by decide)]
    exact answers_minus byte
  rw [if_neg minus]
  by_cases digit : Bytes.isDigit b
  · rw [if_pos digit, if_pos (by simp [digit])]
    exact answers_unsigned byte minus
  · rw [if_neg digit, if_neg (by simp [digit, minus])]
    exact answers_words byte

end Tasks

/-- A step does not change the answer. -/
theorem State.Sound.answers {t : Bytes} {s : State} (h : s.Sound t) :
    (step t s).Answers t (s.answer t) := by
  obtain ⟨place, depth, outer, task⟩ := s
  have ready := h.ready
  cases task with
  | start => exact answers_start
  | value => exact answers_value h.depth_eq
  | opened container => exact answers_opened container ready
  | first container => exact answers_first container
  | key members => exact answers_key members
  | colon members key => exact answers_colon members key
  | next container => exact answers_next container
  | string role bytes => exact answers_string role bytes
  | escape role bytes => exact answers_escape role bytes
  | unicode role bytes digits n => exact answers_unicode role bytes digits n
  | word bytes v => exact answers_word bytes v ready
  | whole negative run => exact answers_whole negative run
  | fraction n run => exact answers_fraction n run
  | mark n => exact answers_mark n
  | sign n => exact answers_sign n
  | exponent n negative run => exact answers_exponent n negative run
  | done v => exact answers_done v

/-! ### Runs -/

/-- The outcome that gives a result. -/
def Outcome.ofResult : Except Error Value → Outcome
  | .ok v => .finished v
  | .error e => .failed e

theorem Outcome.eq_ofResult {t : Bytes} {answer : Except Error Value} {o : Outcome}
    (h : o.Answers t answer) (ended : ∀ s, o ≠ .on s) : o = .ofResult answer := by
  cases o with
  | on s => exact absurd rfl (ended s)
  | finished v =>
    rw [← (h : .ok v = answer)]
    rfl
  | failed e =>
    rw [← (h : .error e = answer)]
    rfl
  | overrun => exact h.elim

/-- A run with a step for each unit of the measure ends, and it ends with the answer. -/
theorem State.Sound.run_eq {t : Bytes} {s : State} (h : s.Sound t) {n : Nat}
    (enough : s.measure t < n) : run t n s = .ofResult (s.answer t) := by
  induction n generalizing s with
  | zero => omega
  | succ n ih =>
    have follows := h.follows
    have answers := h.answers
    rw [run]
    split
    · rename_i s' hstep
      rw [hstep] at follows answers
      obtain ⟨sound, ahead⟩ := follows
      -- the measure gets smaller, so the steps that are left are enough for the rest
      have nearer := ahead.measure_lt sound.counted.offset_le
      rw [ih sound (by omega)]
      exact congrArg Outcome.ofResult answers
    · rename_i ended
      exact Outcome.eq_ofResult answers ended

theorem parse_eq_answer (t : Bytes) : parse t = State.answer t {} := by
  unfold parse State.answer
  refine ite_congr rfl (fun _ => rfl) fun _ => ?_
  change _ = andThen (value maxDepth (Cursor.start t).skipBlanks) (resume [])
  cases value maxDepth (Cursor.start t).skipBlanks with
  | error e => rfl
  | ok r => rfl

end Machine

open Machine

/-- At every moment of a read the offset is in the text or at its end, the line and the column are
those of the offset, and the depth is the number of the containers that are open, at most one more
than the limit; no byte is taken where there is none. The read ends, after at most eight steps for
each byte and eight more, with the result of the reader, and an error of the reader has the line and
the column of an offset in the text. -/
theorem parse_counted (t : Bytes) :
    (∀ s, Reached t s →
      s.place.offset ≤ t.length ∧ s.place.line = t.lineAt s.place.offset ∧
        s.place.column = t.columnAt s.place.offset ∧ s.depth = s.containers ∧
        s.depth ≤ maxDepth + 1 ∧ step t s ≠ .overrun) ∧
      run t (8 * t.length + 8) {} = .ofResult (parse t) ∧
      ∀ e, parse t = .error e → Located t e := by
  have ended : run t (8 * t.length + 8) {} = .ofResult (parse t) := by
    rw [parse_eq_answer]
    exact (sound_start t).run_eq (Nat.lt_succ_self (8 * t.length + 7))
  refine ⟨fun s reached => ?_, ended, fun e failed => ?_⟩
  · have sound := reached.sound
    have counted := sound.counted
    have follows := sound.follows
    refine ⟨counted.offset_le, counted.line_eq, counted.column_eq, sound.depth_eq, ?_, ?_⟩
    · exact Nat.le_trans sound.depth_le (Nat.add_le_add_left s.task.excess_le _)
    · intro overrun
      rw [overrun] at follows
      exact follows
  · have safe := (sound_start t).safe_run (8 * t.length + 8)
    rw [ended, failed] at safe
    exact safe

end CallAtlas.Json
