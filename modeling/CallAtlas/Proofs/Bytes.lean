import CallAtlas.Bytes
import Mathlib.Data.List.DropRight

/-! # Pieces of a text

How a text is made of lines, of fields between separators, and of what stands between blanks is told
here without a word on how it is taken apart. Taking it apart finds exactly these pieces.
-/
namespace CallAtlas.Bytes

/-! ### Fields -/

theorem fields_eq_splitOn (separator : UInt8) (bs : Bytes) :
    fields separator bs = bs.splitOn separator := by
  induction bs with
  | nil => rfl
  | cons b bs ih =>
    rw [fields, List.splitOn_cons_eq_if_modifyHead, ih]
    by_cases h : b = separator
    · simp [h]
    · have hne := List.splitOn_ne_nil separator bs
      cases hs : bs.splitOn separator with
      | nil => exact absurd hs hne
      | cons field more => simp [h]

theorem join_eq_intercalate (separator : UInt8) (parts : List Bytes) :
    join separator parts = [separator].intercalate parts := by
  match parts with
  | [] => rfl
  | [part] => simp [join]
  | part :: next :: more =>
    rw [join, join_eq_intercalate separator (next :: more)]
    · simp [List.intercalate]
    · simp

theorem join_fields (separator : UInt8) (bs : Bytes) :
    join separator (fields separator bs) = bs := by
  rw [join_eq_intercalate, fields_eq_splitOn, List.intercalate_splitOn]

theorem fields_join {separator : UInt8} {parts : List Bytes}
    (h : ∀ part ∈ parts, separator ∉ part) (hne : parts ≠ []) :
    fields separator (join separator parts) = parts := by
  rw [join_eq_intercalate, fields_eq_splitOn, List.splitOn_intercalate separator h hne]

/-- No field holds the separator. -/
theorem not_mem_of_mem_fields {separator : UInt8} {bs field : Bytes}
    (h : field ∈ fields separator bs) : separator ∉ field := by
  induction bs generalizing field with
  | nil => simp_all [fields]
  | cons b bs ih =>
    rw [fields] at h
    split at h
    · rcases List.mem_cons.mp h with rfl | h
      · simp
      · exact ih h
    · rename_i hb
      cases hf : fields separator bs with
      | nil => exact absurd hf (fields_ne_nil separator bs)
      | cons first more =>
        rw [hf] at h ih
        rcases List.mem_cons.mp h with rfl | h
        · have := ih List.mem_cons_self
          simp [Ne.symm hb, this]
        · exact ih (List.mem_cons_of_mem first h)

theorem fields_of_not_mem {separator : UInt8} {bs : Bytes} (h : separator ∉ bs) :
    fields separator bs = [bs] := by
  rw [fields_eq_splitOn, List.splitOn_eq_singleton h]

theorem fields_append {separator : UInt8} {head : Bytes} (h : separator ∉ head) (tail : Bytes) :
    fields separator (head ++ separator :: tail) = head :: fields separator tail := by
  induction head with
  | nil => simp [fields]
  | cons b head ih =>
    rw [List.mem_cons, not_or] at h
    rw [List.cons_append, fields, if_neg (Ne.symm h.1), ih h.2]

/-! ### Lines -/

/-- The lines of a text. Each of them is without line feeds and ends with one, but for a last one
that is not empty, which ends with the text. -/
inductive HasLines : Bytes → List Bytes → Prop
  | none : HasLines [] []
  | last {line} : line ≠ [] → ('\n' : UInt8) ∉ line → HasLines line [line]
  | ended {line rest lines} : ('\n' : UInt8) ∉ line → HasLines rest lines →
      HasLines (line ++ ('\n' : UInt8) :: rest) (line :: lines)

theorem exists_hasLines (t : Bytes) : ∃ found, HasLines t found := by
  induction t with
  | nil => exact ⟨[], .none⟩
  | cons b t ih =>
    obtain ⟨found, ih⟩ := ih
    by_cases feed : b = ('\n' : UInt8)
    · subst feed
      exact ⟨[] :: found, .ended List.not_mem_nil ih⟩
    -- the byte is the first one of the first line behind it, or a line of its own
    have first {line : Bytes} (plain : ('\n' : UInt8) ∉ line) : ('\n' : UInt8) ∉ b :: line := by
      simp [Ne.symm feed, plain]
    cases ih with
    | none => exact ⟨[[b]], .last (List.cons_ne_nil b []) (first List.not_mem_nil)⟩
    | last _ plain => exact ⟨_, .last (List.cons_ne_nil b t) (first plain)⟩
    | ended plain rest => exact ⟨_, .ended (first plain) rest⟩

theorem lines_of_not_mem {line : Bytes} (some : line ≠ []) (plain : ('\n' : UInt8) ∉ line) :
    lines line = [line] := by
  simp [lines, fields_of_not_mem plain, some]

theorem lines_append {line : Bytes} (plain : ('\n' : UInt8) ∉ line) (rest : Bytes) :
    lines (line ++ ('\n' : UInt8) :: rest) = line :: lines rest := by
  have more := fields_ne_nil '\n' rest
  rw [lines, fields_append plain, List.getLast?_cons_of_ne_nil more,
    List.dropLast_cons_of_ne_nil more, lines, apply_ite (List.cons line)]

theorem HasLines.lines_eq {t : Bytes} {found : List Bytes} (h : HasLines t found) :
    lines t = found := by
  induction h with
  | none => rfl
  | last some plain => exact lines_of_not_mem some plain
  | ended plain _ ih => rw [lines_append plain, ih]

theorem hasLines_iff {t : Bytes} {found : List Bytes} : HasLines t found ↔ lines t = found := by
  refine ⟨HasLines.lines_eq, ?_⟩
  rintro rfl
  obtain ⟨found, lines⟩ := exists_hasLines t
  rwa [lines.lines_eq]

/-! ### Blanks -/

/-- A text of blanks only. -/
def Blank (blanks bs : Bytes) : Prop := ∀ b ∈ bs, b ∈ blanks

/-- A text that starts and ends with bytes other than blanks. -/
structure Solid (blanks bs : Bytes) : Prop where
  first : ∃ b ∈ bs.head?, b ∉ blanks
  last : ∃ b ∈ bs.getLast?, b ∉ blanks

/-- What is left of a text without the blanks at its ends. -/
def Trimmed (blanks bs core : Bytes) : Prop :=
  (core = [] ∨ Solid blanks core) ∧
    ∃ front back, Blank blanks front ∧ Blank blanks back ∧ bs = front ++ core ++ back

section

variable {blanks : Bytes}

theorem blank_nil : Blank blanks [] := nofun

theorem Blank.append {a b : Bytes} (ha : Blank blanks a) (hb : Blank blanks b) :
    Blank blanks (a ++ b) := by
  intro c hc
  exact (List.mem_append.mp hc).elim (ha c) (hb c)

variable {p : UInt8 → Bool} (test : ∀ b, p b ↔ b ∈ blanks)

theorem trim_eq (p : UInt8 → Bool) (bs : Bytes) : trim p bs = (bs.dropWhile p).rdropWhile p := rfl

include test

/-- Trimming takes away blanks only. -/
theorem exists_trim (bs : Bytes) :
    ∃ front back, Blank blanks front ∧ Blank blanks back ∧ bs = front ++ trim p bs ++ back := by
  refine ⟨bs.takeWhile p, (bs.dropWhile p).rtakeWhile p, ?_, ?_, ?_⟩
  · intro b hb
    exact (test b).mp (List.mem_takeWhile_imp hb)
  · intro b hb
    exact (test b).mp (List.mem_rtakeWhile_imp hb)
  · rw [trim_eq, List.append_assoc, List.rdropWhile_append_rtakeWhile,
      List.takeWhile_append_dropWhile]

/-- Trimming leaves nothing or a text with ends that count. -/
theorem solid_trim {bs : Bytes} (h : trim p bs ≠ []) : Solid blanks (trim p bs) := by
  rw [trim_eq] at h ⊢
  constructor
  · have start : (bs.dropWhile p).rdropWhile p <+: bs.dropWhile p := List.rdropWhile_prefix ..
    obtain ⟨b, more, trimmed⟩ := List.exists_cons_of_ne_nil h
    obtain ⟨back, whole⟩ := start
    have solid := List.head?_dropWhile_not p bs
    rw [← whole, trimmed] at solid
    rw [trimmed]
    refine ⟨b, rfl, ?_⟩
    rw [← test]
    simpa using solid
  · refine ⟨_, List.getLast?_eq_some_getLast h, ?_⟩
    rw [← test]
    exact List.rdropWhile_last_not p _ h

theorem trim_append {front core back : Bytes} (hf : Blank blanks front) (hc : Solid blanks core)
    (hb : Blank blanks back) : trim p (front ++ core ++ back) = core := by
  obtain ⟨⟨b, first, solid⟩, ⟨c, last, solid'⟩⟩ := hc
  rw [← test] at solid solid'
  have inFront : (front ++ core ++ back).dropWhile p = core ++ back := by
    obtain ⟨more, rfl⟩ := List.head?_eq_some_iff.mp first
    rw [List.append_assoc, List.dropWhile_append_of_pos fun b hb => (test b).mpr (hf b hb)]
    simp [solid]
  have behind : (core ++ back).rdropWhile p = core := by
    obtain ⟨more, rfl⟩ := List.getLast?_eq_some_iff.mp last
    rw [List.rdropWhile, List.reverse_append,
      List.dropWhile_append_of_pos fun b hb' => (test b).mpr (hb b (List.mem_reverse.mp hb'))]
    simp [solid']
  rw [trim_eq, inFront, behind]

theorem trim_blank {bs : Bytes} (h : Blank blanks bs) : trim p bs = [] := by
  have none : bs.dropWhile p = [] := List.dropWhile_eq_nil_iff.mpr fun b hb => (test b).mpr (h b hb)
  rw [trim_eq, none]
  rfl

theorem trimmed_iff {bs core : Bytes} : Trimmed blanks bs core ↔ trim p bs = core := by
  constructor
  · rintro ⟨rfl | solid, front, back, hf, hb, rfl⟩
    · rw [List.append_nil]
      exact trim_blank test (hf.append hb)
    · exact trim_append test hf solid hb
  · rintro rfl
    exact ⟨or_iff_not_imp_left.mpr (solid_trim test), exists_trim test bs⟩

end

end CallAtlas.Bytes
