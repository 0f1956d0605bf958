import CallAtlas.Options.Resolve
import CallAtlas.Proofs.Bytes
import Mathlib.Data.List.Forall2
import Mathlib.Data.List.Induction

/-! # What a configuration sets

The lines of a configuration are described by how they are written: what stands before a comment,
headers of sections, and assignments of a key with a value that it can have. `TextSets` lists the
settings of a text in order, those of the assignments in its own sections. Reading takes up these
settings and counts them, and no other line changes anything.

So an option has the value that the command line gives to it, else that of the last setting for it,
else the one that is built in.
-/
namespace CallAtlas.Dot

open Bytes (Trimmed)

/-- The names on a list that is written with commas. Each part without the blanks around it is a
name, unless nothing is left of it. -/
def ListsNames (t : Bytes) (names : List Bytes) : Prop :=
  ∃ parts cores, parts ≠ [] ∧ (∀ part ∈ parts, (',' : UInt8) ∉ part) ∧
    t = [(',' : UInt8)].intercalate parts ∧ List.Forall₂ (Trimmed (text " \t")) parts cores ∧
    names = cores.filter (!·.isEmpty)

theorem listsNames_iff {t : Bytes} {names : List Bytes} :
    ListsNames t names ↔ parsePruneList t = names := by
  let isBlank (b : UInt8) : Bool := b = ' ' || b = '\t'
  have test (b : UInt8) : isBlank b ↔ b ∈ text " \t" := by
    have blanks : text " \t" = [(' ' : UInt8), '\t'] := by decide
    simp [isBlank, blanks]
  have trimmed {parts cores : List Bytes} :
      List.Forall₂ (Trimmed (text " \t")) parts cores ↔ parts.map (Bytes.trim isBlank) = cores := by
    have same : Trimmed (text " \t") = fun part core => Bytes.trim isBlank part = core :=
      funext₂ fun _ _ => propext (Bytes.trimmed_iff test)
    have mapped : List.Forall₂ Eq (parts.map (Bytes.trim isBlank)) cores ↔
        List.Forall₂ (fun part core => Bytes.trim isBlank part = core) parts cores :=
      List.forall₂_map_left_iff
    rw [same, ← mapped, List.forall₂_eq_eq_eq]
  constructor
  · rintro ⟨parts, cores, some, plain, rfl, left, rfl⟩
    rw [parsePruneList, ← Bytes.join_eq_intercalate, Bytes.fields_join plain some]
    exact congrArg (List.filter _) (trimmed.mp left)
  · rintro rfl
    refine ⟨Bytes.fields ',' t, _, Bytes.fields_ne_nil ',' t, fun _ => Bytes.not_mem_of_mem_fields,
      ?_, trimmed.mpr rfl, rfl⟩
    rw [← Bytes.join_eq_intercalate, Bytes.join_fields]

end CallAtlas.Dot

namespace CallAtlas.Config

open Bytes (Blank Solid HasLines)

/-! ### How lines are written -/

/-- The bytes that do not count at the ends of a key, a value or a line. -/
def blanks : Bytes := text " \t\r"

/-- Whether the end of a text is inside quotes; `quoted` tells this of its start. -/
def endsQuoted (quoted : Bool) (t : Bytes) : Bool :=
  quoted ^^ decide (t.count ('"' : UInt8) % 2 = 1)

/-- What stands before the comment of a line, which starts with the first `#` outside quotes. -/
structure BeforeComment (quoted : Bool) (raw body : Bytes) : Prop where
  comment : ∃ comment, raw = body ++ comment ∧
    (comment = [] ∨ comment.head? = some ('#' : UInt8) ∧ endsQuoted quoted body = false)
  within : ∀ front back, body = front ++ ('#' : UInt8) :: back → endsQuoted quoted front = true

def quote (t : Bytes) : Bytes := ('"' : UInt8) :: t ++ [('"' : UInt8)]

/-- The keys, each with the values that it can have and what they set. -/
inductive Setting.Written : Bytes → Bytes → Setting → Prop
  | format (value : Format) : Written (text "format") (quote value.name) (.format value)
  | graph (value : GraphKind) : Written (text "graph") (quote value.name) (.graph value)
  | prune {list : Bytes} {names : List Bytes} : Dot.ListsNames list names →
      Written (text "prune") (quote list) (.prune names)
  | outputDir (path : Bytes) : Written (text "output_dir") (quote path) (.outputDir path)
  | internalOnly (value : Bool) :
      Written (text "internal_only") (text (if value then "true" else "false"))
        (.internalOnly value)
  | includeTests (value : Bool) :
      Written (text "include_tests") (text (if value then "true" else "false"))
        (.includeTests value)

/-- A line that is the header of a section. -/
def IsHeader (raw header : Bytes) : Prop :=
  Solid blanks header ∧ header.head? = some ('[' : UInt8) ∧
    ∃ front back, Blank blanks front ∧ Blank blanks back ∧
      BeforeComment false raw (front ++ header ++ back)

/-- A line that gives a key one of its values. -/
def Assigns (raw : Bytes) (setting : Setting) : Prop :=
  ∃ front key beforeEquals behindEquals value back,
    Blank blanks front ∧ Blank blanks beforeEquals ∧ Blank blanks behindEquals ∧
      Blank blanks back ∧ setting.Written key value ∧
      BeforeComment false raw (front ++ (key ++ beforeEquals ++ ('=' : UInt8) ::
        (behindEquals ++ value)) ++ back)

/-- The settings of lines that follow a header; `ours` tells that it is that of the section that is
read. -/
inductive Sets : Bool → List Bytes → List Setting → Prop
  | nil {ours} : Sets ours [] []
  | header {ours raw header lines settings} : IsHeader raw header →
      Sets (header == text "[exviz]") lines settings → Sets ours (raw :: lines) settings
  | setting {raw setting lines settings} : Assigns raw setting → Sets true lines settings →
      Sets true (raw :: lines) (setting :: settings)
  | other {ours raw lines settings} : (∀ header, ¬ IsHeader raw header) →
      (ours = true → ∀ setting, ¬ Assigns raw setting) → Sets ours lines settings →
      Sets ours (raw :: lines) settings

/-- The settings of a text. Its first lines are in no section. -/
def TextSets (content : Bytes) (settings : List Setting) : Prop :=
  ∃ lines, HasLines content lines ∧ Sets false lines settings

/-! ### Comments -/

theorem endsQuoted_cons (quoted : Bool) (b : UInt8) (t : Bytes) :
    endsQuoted quoted (b :: t) = endsQuoted (if b = '"' then !quoted else quoted) t := by
  unfold endsQuoted
  by_cases h : b = ('"' : UInt8)
  · simp only [h, List.count_cons_self, ↓reduceIte]
    by_cases odd : t.count ('"' : UInt8) % 2 = 1
    · have even : ¬ (t.count ('"' : UInt8) + 1) % 2 = 1 := by omega
      simp [odd, even]
    · have odd' : (t.count ('"' : UInt8) + 1) % 2 = 1 := by omega
      simp [odd, odd']
  · simp [h, List.count_cons_of_ne h]

theorem endsQuoted_nil (quoted : Bool) : endsQuoted quoted [] = quoted := by
  simp [endsQuoted]

theorem beforeComment_withoutComment (quoted : Bool) (raw : Bytes) :
    BeforeComment quoted raw (withoutComment quoted raw) := by
  induction raw generalizing quoted with
  | nil => exact ⟨⟨[], by simp [withoutComment]⟩, by simp [withoutComment]⟩
  | cons b raw ih =>
    rw [withoutComment]
    split
    · rename_i starts
      simp only [Bool.and_eq_true, decide_eq_true_eq, Bool.not_eq_eq_eq_not, Bool.not_true]
        at starts
      obtain ⟨rfl, outside⟩ := starts
      exact ⟨⟨_, rfl, .inr ⟨rfl, by rw [endsQuoted_nil, outside]⟩⟩, by simp⟩
    · rename_i goes
      obtain ⟨⟨comment, whole, ends⟩, within⟩ := ih (if b = '"' then !quoted else quoted)
      refine ⟨⟨comment, by rw [List.cons_append, ← whole], ?_⟩, ?_⟩
      · rwa [endsQuoted_cons]
      · intro front back split
        cases front with
        | nil =>
          obtain rfl : b = ('#' : UInt8) := (List.cons.inj split).1
          simpa [endsQuoted_nil] using goes
        | cons c front =>
          obtain ⟨rfl, rest⟩ := List.cons.inj split
          rw [endsQuoted_cons]
          exact within front back rest

/-- What stands before the comment is no longer than that. -/
theorem BeforeComment.eq {quoted : Bool} {raw body : Bytes} (h : BeforeComment quoted raw body) :
    withoutComment quoted raw = body := by
  obtain ⟨⟨comment, rfl, ends⟩, within⟩ := h
  induction body generalizing quoted with
  | nil =>
    rcases ends with rfl | ⟨hash, outside⟩
    · rfl
    · obtain ⟨more, rfl⟩ := List.head?_eq_some_iff.mp hash
      rw [endsQuoted_nil] at outside
      simp [withoutComment, outside]
  | cons b body ih =>
    have inside : ¬ (b = '#' && !quoted) := by
      intro starts
      simp only [Bool.and_eq_true, decide_eq_true_eq, Bool.not_eq_eq_eq_not, Bool.not_true]
        at starts
      obtain ⟨rfl, outside⟩ := starts
      have := within [] body rfl
      rw [endsQuoted_nil, outside] at this
      cases this
    rw [List.cons_append, withoutComment, if_neg inside, ih]
    · intro front back split
      rw [← endsQuoted_cons]
      exact within (b :: front) back (by rw [split, List.cons_append])
    · rwa [endsQuoted_cons] at ends

theorem beforeComment_iff {quoted : Bool} {raw body : Bytes} :
    BeforeComment quoted raw body ↔ withoutComment quoted raw = body :=
  ⟨BeforeComment.eq, fun h => h ▸ beforeComment_withoutComment quoted raw⟩

/-! ### Trimming -/

theorem isBlank_iff (b : UInt8) : (b = ' ' || b = '\t' || b = '\r' : Bool) ↔ b ∈ blanks := by
  have listed : blanks = [(' ' : UInt8), '\t', '\r'] := by decide
  simp [listed, or_assoc]

theorem exists_trim (bs : Bytes) :
    ∃ front back, Blank blanks front ∧ Blank blanks back ∧ bs = front ++ trim bs ++ back :=
  Bytes.exists_trim isBlank_iff bs

theorem solid_trim {bs : Bytes} (h : trim bs ≠ []) : Solid blanks (trim bs) :=
  Bytes.solid_trim isBlank_iff h

theorem trim_append {front core back : Bytes} (hf : Blank blanks front) (hc : Solid blanks core)
    (hb : Blank blanks back) : trim (front ++ core ++ back) = core :=
  Bytes.trim_append isBlank_iff hf hc hb

/-- The text of a line without its comment and the blanks around it. -/
theorem trim_withoutComment_iff {raw line : Bytes} (h : Solid blanks line) :
    trim (withoutComment false raw) = line ↔ ∃ front back, Blank blanks front ∧
      Blank blanks back ∧ BeforeComment false raw (front ++ line ++ back) := by
  constructor
  · rintro rfl
    obtain ⟨front, back, hf, hb, whole⟩ := exists_trim (withoutComment false raw)
    exact ⟨front, back, hf, hb, beforeComment_iff.mpr whole⟩
  · rintro ⟨front, back, hf, hb, whole⟩
    rw [whole.eq, trim_append hf h hb]

/-! ### Settings -/

theorem quoted?_eq_some_iff {value t : Bytes} : quoted? value = some t ↔ value = quote t := by
  constructor
  · intro h
    unfold quoted? at h
    split at h
    · rename_i marks
      simp only [Bool.and_eq_true, decide_eq_true_eq, beq_iff_eq] at marks
      obtain ⟨⟨long, first⟩, last⟩ := marks
      obtain ⟨more, rfl⟩ := List.head?_eq_some_iff.mp first
      have nonempty : more ≠ [] := by
        rintro rfl
        simp at long
      obtain rfl : more.dropLast = t := Option.some.inj h
      rw [List.getLast?_cons_of_ne_nil nonempty] at last
      rw [quote, List.cons_append, List.dropLast_append_getLast? _ last]
    · cases h
  · rintro rfl
    have first : (quote t).head? = some ('"' : UInt8) := rfl
    have last : (quote t).getLast? = some ('"' : UInt8) := List.getLast?_concat
    have between : (quote t).tail.dropLast = t := List.dropLast_concat
    have long : 2 ≤ (quote t).length := by simp [quote]
    simp [quoted?, first, last, between, long]

theorem bool?_eq_some_iff {value : Bytes} {b : Bool} :
    bool? value = some b ↔ value = text (if b then "true" else "false") := by
  have apart : text "true" ≠ text "false" := by decide
  unfold bool?
  cases b <;> grind

theorem textSetting_eq_ok_iff {key value : Bytes} {read : Bytes → Except Fault Setting}
    {setting : Setting} : textSetting key value read = .ok setting ↔
      ∃ t, value = quote t ∧ read t = .ok setting := by
  simp only [textSetting, ← quoted?_eq_some_iff]
  cases quoted? value <;> simp

theorem boolSetting_eq_ok_iff {key value : Bytes} {build : Bool → Setting} {setting : Setting} :
    boolSetting key value build = .ok setting ↔
      ∃ b, value = text (if b then "true" else "false") ∧ build b = setting := by
  simp only [boolSetting, ← bool?_eq_some_iff]
  cases bool? value <;> simp

theorem written_of_assignment {key value : Bytes} {setting : Setting}
    (h : assignment key value = .ok setting) : setting.Written key value := by
  unfold assignment at h
  split at h
  · subst key
    obtain ⟨t, rfl, read⟩ := textSetting_eq_ok_iff.mp h
    split at read
    · rename_i format named
      cases read
      rw [Format.parse?_eq_some_iff.mp named]
      exact .format format
    · cases read
  split at h
  · subst key
    obtain ⟨t, rfl, read⟩ := textSetting_eq_ok_iff.mp h
    split at read
    · rename_i graph named
      cases read
      rw [GraphKind.parse?_eq_some_iff.mp named]
      exact .graph graph
    · cases read
  split at h
  · subst key
    obtain ⟨names, rfl, read⟩ := textSetting_eq_ok_iff.mp h
    cases read
    exact .prune (Dot.listsNames_iff.mpr rfl)
  split at h
  · subst key
    obtain ⟨path, rfl, read⟩ := textSetting_eq_ok_iff.mp h
    cases read
    exact .outputDir path
  split at h
  · subst key
    obtain ⟨b, rfl, rfl⟩ := boolSetting_eq_ok_iff.mp h
    exact .internalOnly b
  split at h
  · subst key
    obtain ⟨b, rfl, rfl⟩ := boolSetting_eq_ok_iff.mp h
    exact .includeTests b
  · cases h

theorem Setting.Written.assignment_eq {key value : Bytes} {setting : Setting}
    (h : setting.Written key value) : assignment key value = .ok setting := by
  cases h with
  | format format =>
    exact textSetting_eq_ok_iff.mpr ⟨_, rfl, by rw [Format.parse?_eq_some_iff.mpr rfl]⟩
  | graph graph =>
    exact textSetting_eq_ok_iff.mpr ⟨_, rfl, by rw [GraphKind.parse?_eq_some_iff.mpr rfl]⟩
  | prune listed =>
    exact textSetting_eq_ok_iff.mpr ⟨_, rfl, by rw [Dot.listsNames_iff.mp listed]⟩
  | outputDir path => exact textSetting_eq_ok_iff.mpr ⟨path, rfl, rfl⟩
  | internalOnly b => exact boolSetting_eq_ok_iff.mpr ⟨b, rfl, rfl⟩
  | includeTests b => exact boolSetting_eq_ok_iff.mpr ⟨b, rfl, rfl⟩

theorem solid_of_ends {bs : Bytes} {b c : UInt8} (first : bs.head? = some b)
    (last : bs.getLast? = some c) (solid : b ∉ blanks) (solid' : c ∉ blanks) : Solid blanks bs :=
  ⟨⟨b, first, solid⟩, ⟨c, last, solid'⟩⟩

theorem solid_quote (t : Bytes) : Solid blanks (quote t) :=
  solid_of_ends rfl List.getLast?_concat (by decide) (by decide)

theorem solid_bool (b : Bool) : Solid blanks (text (if b then "true" else "false")) := by
  cases b <;> exact solid_of_ends rfl rfl (by decide) (by decide)

/-- Keys and values start and end with bytes that count, and a key is a plain word. -/
theorem Setting.Written.solid {key value : Bytes} {setting : Setting}
    (h : setting.Written key value) :
    Solid blanks key ∧ Solid blanks value ∧ key.head? ≠ some ('[' : UInt8) ∧
      ('=' : UInt8) ∉ key := by
  cases h with
  | format | graph | prune | outputDir =>
    exact ⟨solid_of_ends rfl rfl (by decide) (by decide), solid_quote _, by decide, by decide⟩
  | internalOnly b | includeTests b =>
    exact ⟨solid_of_ends rfl rfl (by decide) (by decide), solid_bool b, by decide, by decide⟩

/-! ### Lines -/

theorem parse_of_isHeader {raw header : Bytes} (h : IsHeader raw header) :
    Line.parse raw = .header (header == text "[exviz]") := by
  obtain ⟨solid, bracket, written⟩ := h
  have line := (trim_withoutComment_iff solid).mpr written
  obtain ⟨more, rfl⟩ := List.head?_eq_some_iff.mp bracket
  simp [Line.parse, line]

theorem equals_not_mem_of_blank {bs : Bytes} (h : Blank blanks bs) : ('=' : UInt8) ∉ bs := by
  intro equals
  exact absurd (h _ equals) (by decide)

theorem parse_of_assigns {raw : Bytes} {setting : Setting} (h : Assigns raw setting) :
    Line.parse raw = .setting (.ok setting) := by
  obtain ⟨front, key, before, behind, value, back, hfront, hbefore, hbehind, hback, written,
    whole⟩ := h
  obtain ⟨solidKey, solidValue, word, plain⟩ := written.solid
  obtain ⟨b, first, hb⟩ := solidKey.first
  obtain ⟨c, last, hc⟩ := solidValue.last
  have start : (key ++ before ++ ('=' : UInt8) :: (behind ++ value)).head? = some b := by
    simp [List.head?_append, Option.mem_def.mp first]
  have stop : (key ++ before ++ ('=' : UInt8) :: (behind ++ value)).getLast? = some c := by
    simp [List.getLast?_append, List.getLast?_cons, Option.mem_def.mp last]
  have solid : Solid blanks (key ++ before ++ ('=' : UInt8) :: (behind ++ value)) :=
    ⟨⟨b, start, hb⟩, ⟨c, stop, hc⟩⟩
  have line := (trim_withoutComment_iff solid).mpr ⟨front, back, hfront, hback, whole⟩
  have parts : Bytes.cut '=' (key ++ before ++ ('=' : UInt8) :: (behind ++ value)) =
      (key ++ before, some (behind ++ value)) := by
    apply Bytes.cut_append
    simp [plain, equals_not_mem_of_blank hbefore]
  have trimmedKey : trim (key ++ before) = key :=
    trim_append Bytes.blank_nil solidKey hbefore
  have trimmedValue : trim (behind ++ value) = value := by
    simpa using trim_append hbehind solidValue Bytes.blank_nil
  unfold Line.parse
  rw [line]
  split
  · rename_i empty
    simp at empty
  · rename_i same
    have notBracket : b ≠ '[' := by
      rintro rfl
      exact word first
    rw [same] at start
    cases start
    rw [if_neg notBracket, ← same, parts]
    simp [trimmedKey, trimmedValue, written.assignment_eq]

theorem isHeader_of_parse {raw : Bytes} {ours : Bool} (h : Line.parse raw = .header ours) :
    ∃ header, IsHeader raw header ∧ ours = (header == text "[exviz]") := by
  unfold Line.parse at h
  split at h
  · cases h
  · rename_i b more line
    have solid : Solid blanks (b :: more) := by
      rw [← line]
      exact solid_trim (by simp [line])
    split at h
    · rename_i bracket
      cases h
      refine ⟨b :: more, ⟨solid, by simp [bracket], ?_⟩, rfl⟩
      exact (trim_withoutComment_iff solid).mp line
    · split at h <;> cases h

theorem assigns_of_parse {raw : Bytes} {setting : Setting}
    (h : Line.parse raw = .setting (.ok setting)) : Assigns raw setting := by
  unfold Line.parse at h
  split at h
  · cases h
  · rename_i b more line
    have solid : Solid blanks (b :: more) := by
      rw [← line]
      exact solid_trim (by simp [line])
    obtain ⟨front, back, hfront, hback, whole⟩ := (trim_withoutComment_iff solid).mp line
    split at h
    · cases h
    split at h
    · rename_i key value parts
      have joined : key ++ ('=' : UInt8) :: value = b :: more := by
        simpa [parts] using Bytes.cut_join '=' (b :: more)
      obtain ⟨keyFront, keyBack, hkf, hkb, keyWhole⟩ := exists_trim key
      obtain ⟨valueFront, valueBack, hvf, hvb, valueWhole⟩ := exists_trim value
      have written := written_of_assignment (by simpa using h)
      refine ⟨front ++ keyFront, trim key, keyBack, valueFront, trim value, valueBack ++ back,
        hfront.append hkf, hkb, hvf, hvb.append hback, written, ?_⟩
      have sides : front ++ keyFront ++ (trim key ++ keyBack ++ ('=' : UInt8) ::
          (valueFront ++ trim value)) ++ (valueBack ++ back) = front ++ (b :: more) ++ back :=
        calc _ = front ++ ((keyFront ++ trim key ++ keyBack) ++ ('=' : UInt8) ::
                (valueFront ++ trim value ++ valueBack)) ++ back := by simp
          _ = front ++ (b :: more) ++ back := by rw [← keyWhole, ← valueWhole, joined]
      exact sides ▸ whole
    · cases h

/-! ### All lines of a text -/

theorem exists_sets (ours : Bool) (lines : List Bytes) : ∃ settings, Sets ours lines settings := by
  induction lines generalizing ours with
  | nil => exact ⟨[], .nil⟩
  | cons raw lines ih =>
    by_cases heads : ∃ header, IsHeader raw header
    · obtain ⟨header, heads⟩ := heads
      obtain ⟨settings, rest⟩ := ih (header == text "[exviz]")
      exact ⟨settings, .header heads rest⟩
    by_cases assigns : ours = true ∧ ∃ setting, Assigns raw setting
    · obtain ⟨rfl, setting, assigns⟩ := assigns
      obtain ⟨settings, rest⟩ := ih true
      exact ⟨setting :: settings, .setting assigns rest⟩
    · obtain ⟨settings, rest⟩ := ih ours
      refine ⟨settings, .other (not_exists.mp heads) ?_ rest⟩
      exact fun ours setting assigned => assigns ⟨ours, setting, assigned⟩

/-- The lines have no other settings. -/
theorem Sets.eq {ours : Bool} {lines : List Bytes} {settings settings' : List Setting}
    (h : Sets ours lines settings) (h' : Sets ours lines settings') : settings' = settings := by
  induction h generalizing settings' with
  | nil =>
    cases h'
    rfl
  | header heads _ ih =>
    have parsed := parse_of_isHeader heads
    cases h' with
    | header heads' rest =>
      rw [parse_of_isHeader heads', Line.header.injEq] at parsed
      exact ih (parsed ▸ rest)
    | setting assigns _ =>
      rw [parse_of_assigns assigns] at parsed
      cases parsed
    | other none _ _ => exact absurd heads (none _)
  | setting assigns _ ih =>
    have parsed := parse_of_assigns assigns
    cases h' with
    | header heads _ =>
      rw [parse_of_isHeader heads] at parsed
      cases parsed
    | setting assigns' rest =>
      rw [parse_of_assigns assigns'] at parsed
      cases parsed
      rw [ih rest]
    | other _ none _ => exact absurd assigns (none rfl _)
  | other heads assigns _ ih =>
    cases h' with
    | header heads' _ => exact absurd heads' (heads _)
    | setting assigns' _ => exact absurd assigns' (assigns rfl _)
    | other _ _ rest => exact ih rest

theorem textSets_iff {content : Bytes} {settings : List Setting} :
    TextSets content settings ↔ Sets false (Bytes.lines content) settings := by
  simp only [TextSets, Bytes.hasLines_iff, exists_eq_left']

/-- A text has one list of settings. -/
theorem exists_textSets_iff (content : Bytes) :
    ∃ settings, ∀ listed, TextSets content listed ↔ listed = settings := by
  obtain ⟨settings, sets⟩ := exists_sets false (Bytes.lines content)
  refine ⟨settings, fun listed => ?_⟩
  rw [textSets_iff]
  refine ⟨sets.eq, ?_⟩
  rintro rfl
  exact sets

section Reading

variable {r : Reading} {raw : Bytes}

theorem addLine_of_isHeader {header : Bytes} (h : IsHeader raw header) (origin : Bytes)
    (number : Nat) :
    (addLine origin r raw number).value = { r with ours := header == text "[exviz]" } := by
  rw [addLine, parse_of_isHeader h]
  rfl

theorem addLine_of_assigns {setting : Setting} (h : Assigns raw setting) (ours : r.ours = true)
    (origin : Bytes) (number : Nat) :
    (addLine origin r raw number).value =
      { r with applied := r.applied + 1, options := setting.apply r.options } := by
  rw [addLine, parse_of_assigns h]
  simp [ours, pure]

/-- A line that is neither changes nothing. -/
theorem addLine_of_other (heads : ∀ header, ¬ IsHeader raw header)
    (assigns : r.ours = true → ∀ setting, ¬ Assigns raw setting) (origin : Bytes) (number : Nat) :
    (addLine origin r raw number).value = r := by
  rw [addLine]
  split
  · rfl
  · rename_i parsed
    obtain ⟨header, isHeader, -⟩ := isHeader_of_parse parsed
    exact absurd isHeader (heads header)
  · rename_i result parsed
    split
    · rfl
    · rename_i ours
      cases result with
      | ok setting => exact absurd (assigns_of_parse parsed) (assigns (by simpa using ours) setting)
      | error fault => rfl

end Reading

theorem value_addLines_cons (origin : Bytes) (r : Reading) (raw : Bytes) (lines : List Bytes)
    (number : Nat) : (addLines origin r (raw :: lines) number).value =
      (addLines origin (addLine origin r raw number).value lines (number + 1)).value := rfl

/-- Reading takes up the settings of the lines in order and counts them. -/
theorem Sets.value_addLines {lines : List Bytes} {settings : List Setting} {r : Reading}
    (h : Sets r.ours lines settings) (origin : Bytes) (number : Nat) :
    (addLines origin r lines number).value.applied = r.applied + settings.length ∧
      (addLines origin r lines number).value.options = settings.foldl Setting.apply r.options := by
  generalize hours : r.ours = ours at h
  induction h generalizing r number with
  | nil => exact ⟨rfl, rfl⟩
  | header heads _ ih =>
    rw [value_addLines_cons, addLine_of_isHeader heads]
    exact ih _ rfl
  | setting assigns _ ih =>
    rw [value_addLines_cons, addLine_of_assigns assigns hours, List.length_cons, List.foldl_cons,
      ← Nat.add_assoc, Nat.add_right_comm]
    exact ih _ hours
  | other heads assigns _ ih =>
    rw [value_addLines_cons, addLine_of_other heads (hours ▸ assigns)]
    exact ih _ hours

theorem value_apply {content : Bytes} {settings : List Setting} (h : TextSets content settings)
    (origin : Bytes) (o : Options) : (apply origin content o).value.applied = settings.length ∧
      (apply origin content o).value.options = settings.foldl Setting.apply o := by
  have taken := Sets.value_addLines (r := { options := o }) (textSets_iff.mp h) origin 1
  rwa [Nat.zero_add] at taken

/-! ### The last setting counts -/

namespace Setting

def format? : Setting → Option Format
  | .format value => some value
  | _ => none

def graph? : Setting → Option GraphKind
  | .graph value => some value
  | _ => none

def prune? : Setting → Option (List Bytes)
  | .prune value => some value
  | _ => none

def outputDir? : Setting → Option Bytes
  | .outputDir value => some value
  | _ => none

def internalOnly? : Setting → Option Bool
  | .internalOnly value => some value
  | _ => none

def includeTests? : Setting → Option Bool
  | .includeTests value => some value
  | _ => none

end Setting

/-- The last of the settings that are for one option. -/
def lastOf {α : Type} (read : Setting → Option α) (settings : List Setting) : Option α :=
  (settings.filterMap read).getLast?

theorem foldl_apply (settings : List Setting) (o : Options) :
    settings.foldl Setting.apply o =
      { o with
        format := (lastOf Setting.format? settings).getD o.format
        graph := (lastOf Setting.graph? settings).getD o.graph
        prune := (lastOf Setting.prune? settings).getD o.prune
        internalOnly := (lastOf Setting.internalOnly? settings).getD o.internalOnly
        includeTests := (lastOf Setting.includeTests? settings).getD o.includeTests
        outputDir := (lastOf Setting.outputDir? settings).getD o.outputDir } := by
  induction settings using List.reverseRecOn with
  | nil => rfl
  | append_singleton settings setting ih =>
    rw [List.foldl_concat, ih]
    cases setting <;>
      simp [Setting.apply, lastOf, Setting.format?, Setting.graph?, Setting.prune?,
        Setting.internalOnly?, Setting.includeTests?, Setting.outputDir?]

end CallAtlas.Config

namespace CallAtlas.Options

open Config

/-- The path of the configuration that applies: that named on the command line, or else the one in
the root of the project. -/
def configurationPath (t : FileTree) (c : CommandLine) : Bytes :=
  if c.configPath.isEmpty then
    Path.join (rootOf t (if c.fromJson.isEmpty then c.projectPath else [])) fileName
  else c.configPath

/-- The text of the configuration that applies, if there is one. -/
def configuration? (t : FileTree) (c : CommandLine) : Option Bytes :=
  match t.status? (configurationPath t c) with
  | some (.file content) => some content
  | _ => none

/-- The options before the configuration is read. -/
def unconfigured (c : CommandLine) : Options :=
  { projectPath := c.projectPath, fromJson := c.fromJson }

theorem value_resolve (t : FileTree) (c : CommandLine) :
    (resolve t c).value = c.applyTo
      ((load t (configurationPath t c) (unconfigured c)).value.getD (unconfigured c)) := by
  unfold resolve configurationPath
  by_cases given : c.configPath.isEmpty
  · simp only [given, ↓reduceIte]
    rfl
  · cases found : (load t c.configPath (unconfigured c)).value <;>
      simp_all [unconfigured, bind, pure]

/-- The configuration puts what its text sets over the options. -/
theorem value_load {t : FileTree} {c : CommandLine} {settings : List Setting}
    (h : TextSets ((configuration? t c).getD []) settings) (o : Options) :
    (load t (configurationPath t c) o).value.getD o = settings.foldl Setting.apply o := by
  have empty {listed : List Setting} (h : TextSets [] listed) : listed = [] := by
    cases textSets_iff.mp h
    rfl
  rw [configuration?] at h
  rw [load]
  -- Without a file there is no line, hence no setting.
  rcases found : t.status? (configurationPath t c) with - | - | content
  · rw [found] at h
    rw [empty h]
    rfl
  · rw [found] at h
    rw [empty h]
    rfl
  · rw [found] at h
    exact (value_apply h (configurationPath t c) o).2

/-- An option has the value that the command line gives to it, else that of the last setting for it
in the configuration that applies, else the one that is built in. The project and the saved document
are those of the command line. Reading any configuration counts its settings. -/
theorem options_resolved (t : FileTree) (c : CommandLine) :
    (∃ settings,
      (∀ listed, TextSets ((configuration? t c).getD []) listed ↔ listed = settings) ∧
      (resolve t c).value =
        { projectPath := c.projectPath
          fromJson := c.fromJson
          format := (c.format.or (lastOf Setting.format? settings)).getD .json
          graph := (c.graph.or (lastOf Setting.graph? settings)).getD .both
          prune := (c.prune.or (lastOf Setting.prune? settings)).getD []
          internalOnly := (c.internalOnly.or (lastOf Setting.internalOnly? settings)).getD true
          includeTests := (c.includeTests.or (lastOf Setting.includeTests? settings)).getD false
          outputDir :=
            (c.outputDir.or (lastOf Setting.outputDir? settings)).getD (text "output") }) ∧
      ∀ content, ∃ settings,
        (∀ listed, TextSets content listed ↔ listed = settings) ∧
        ∀ origin o, (Config.apply origin content o).value.applied = settings.length := by
  constructor
  · obtain ⟨settings, sets⟩ := exists_textSets_iff ((configuration? t c).getD [])
    refine ⟨settings, sets, ?_⟩
    rw [value_resolve, value_load ((sets settings).mpr rfl), foldl_apply]
    simp only [CommandLine.applyTo, unconfigured, Option.getD_or]
  · intro content
    obtain ⟨settings, sets⟩ := exists_textSets_iff content
    exact ⟨settings, sets, fun origin o => (value_apply ((sets settings).mpr rfl) origin o).1⟩

-- Lines of other sections, a value without quotes and a comment set nothing.
example :
    let content := text "format = \"json\"\n[exviz] # ours\nformat = \"dot\"\ngraph = calls\n" ++
      text " prune\t= \"A,, B \" # \"C\"\n[other]\nformat = \"json\""
    let read := (Config.apply [] content {}).value
    read.applied = 2 ∧ read.options = { format := .dot, prune := [text "A", text "B"] } := by
  decide

end CallAtlas.Options
