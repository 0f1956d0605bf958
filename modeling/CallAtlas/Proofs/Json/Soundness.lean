import CallAtlas.Proofs.Json.Completeness

/-! # Whatever is read is spelled

The reader takes nothing but the texts of the grammar. A read that succeeds has taken the bytes
between the cursor it started from and the one it ends at, and `Took` says in which relation these
bytes stand to the value. Blanks behind an entry are left to whoever reads on, so what is said of an
entry is that any blanks may still follow it.

Together with completeness: a text is accepted exactly if it spells a value, and then as that value.
-/
namespace CallAtlas.Json

/-- If a read from `c` succeeds, the text that it took stands in the relation `P` to its value. -/
def Took {m : Nat} {α : Type} (c : Cursor) (read : Except Error (Read m α))
    (P : Bytes → α → Prop) : Prop :=
  ∀ r, read = .ok r → ∃ bs, P bs r.value ∧ c.rest = bs ++ r.rest.rest

section Took

variable {m n : Nat} {α β : Type} {c c₁ : Cursor} {P : Bytes → α → Prop} {Q : Bytes → β → Prop}

theorem took_error (e : Error) : Took c (.error e : Except Error (Read m α)) P := by
  intro r h
  cases h

theorem took_fail (c' : Cursor) (fault : Fault) :
    Took c (c'.fail fault : Except Error (Read m α)) P := took_error _

theorem took_ok {r : Read m α} (bs : Bytes) (h : P bs r.value)
    (hc : c.rest = bs ++ r.rest.rest) : Took c (.ok r) P := by
  intro r' hr
  cases hr
  exact ⟨bs, h, hc⟩

/-- A read that goes on behind a text that has been taken already. -/
theorem Took.behind {read : Except Error (Read m α)} (h : Took c₁ read P) {before : Bytes}
    (hc : c.rest = before ++ c₁.rest) (f : α → β) (hle : m ≤ n)
    (himp : ∀ bs a, P bs a → Q (before ++ bs) (f a)) : Took c (read.map (·.widen f hle)) Q := by
  intro r hr
  cases hread : read with
  | error e =>
    rw [hread] at hr
    cases hr
  | ok r₁ =>
    rw [hread] at hr
    cases hr
    obtain ⟨bs, hP, hrest⟩ := h r₁ hread
    refine ⟨before ++ bs, himp bs _ hP, ?_⟩
    rw [hc, hrest, List.append_assoc]
    rfl

theorem Took.widen {read : Except Error (Read m α)} (h : Took c read P) (f : α → β) (hle : m ≤ n)
    (himp : ∀ bs a, P bs a → Q bs (f a)) : Took c (read.map (·.widen f hle)) Q :=
  h.behind (List.nil_append _).symm f hle himp

end Took

namespace Cursor

theorem rest_of_next {c : Cursor} {r : Read c.size UInt8} (h : c.next? = some r) :
    c.rest = r.value :: r.rest.rest := by
  cases hr : c.rest with
  | nil =>
    rw [next_of_nil hr] at h
    cases h
  | cons b bs =>
    obtain ⟨c₁, hlt, hn, hrest⟩ := next_of_rest hr
    rw [hn] at h
    cases h
    rw [hrest]

theorem blanks_skipBlanks (c : Cursor) :
    ∃ blanks, Blank blanks ∧ c.rest = blanks ++ c.skipBlanks.rest := by
  refine ⟨c.rest.takeWhile isBlank, ?_, ?_⟩
  · intro b hb
    exact isBlank_iff.mp (List.all_eq_true.mp List.all_takeWhile b hb)
  · rw [rest_skipBlanks, strip, List.takeWhile_append_dropWhile]

end Cursor

/-! ### Strings -/

theorem took_hexNumber (n value : Nat) (c : Cursor) :
    Took c (hexNumber n value c) fun bs total =>
      bs.length = n ∧ (∀ d ∈ bs, (Bytes.hexDigit? d).isSome) ∧
        total = bs.foldl (fun n d => n * 16 + (Bytes.hexDigit? d).getD 0) value := by
  induction n generalizing value c with
  | zero =>
    refine took_ok [] ⟨rfl, ?_, rfl⟩ rfl
    intro d hd
    cases hd
  | succ n ih =>
    rw [hexNumber]
    split
    · apply took_fail
    · rename_i b c₁ hlt hnext
      split
      · apply took_fail
      · rename_i d hd
        have hc : c.rest = [b] ++ c₁.rest := Cursor.rest_of_next hnext
        apply (ih (value * 16 + d) c₁).behind hc
        rintro bs total ⟨length, hex, rfl⟩
        refine ⟨by simp [length], ?_, by simp [hd]⟩
        simpa [hd] using hex

/-- What is taken behind a backslash may stand, with it, in front of any text. -/
theorem took_escaped (c : Cursor) :
    Took c (escaped c) fun bs bytes => ∀ more s, SpellsText more s →
      SpellsText (parted [] '\\' (bs ++ more)) (bytes ++ s) := by
  unfold escaped
  split
  · apply took_fail
  · rename_i b c₁ hlt hnext
    have hc : c.rest = [b] ++ c₁.rest := Cursor.rest_of_next hnext
    split
    · rename_i byte hb
      refine took_ok [b] ?_ hc
      intro more s hs
      exact .letter (simpleEscape?_eq_some.mp hb) hs
    · split
      · rename_i hu
        apply (took_hexNumber 4 0 c₁).behind hc
        rintro bs total ⟨length, hex, rfl⟩ more s hs
        subst hu
        change SpellsText _ (Bytes.utf8 (hexValue bs) ++ s)
        rw [utf8_hexValue length]
        exact .unit length hex hs
      · apply took_fail

theorem took_stringBody (c : Cursor) :
    Took c (stringBody c) fun bs s => ∃ inside, SpellsText inside s ∧ bs = parted inside '"' [] := by
  fun_induction stringBody c with
  | case1 => apply took_fail
  | case2 c c₁ hlt hnext => exact took_ok _ ⟨[], .nil, rfl⟩ (Cursor.rest_of_next hnext)
  | case3 => apply took_fail
  | case4 => apply took_error
  | case5 c c₁ hlt bytes c₂ hlt₂ hescaped hnext _ _ ih =>
    obtain ⟨escape, spells, hrest⟩ := took_escaped c₁ _ hescaped
    have hc : c.rest = parted [] '\\' escape ++ c₂.rest := by
      rw [Cursor.rest_of_next hnext, hrest]
      rfl
    apply ih.behind hc
    rintro bs s ⟨inside, hs, rfl⟩
    refine ⟨parted [] '\\' (escape ++ inside), spells inside s hs, ?_⟩
    simp [parted]
  | case6 c b c₁ hlt hnext quote control backslash ih =>
    have hc : c.rest = [b] ++ c₁.rest := Cursor.rest_of_next hnext
    apply ih.behind hc
    rintro bs s ⟨inside, hs, rfl⟩
    exact ⟨b :: inside, .plain quote control backslash hs, rfl⟩

theorem took_quoted (fault : Fault) (c : Cursor) : Took c (quoted fault c) SpellsString := by
  unfold quoted
  split
  · apply took_fail
  · rename_i b c₁ hlt hnext
    split
    · rename_i quote
      have hc : c.rest = [b] ++ c₁.rest := Cursor.rest_of_next hnext
      apply (took_stringBody c₁).behind hc
      rintro bs s ⟨inside, hs, rfl⟩
      subst quote
      exact ⟨inside, hs, rfl⟩
    · apply took_fail

/-! ### Numbers -/

theorem took_digits (fault : Fault) (c : Cursor) :
    Took c (digits fault c) fun bs run => bs = run ∧ Digits run := by
  unfold digits
  dsimp only
  split
  · apply took_fail
  · rename_i nonempty
    refine took_ok (c.rest.takeWhile Bytes.isDigit) ⟨rfl, nonempty, ?_⟩ ?_
    · intro b hb
      exact List.all_eq_true.mp List.all_takeWhile b hb
    · have parts := List.takeWhile_append_dropWhile (p := Bytes.isDigit) (l := c.rest)
      rw [← rest_skip_append (c := c) _ parts.symm] at parts
      exact parts.symm

theorem exists_of_sees {c : Cursor} {choices : Bytes} (h : sees c choices) :
    ∃ b ∈ choices, c.rest = [b] ++ (c.skip 1).rest := by
  cases hr : c.rest with
  | nil => simp [sees, hr] at h
  | cons b bs =>
    rw [sees_cons hr] at h
    refine ⟨b, by simpa using h, ?_⟩
    simp [Cursor.skip, hr]

/-- What is skipped by choice: one of the bytes, or nothing. -/
theorem took_optional (c : Cursor) (choices : Bytes) :
    ∃ bs, c.rest = bs ++ (optional c choices).rest ∧
      (sees c choices = true ∧ (∃ b ∈ choices, bs = [b]) ∨ sees c choices = false ∧ bs = []) := by
  unfold optional
  split
  · rename_i seen
    obtain ⟨b, hb, hc⟩ := exists_of_sees seen
    exact ⟨[b], hc, .inl ⟨seen, b, hb, rfl⟩⟩
  · rename_i unseen
    exact ⟨[], rfl, .inr ⟨Bool.eq_false_iff.mpr unseen, rfl⟩⟩

theorem took_fractionPart (c : Cursor) : Took c (fractionPart c) SpellsFraction := by
  unfold fractionPart
  split
  · rename_i seen
    obtain ⟨b, hb, hc⟩ := exists_of_sees seen
    obtain rfl := List.mem_singleton.mp hb
    apply (took_digits .expectedFraction (c.skip 1)).behind hc
    rintro bs run ⟨rfl, hd⟩
    exact ⟨hd, rfl⟩
  · exact took_ok [] rfl rfl

/-- The sign of an exponent is taken as it is seen. -/
theorem took_sign (c : Cursor) :
    ∃ sign ∈ [[], text "+", text "-"], c.rest = sign ++ (optional c ['+', '-']).rest ∧
      (sees c ['-'] ↔ sign = text "-") := by
  obtain ⟨sign, hc, ⟨-, b, hb, rfl⟩ | ⟨unseen, rfl⟩⟩ := took_optional c ['+', '-']
  · have signs : ∀ b ∈ (['+', '-'] : Bytes), [b] ∈ [[], text "+", text "-"] ∧
        ((['-'] : Bytes).contains b ↔ [b] = text "-") := forall_mem_of_all (by decide)
    refine ⟨[b], (signs b hb).1, hc, ?_⟩
    rw [sees_cons hc]
    exact (signs b hb).2
  · refine ⟨[], List.mem_cons_self, hc, ?_⟩
    have minus : sees c ['-'] = false := by
      rw [← Bool.not_eq_true] at unseen ⊢
      intro seen
      obtain ⟨b, hb, hc⟩ := exists_of_sees seen
      apply unseen
      rw [sees_cons hc]
      simpa using List.mem_cons_of_mem _ hb
    rw [minus]
    decide

theorem took_exponentPart (c : Cursor) : Took c (exponentPart c) SpellsExponent := by
  unfold exponentPart
  split
  · rename_i seen
    obtain ⟨mark, hm, hc⟩ := exists_of_sees seen
    obtain ⟨sign, hs, hsigned, minus⟩ := took_sign (c.skip 1)
    have before : c.rest = parted [] mark sign ++ (optional (c.skip 1) ['+', '-']).rest := by
      rw [hc, hsigned]
      rfl
    apply (took_digits .expectedExponent _).behind before
    rintro bs run ⟨rfl, hd⟩
    refine ⟨mark, sign, bs, hm, hs, hd, rfl, ?_⟩
    simp only [minus]
  · exact took_ok [] rfl rfl

theorem took_number (c : Cursor) :
    Took c (number c) fun bs v => ∃ n, SpellsNumber bs n ∧ n.Denotes v := by
  obtain ⟨sign, hsign, hminus⟩ := took_optional c ['-']
  have minus : sign = if sees c ['-'] then text "-" else [] := by
    rcases hminus with ⟨seen, b, hb, rfl⟩ | ⟨unseen, rfl⟩
    · obtain rfl := List.mem_singleton.mp hb
      rw [seen]
      rfl
    · rw [unseen]
      rfl
  unfold number
  split
  · apply took_error
  · rename_i c₁ _ hwhole
    obtain ⟨whole, ⟨rfl, hd⟩, hc₁⟩ := took_digits _ _ _ hwhole
    split
    · apply took_error
    · rename_i fraction c₂ _ hfraction
      obtain ⟨point, hf, hc₂⟩ := took_fractionPart _ _ hfraction
      have before : c.rest = sign ++ (whole ++ point) ++ c₂.rest := by
        rw [hsign, hc₁, hc₂]
        simp
      apply (took_exponentPart c₂).behind before
      intro bs exponent he
      refine ⟨⟨sees c ['-'], whole, fraction, exponent⟩, ⟨hd, point, bs, hf, he, ?_⟩,
        Numeral.denotes_toValue _⟩
      rw [minus]
      simp

/-! ### Entries -/

/-- Blanks may be added before any phrase but a bare value. -/
theorem Spells.afterBlanks {d : Nat} {bs : Bytes} {p : Phrase} (h : Spells d bs p)
    {blanks : Bytes} (hb : Blank blanks) : (∀ v, p ≠ .value v) → Spells d (blanks ++ bs) p := by
  have added {before : Bytes} (hbefore : Blank before) : Blank (blanks ++ before) := by
    intro b hmem
    rcases List.mem_append.mp hmem with hmem | hmem
    · exact hb b hmem
    · exact hbefore b hmem
  induction h with
  | padded hbefore hv hbehind _ =>
    intro _
    rw [← List.append_assoc]
    exact .padded (added hbefore) hv hbehind
  | lastItem _ ih => exact fun _ => .lastItem (ih (by simp))
  | moreItems _ hmore ih _ =>
    intro _
    rw [parted, ← List.append_assoc]
    exact .moreItems (ih (by simp)) hmore
  | member hbefore hk hbetween hv _ =>
    intro _
    rw [← List.append_assoc]
    exact .member (added hbefore) hk hbetween hv
  | lastMember _ ih => exact fun _ => .lastMember (ih (by simp))
  | moreMembers _ hmore ih _ =>
    intro _
    rw [parted, ← List.append_assoc]
    exact .moreMembers (ih (by simp)) hmore
  | _ => exact fun h => absurd rfl (h _)

/-- What is taken as an entry spells it with any blanks behind it. -/
def SpellsBefore (d : Nat) (bs : Bytes) (p : Phrase) : Prop :=
  ∀ behind, Blank behind → Spells d (bs ++ behind) p

section Entries

variable {α : Type} {d : Nat} {entry : (c : Cursor) → Except Error (Read c.size α)}
  {phrase : α → Phrase}

theorem took_entries (list : List α → Phrase) (close : UInt8) (fault : Fault)
    (hentry : ∀ c, Took c (entry c) fun bs a => SpellsBefore d bs (phrase a))
    (last : ∀ {bs a}, Spells d bs (phrase a) → Spells d bs (list [a]))
    (more : ∀ {bs a others as}, Spells d bs (phrase a) → Spells d others (list as) →
      Spells d (parted bs ',' others) (list (a :: as))) (c : Cursor) :
    Took c (entries entry close fault c) fun bs as =>
      ∃ inside, Spells d inside (list as) ∧ bs = parted inside close [] := by
  fun_induction entries entry close fault c with
  | case1 => apply took_error
  | case2 => apply took_fail
  | case3 c first c₁ _ hfirst _ c₂ _ hnext ih =>
    obtain ⟨bs, spelled, hc⟩ := hentry c _ hfirst
    obtain ⟨blanks, hb, hc₁⟩ := c₁.blanks_skipBlanks
    have before : c.rest = parted (bs ++ blanks) ',' [] ++ c₂.rest := by
      rw [hc, hc₁, Cursor.rest_of_next hnext]
      simp [parted]
    apply ih.behind before
    rintro _ as ⟨others, hothers, rfl⟩
    refine ⟨parted (bs ++ blanks) ',' others, more (spelled blanks hb) hothers, ?_⟩
    simp [parted]
  | case4 c first c₁ _ hfirst _ c₂ _ hnext _ =>
    obtain ⟨bs, spelled, hc⟩ := hentry c _ hfirst
    obtain ⟨blanks, hb, hc₁⟩ := c₁.blanks_skipBlanks
    refine took_ok _ ⟨bs ++ blanks, last (spelled blanks hb), rfl⟩ ?_
    rw [hc, hc₁, Cursor.rest_of_next hnext]
    simp [parted]
  | case5 => apply took_fail

theorem took_container {list : List α → Phrase} (close : UInt8) (fault : Fault)
    (hentries : ∀ c, Took c (entries entry close fault c) fun bs as =>
      ∃ inside, Spells d inside (list as) ∧ bs = parted inside close [])
    (bare : ∀ as v, list as ≠ .value v) (c : Cursor) :
    Took c (container entry close fault c) fun bs as =>
      ∃ inside, (Blank inside ∧ as = [] ∨ Spells d inside (list as)) ∧
        bs = parted inside close [] := by
  obtain ⟨blanks, hb, hc⟩ := c.blanks_skipBlanks
  have some : Took c ((entries entry close fault c.skipBlanks).map
      (·.widen id c.size_skipBlanks_le)) fun bs as =>
        ∃ inside, (Blank inside ∧ as = [] ∨ Spells d inside (list as)) ∧
          bs = parted inside close [] := by
    apply (hentries c.skipBlanks).behind hc
    rintro _ as ⟨inside, spelled, rfl⟩
    refine ⟨blanks ++ inside, .inr (spelled.afterBlanks hb (bare as)), ?_⟩
    simp [parted]
  unfold container
  split
  · exact some
  · rename_i b c₁ _ hnext
    split
    · rename_i closed
      subst closed
      refine took_ok _ ⟨blanks, .inl ⟨hb, rfl⟩, rfl⟩ ?_
      rw [hc, Cursor.rest_of_next hnext]
      simp [parted]
    · exact some

theorem took_member {read : ValueReader}
    (hvalue : ∀ c, Took c (read c) fun bs v => SpellsBefore d bs (.padded v)) (c : Cursor) :
    Took c (member read c) fun bs m => SpellsBefore d bs (.member m.1 m.2) := by
  obtain ⟨before, hb, hc⟩ := c.blanks_skipBlanks
  unfold member
  split
  · apply took_error
  · rename_i name c₁ _ hkey
    obtain ⟨key, hk, hc₁⟩ := took_quoted _ _ _ hkey
    obtain ⟨between, hbetween, hc₂⟩ := c₁.blanks_skipBlanks
    split
    · apply took_fail
    · rename_i b c₂ _ hnext
      split
      · rename_i colon
        have taken : c.rest = before ++ parted (key ++ between) ':' [] ++ c₂.rest := by
          rw [hc, hc₁, hc₂, Cursor.rest_of_next hnext, colon]
          simp [parted]
        apply (hvalue c₂).behind taken
        intro bs v spelled behind hbehind
        have whole := Spells.member hb hk hbetween (spelled behind hbehind)
        simpa [parted] using whole
      · apply took_fail

end Entries

/-! ### Values -/

theorem took_word {c c₁ : Cursor} {b : UInt8} (hc : c.rest = [b] ++ c₁.rest)
    (hlt : c₁.size < c.size) :
    Took c (word c b c₁ hlt) fun bs v => (bs, v) ∈ wordValues := by
  unfold word
  split
  · apply took_fail
  · rename_i first tail v found
    have matched := List.find?_some found
    simp only [Bool.and_eq_true, beq_iff_eq] at matched
    obtain ⟨rfl, starts⟩ := matched
    obtain ⟨rest, hrest⟩ := List.isPrefixOf_iff_prefix.mp starts
    refine took_ok (first :: tail) ?_ ?_
    · rw [wordValues_eq]
      exact List.mem_map_of_mem (List.mem_of_find?_eq_some found)
    · rw [hc, rest_skip_append tail hrest.symm, ← hrest]
      rfl

theorem took_array {d : Nat}
    (hvalue : ∀ c, Took c (value d c) fun bs v => SpellsBefore d bs (.padded v)) (c : Cursor) :
    Took c (container (value d) ']' .expectedItemEnd c) fun bs vs =>
      Spells (d + 1) (parted [] '[' bs) (.value (.array vs)) := by
  have items := took_entries .items ']' .expectedItemEnd hvalue .lastItem .moreItems
  intro r hr
  obtain ⟨bs, ⟨inside, hinside, rfl⟩, hc⟩ := took_container _ _ items (by simp) c r hr
  refine ⟨_, ?_, hc⟩
  rcases hinside with ⟨hb, none⟩ | spelled
  · rw [none]
    exact .emptyArray hb
  · exact .array spelled

theorem took_object {d : Nat}
    (hvalue : ∀ c, Took c (value d c) fun bs v => SpellsBefore d bs (.padded v)) (c : Cursor) :
    Took c (container (member (value d)) '\x7d' .expectedMemberEnd c) fun bs ms =>
      Spells (d + 1) (parted [] '\x7b' bs) (.value (.ofMembers ms)) := by
  have members := took_entries .members '\x7d' .expectedMemberEnd (took_member hvalue)
    .lastMember .moreMembers
  intro r hr
  obtain ⟨bs, ⟨inside, hinside, rfl⟩, hc⟩ := took_container _ _ members (by simp) c r hr
  refine ⟨_, ?_, hc⟩
  rcases hinside with ⟨hb, none⟩ | spelled
  · rw [none]
    exact .emptyObject hb
  · exact .object spelled (collects_iff.mpr rfl)

/-- A value is read as it is spelled if the values inside its containers are. -/
theorem took_valueHere {d : Nat}
    (hnested : ∀ d', d = d' + 1 → ∀ c,
      Took c (value d' c) fun bs v => SpellsBefore d' bs (.padded v)) (c : Cursor) :
    Took c (valueHere (nestedAt d) c) fun bs v => Spells d bs (.value v) := by
  unfold valueHere
  split
  · apply took_fail
  rename_i b c₁ hlt hnext
  have hc : c.rest = [b] ++ c₁.rest := Cursor.rest_of_next hnext
  split
  · rename_i brace
    subst brace
    cases d with
    | zero => apply took_fail
    | succ d => exact (took_object (hnested d rfl) c₁).behind hc _ _ fun _ _ spelled => spelled
  split
  · rename_i bracket
    subst bracket
    cases d with
    | zero => apply took_fail
    | succ d => exact (took_array (hnested d rfl) c₁).behind hc _ _ fun _ _ spelled => spelled
  split
  · exact (took_quoted _ c).widen _ _ fun _ _ spelled => .string spelled
  split
  · intro r hr
    obtain ⟨bs, ⟨n, hn, hv⟩, hrest⟩ := took_number c r hr
    exact ⟨bs, .number hn hv, hrest⟩
  · intro r hr
    obtain ⟨bs, hw, hrest⟩ := took_word hc hlt r hr
    exact ⟨bs, .word hw, hrest⟩

theorem took_value (d : Nat) (c : Cursor) :
    Took c (value d c) fun bs v => SpellsBefore d bs (.padded v) := by
  have padded {d : Nat} (hnested : ∀ d', d = d' + 1 → ∀ c,
      Took c (value d' c) fun bs v => SpellsBefore d' bs (.padded v)) (c : Cursor) :
      Took c (value d c) fun bs v => SpellsBefore d bs (.padded v) := by
    obtain ⟨before, hb, hc⟩ := c.blanks_skipBlanks
    rw [value_eq]
    apply (took_valueHere hnested c.skipBlanks).behind hc
    intro bs v spelled behind hbehind
    rw [List.append_assoc]
    exact .padded hb spelled hbehind
  -- The induction is on the budget, which is one less inside a container.
  induction d generalizing c with
  | zero =>
    apply padded
    intro d' h
    cases h
  | succ d ih =>
    apply padded
    intro d' h
    cases h
    exact ih

theorem spells_of_parse {bs : Bytes} {v : Value} (h : parse bs = .ok v) : SpellsDocument bs v := by
  unfold parse at h
  dsimp only at h
  split at h
  · cases h
  · split at h
    · cases h
    · rename_i v' c₁ _ hvalue
      split at h
      · rename_i ended
        cases h
        obtain ⟨before, hb, hstart⟩ := (Cursor.start bs).blanks_skipBlanks
        obtain ⟨behind, hbehind, hend⟩ := c₁.blanks_skipBlanks
        obtain ⟨core, spelled, hcore⟩ := took_value maxDepth _ _ hvalue
        have whole : bs = before ++ (core ++ behind) := by
          rw [List.isEmpty_iff.mp ended, List.append_nil] at hend
          rw [← hend, ← hcore, ← hstart]
          rfl
        rw [whole]
        exact (spelled behind hbehind).afterBlanks hb (by simp)
      · cases h

/-- A text is accepted exactly if it is in the grammar, with containers nested at most 512 deep, and
then it is read as the value that the grammar assigns to it. -/
theorem parse_eq_ok_iff (bs : Bytes) (v : Value) : parse bs = .ok v ↔ SpellsDocument bs v := by
  constructor
  · exact spells_of_parse
  · exact parse_of_spells

end CallAtlas.Json
