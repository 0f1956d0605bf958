import CallAtlas.Proofs.Json.Grammar

/-! # Whatever is spelled is read

The reader takes every text of the grammar and gives the value that the grammar assigns to it. A
read is known by its value and by what it leaves; the lines and columns of the cursors play no part.
What follows a value decides whether a number goes on, so the lemmas assume that it is a blank, a
mark that ends an entry, or nothing.
-/
namespace CallAtlas.Json

/-- A read succeeds, gives `v` and leaves `rest`. -/
def Gives {m : Nat} {α : Type} (read : Except Error (Read m α)) (v : α) (rest : Bytes) : Prop :=
  ∃ r, read = .ok r ∧ r.value = v ∧ r.rest.rest = rest

theorem Gives.widen {m n : Nat} {α β : Type} {read : Except Error (Read m α)} {v : α}
    {rest : Bytes} (h : Gives read v rest) (f : α → β) (hle : m ≤ n) :
    Gives (read.map (·.widen f hle)) (f v) rest := by
  obtain ⟨r, rfl, rfl, rfl⟩ := h
  exact ⟨r.widen f hle, rfl, rfl, rfl⟩

/-- The text without the blanks before it. -/
def strip (bs : Bytes) : Bytes := bs.dropWhile Cursor.isBlank

namespace Cursor

theorem next_of_rest {c : Cursor} {b : UInt8} {bs : Bytes} (h : c.rest = b :: bs) :
    ∃ c₁ hlt, c.next? = some ⟨b, c₁, hlt⟩ ∧ c₁.rest = bs := by
  unfold next?
  split
  · rename_i hnil
    rw [hnil] at h
    cases h
  · rename_i b' bs' hcons
    rw [hcons] at h
    obtain ⟨rfl, rfl⟩ := List.cons.inj h
    exact ⟨c.past b' bs', by simp [size, rest_past, hcons], rfl, rest_past c b' bs'⟩

theorem next_of_nil {c : Cursor} (h : c.rest = []) : c.next? = none := by
  unfold next?
  split
  · rfl
  · rename_i hcons
    rw [hcons] at h
    cases h

theorem rest_skipBlanks (c : Cursor) : c.skipBlanks.rest = strip c.rest := by
  unfold strip
  fun_induction skipBlanks c with
  | case1 c h =>
    cases hr : c.rest with
    | nil => rfl
    | cons b bs =>
      obtain ⟨_, _, hn, _⟩ := next_of_rest hr
      rw [hn] at h
      cases h
  | case2 c b c₁ hlt h hb ih =>
    cases hr : c.rest with
    | nil => rw [next_of_nil hr] at h; cases h
    | cons b' bs =>
      obtain ⟨_, _, hn, hrest⟩ := next_of_rest hr
      rw [hn] at h
      cases h
      rw [ih, hrest, List.dropWhile_cons_of_pos hb]
  | case3 c b c₁ hlt h hb =>
    cases hr : c.rest with
    | nil => rw [next_of_nil hr] at h; cases h
    | cons b' bs =>
      obtain ⟨_, _, hn, hrest⟩ := next_of_rest hr
      rw [hn] at h
      cases h
      rw [List.dropWhile_cons_of_neg hb]

end Cursor

/-! ### Strings -/

theorem gives_hexNumber {digits rest : Bytes} (hd : ∀ d ∈ digits, (Bytes.hexDigit? d).isSome)
    (value : Nat) {c : Cursor} (hc : c.rest = digits ++ rest) :
    Gives (hexNumber digits.length value c)
      (digits.foldl (fun n d => n * 16 + (Bytes.hexDigit? d).getD 0) value) rest := by
  induction digits generalizing value c with
  | nil => exact ⟨_, rfl, rfl, hc⟩
  | cons d digits ih =>
    obtain ⟨first, more⟩ := List.forall_mem_cons.mp hd
    obtain ⟨n, hn⟩ := Option.isSome_iff_exists.mp first
    obtain ⟨c₁, hlt, hnext, hrest⟩ := Cursor.next_of_rest hc
    rw [List.length_cons, hexNumber, hnext]
    simp only [hn, List.foldl_cons, Option.getD_some]
    exact (ih more _ hrest).widen id _

theorem gives_escaped_unit {digits rest : Bytes} (length : digits.length = 4)
    (hd : ∀ d ∈ digits, (Bytes.hexDigit? d).isSome) {c : Cursor}
    (hc : c.rest = ('u' : UInt8) :: (digits ++ rest)) :
    Gives (escaped c) (unitBytes (hexValue digits)) rest := by
  rw [← utf8_hexValue length]
  obtain ⟨c₁, hlt, hnext, hrest⟩ := Cursor.next_of_rest hc
  have number := gives_hexNumber hd 0 hrest
  rw [length] at number
  rw [escaped, hnext]
  exact number.widen Bytes.utf8 _

/-- An escape and the rest of the string behind it. -/
theorem gives_stringBody_escape {c c₁ : Cursor} {hlt : c₁.size < c.size}
    (hnext : c.next? = some ⟨'\\', c₁, hlt⟩) {bytes s between rest : Bytes}
    (hescaped : Gives (escaped c₁) bytes between)
    (hbody : ∀ c₂ : Cursor, c₂.rest = between → Gives (stringBody c₂) s rest) :
    Gives (stringBody c) (bytes ++ s) rest := by
  obtain ⟨⟨bytes, c₂, hlt₂⟩, hesc, rfl, hrest⟩ := hescaped
  rw [stringBody, hnext]
  simp only [hesc]
  exact (hbody c₂ hrest).widen _ _

theorem gives_stringBody {inside s : Bytes} (h : SpellsText inside s) {c : Cursor} {rest : Bytes}
    (hc : c.rest = parted inside '"' rest) : Gives (stringBody c) s rest := by
  induction h generalizing c with
  | nil =>
    obtain ⟨c₁, hlt, hnext, hrest⟩ := Cursor.next_of_rest hc
    rw [stringBody, hnext]
    exact ⟨⟨[], c₁, hlt⟩, rfl, rfl, hrest⟩
  | plain quote control backslash _ ih =>
    obtain ⟨c₁, hlt, hnext, hrest⟩ := Cursor.next_of_rest hc
    rw [stringBody, hnext]
    simp only [quote, control, backslash, if_false]
    exact (ih hrest).widen _ _
  | letter hb _ ih =>
    obtain ⟨c₁, hlt, hnext, hrest⟩ := Cursor.next_of_rest hc
    rw [← List.singleton_append]
    refine gives_stringBody_escape hnext ?_ fun _ => ih
    obtain ⟨c₂, hlt₂, hnext₂, hrest₂⟩ := Cursor.next_of_rest hrest
    rw [escaped, hnext₂]
    simp only [simpleEscape?_eq_some.mpr hb]
    exact ⟨⟨_, c₂, hlt₂⟩, rfl, rfl, hrest₂⟩
  | unit length hd _ ih =>
    obtain ⟨c₁, hlt, hnext, hrest⟩ := Cursor.next_of_rest hc
    refine gives_stringBody_escape hnext (gives_escaped_unit length hd ?_) fun _ => ih
    rw [hrest]
    simp [parted]

theorem gives_quoted {bs s rest : Bytes} (h : SpellsString bs s) (fault : Fault) {c : Cursor}
    (hc : c.rest = bs ++ rest) : Gives (quoted fault c) s rest := by
  obtain ⟨inside, hi, rfl⟩ := h
  obtain ⟨c₁, hlt, hnext, hrest⟩ := Cursor.next_of_rest hc
  rw [quoted, hnext]
  refine (gives_stringBody hi ?_).widen id _
  rw [hrest]
  simp [parted]

/-! ### Numbers -/

theorem rest_skip_append (bs : Bytes) {rest : Bytes} {c : Cursor} (hc : c.rest = bs ++ rest) :
    (c.skip bs.length).rest = rest := by
  simp [Cursor.skip, hc]

/-- A run of digits ends before anything that is no digit. -/
theorem gives_digits {run rest : Bytes} (hd : Digits run)
    (hrest : ∀ b ∈ rest.head?, ¬ Bytes.isDigit b) (fault : Fault) {c : Cursor}
    (hc : c.rest = run ++ rest) : Gives (digits fault c) run rest := by
  have taken : c.rest.takeWhile Bytes.isDigit = run := by
    rw [hc, List.takeWhile_append_of_pos hd.2]
    cases rest with
    | nil => simp
    | cons b rest => rw [List.takeWhile_cons_of_neg (hrest b rfl), List.append_nil]
  unfold digits
  simp only [taken, hd.1, dite_false]
  exact ⟨_, rfl, rfl, rest_skip_append run hc⟩

theorem sees_cons {c : Cursor} {b : UInt8} {bs : Bytes} (hc : c.rest = b :: bs)
    (choices : Bytes) : sees c choices = choices.contains b := by
  simp [sees, hc]

theorem sees_eq_false {c : Cursor} {choices : Bytes} (h : ∀ b ∈ c.rest.head?, b ∉ choices) :
    sees c choices = false := by
  unfold sees
  cases hr : c.rest.head? with
  | none => rfl
  | some b =>
    simp only [Option.any_some, List.contains_eq_mem, decide_eq_false_iff_not]
    exact h b hr

theorem gives_fractionPart {bs rest : Bytes} {fraction : Option Bytes}
    (h : SpellsFraction bs fraction)
    (hrest : ∀ b ∈ rest.head?, ¬ Bytes.isDigit b ∧ b ≠ '.') {c : Cursor}
    (hc : c.rest = bs ++ rest) : Gives (fractionPart c) fraction rest := by
  unfold fractionPart
  cases fraction with
  | none =>
    obtain rfl := h
    rw [List.nil_append] at hc
    have unseen : sees c ['.'] = false := by
      refine sees_eq_false ?_
      intro b hb
      rw [hc] at hb
      simpa using (hrest b hb).2
    simp only [unseen, Bool.false_eq_true, if_false]
    exact ⟨_, rfl, rfl, hc⟩
  | some digits =>
    obtain ⟨hd, rfl⟩ := h
    have seen : sees c ['.'] := by
      rw [sees_cons hc]
      simp
    simp only [seen, if_true]
    have run : (c.skip 1).rest = digits ++ rest := rest_skip_append ['.'] hc
    exact (gives_digits hd (fun b hb => (hrest b hb).1) _ run).widen some _

theorem Digits.head {run : Bytes} (h : Digits run) (rest : Bytes) :
    ∀ b ∈ (run ++ rest).head?, Bytes.isDigit b := by
  obtain ⟨b, more, rfl⟩ := List.exists_cons_of_ne_nil h.1
  intro b' hb
  obtain rfl := Option.some.inj hb
  exact h.2 b List.mem_cons_self

theorem optional_skip {c : Cursor} {b : UInt8} {bs choices : Bytes} (hc : c.rest = b :: bs)
    (hb : b ∈ choices) : (optional c choices).rest = bs := by
  have seen : sees c choices := by
    rw [sees_cons hc]
    simpa using hb
  rw [optional, if_pos seen]
  exact rest_skip_append [b] hc

theorem optional_stay {c : Cursor} {choices : Bytes} (h : ∀ b ∈ c.rest.head?, b ∉ choices) :
    optional c choices = c := by
  rw [optional, sees_eq_false h]
  rfl

/-- The sign of an exponent, which may be left out. -/
theorem rest_sign {c : Cursor} {sign digits rest : Bytes} (hs : sign ∈ [[], text "+", text "-"])
    (hd : Digits digits) (hc : c.rest = sign ++ (digits ++ rest)) :
    (optional c ['+', '-']).rest = digits ++ rest ∧ (sees c ['-'] ↔ sign = text "-") := by
  simp only [List.mem_cons, List.not_mem_nil, or_false] at hs
  rcases hs with rfl | rfl | rfl
  · have noSign : ∀ b ∈ c.rest.head?, b ∉ (['+', '-'] : Bytes) := by
      intro b hb hmem
      have digit := hd.head rest b (hc ▸ hb)
      simp only [List.mem_cons, List.not_mem_nil, or_false] at hmem
      rcases hmem with rfl | rfl <;> exact absurd digit (by decide)
    have noMinus : sees c ['-'] = false := by
      refine sees_eq_false fun b hb hmem => noSign b hb ?_
      exact List.mem_cons_of_mem _ hmem
    rw [optional_stay noSign, noMinus]
    exact ⟨hc, by decide⟩
  · refine ⟨optional_skip hc (by decide), ?_⟩
    rw [sees_cons hc]
    decide
  · refine ⟨optional_skip hc (by decide), ?_⟩
    rw [sees_cons hc]
    decide

theorem gives_exponentPart {bs rest : Bytes} {exponent : Option Int}
    (h : SpellsExponent bs exponent)
    (hrest : ∀ b ∈ rest.head?, ¬ Bytes.isDigit b ∧ b ∉ text "eE") {c : Cursor}
    (hc : c.rest = bs ++ rest) : Gives (exponentPart c) exponent rest := by
  have marks : (['e', 'E'] : Bytes) = text "eE" := by decide
  unfold exponentPart
  cases exponent with
  | none =>
    obtain rfl := h
    rw [List.nil_append] at hc
    have unseen : sees c ['e', 'E'] = false := by
      refine sees_eq_false ?_
      intro b hb
      rw [hc] at hb
      rw [marks]
      exact (hrest b hb).2
    simp only [unseen, Bool.false_eq_true, if_false]
    exact ⟨_, rfl, rfl, hc⟩
  | some exponent =>
    obtain ⟨mark, sign, digits, hm, hs, hd, rfl, rfl⟩ := h
    have seen : sees c ['e', 'E'] := by
      rw [sees_cons hc, marks]
      simpa using hm
    have signed : (c.skip 1).rest = sign ++ (digits ++ rest) := by
      rw [← List.append_assoc]
      exact rest_skip_append [mark] hc
    obtain ⟨unsigned, minus⟩ := rest_sign hs hd signed
    simp only [seen, minus, if_true]
    exact (gives_digits hd (fun b hb => (hrest b hb).1) _ unsigned).widen
      (some ∘ fun run => if sign = text "-" then -(Bytes.readDecimal run : Int)
        else Bytes.readDecimal run) _

/-- What may follow a value: a blank, a mark that ends an entry, or nothing. -/
def Follows (rest : Bytes) : Prop := ∀ b ∈ rest.head?, Cursor.isBlank b ∨ b ∈ text ",]\x7d"

/-- No number goes on with what may follow a value. -/
theorem Follows.endsNumber {rest : Bytes} (h : Follows rest) :
    ∀ b ∈ rest.head?, ¬ Bytes.isDigit b ∧ b ≠ '.' ∧ b ∉ text "eE" := by
  intro b hb
  have choices : b ∈ text " \t\n\r,]\x7d" := by
    rcases h b hb with hb | hb
    · simp only [Cursor.isBlank, Bool.or_eq_true, beq_iff_eq] at hb
      rcases hb with ((rfl | rfl) | rfl) | rfl <;> decide
    · exact (show text ",]\x7d" ⊆ text " \t\n\r,]\x7d" by decide) hb
  have all : ∀ b ∈ text " \t\n\r,]\x7d", ¬ Bytes.isDigit b ∧ b ≠ '.' ∧ b ∉ text "eE" :=
    forall_mem_of_all (by decide)
  exact all b choices

theorem SpellsExponent.ends {bs rest : Bytes} {exponent : Option Int}
    (h : SpellsExponent bs exponent) (hrest : Follows rest) :
    ∀ b ∈ (bs ++ rest).head?, ¬ Bytes.isDigit b ∧ b ≠ '.' := by
  cases exponent with
  | none =>
    obtain rfl := h
    exact fun b hb => ⟨(hrest.endsNumber b hb).1, (hrest.endsNumber b hb).2.1⟩
  | some exponent =>
    obtain ⟨mark, sign, digits, hm, -, -, rfl, -⟩ := h
    intro b hb
    obtain rfl := Option.some.inj hb
    have all : ∀ b ∈ text "eE", ¬ Bytes.isDigit b ∧ b ≠ '.' := forall_mem_of_all (by decide)
    exact all mark hm

theorem SpellsFraction.ends {bs rest : Bytes} {fraction : Option Bytes}
    (h : SpellsFraction bs fraction) (hrest : ∀ b ∈ rest.head?, ¬ Bytes.isDigit b ∧ b ≠ '.') :
    ∀ b ∈ (bs ++ rest).head?, ¬ Bytes.isDigit b := by
  cases fraction with
  | none =>
    obtain rfl := h
    exact fun b hb => (hrest b hb).1
  | some digits =>
    obtain ⟨-, rfl⟩ := h
    intro b hb
    obtain rfl := Option.some.inj hb
    decide

/-- The sign of a number, which may be left out. -/
theorem rest_minus {c : Cursor} {negative : Bool} {digits rest : Bytes} (hd : Digits digits)
    (hc : c.rest = (if negative then text "-" else []) ++ (digits ++ rest)) :
    (optional c ['-']).rest = digits ++ rest ∧ sees c ['-'] = negative := by
  cases negative with
  | true =>
    refine ⟨optional_skip hc (by decide), ?_⟩
    rw [sees_cons hc]
    decide
  | false =>
    have noMinus : ∀ b ∈ c.rest.head?, b ∉ (['-'] : Bytes) := by
      intro b hb hmem
      have digit := hd.head rest b (hc ▸ hb)
      obtain rfl := List.mem_singleton.mp hmem
      exact absurd digit (by decide)
    rw [optional_stay noMinus]
    exact ⟨hc, sees_eq_false noMinus⟩

theorem gives_number {bs rest : Bytes} {n : Numeral} (h : SpellsNumber bs n)
    (hrest : Follows rest) {c : Cursor} (hc : c.rest = bs ++ rest) :
    Gives (number c) n.toValue rest := by
  obtain ⟨hw, fraction, exponent, hf, he, rfl⟩ := h
  simp only [List.append_assoc] at hc
  obtain ⟨unsigned, minus⟩ := rest_minus hw hc
  obtain ⟨⟨_, c₁, h₁⟩, hdigits, rfl, rest₁⟩ :=
    gives_digits hw (hf.ends (he.ends hrest)) .invalidNumber unsigned
  obtain ⟨⟨_, c₂, h₂⟩, hfraction, rfl, rest₂⟩ := gives_fractionPart hf (he.ends hrest) rest₁
  have ends : ∀ b ∈ rest.head?, ¬ Bytes.isDigit b ∧ b ∉ text "eE" := fun b hb =>
    ⟨(hrest.endsNumber b hb).1, (hrest.endsNumber b hb).2.2⟩
  unfold number
  simp only [hdigits, hfraction, minus]
  exact (gives_exponentPart he ends rest₂).widen
    (fun e => Numeral.toValue ⟨n.negative, n.whole, n.fraction, e⟩) _

/-! ### Blanks -/

theorem strip_append {blanks : Bytes} (h : Blank blanks) (rest : Bytes) :
    strip (blanks ++ rest) = strip rest :=
  List.dropWhile_append_of_pos fun b hb => isBlank_iff.mpr (h b hb)

/-- What a value, a key or the mark behind an entry starts with. -/
def StartsSolid (bs : Bytes) : Prop := ∃ b more, bs = b :: more ∧ ¬ Cursor.isBlank b

theorem StartsSolid.strip {bs : Bytes} (h : StartsSolid bs) (rest : Bytes) :
    strip (bs ++ rest) = bs ++ rest := by
  obtain ⟨b, more, rfl, hb⟩ := h
  exact List.dropWhile_cons_of_neg hb

theorem SpellsString.startsSolid {bs s : Bytes} (h : SpellsString bs s) : StartsSolid bs := by
  obtain ⟨inside, -, rfl⟩ := h
  exact ⟨_, _, rfl, by decide⟩

/-- No text of a value starts like the end of a container. -/
def StartsValue (bs : Bytes) : Prop := ∃ b more, bs = b :: more ∧ b ∉ text " \t\n\r,]\x7d"

theorem StartsValue.startsSolid {bs : Bytes} (h : StartsValue bs) : StartsSolid bs := by
  obtain ⟨b, more, rfl, hb⟩ := h
  refine ⟨b, more, rfl, ?_⟩
  intro hblank
  simp only [Cursor.isBlank, Bool.or_eq_true, beq_iff_eq] at hblank
  rcases hblank with ((rfl | rfl) | rfl) | rfl <;> exact absurd (by decide) hb

theorem Digits.startsValue {bs : Bytes} (h : Digits bs) (rest : Bytes) :
    StartsValue (bs ++ rest) := by
  obtain ⟨b, more, rfl⟩ := List.exists_cons_of_ne_nil h.1
  refine ⟨b, more ++ rest, rfl, ?_⟩
  intro hmem
  have none : ∀ b ∈ text " \t\n\r,]\x7d", ¬ Bytes.isDigit b := forall_mem_of_all (by decide)
  exact none b hmem (h.2 b List.mem_cons_self)

theorem Spells.startsValue {d : Nat} {bs : Bytes} {v : Value} (h : Spells d bs (.value v)) :
    StartsValue bs := by
  cases h with
  | word hw =>
    simp only [wordValues, List.mem_cons, List.not_mem_nil, or_false, Prod.mk.injEq] at hw
    rcases hw with ⟨rfl, -⟩ | ⟨rfl, -⟩ | ⟨rfl, -⟩ <;> exact ⟨_, _, rfl, by decide⟩
  | @number _ _ n _ hn _ =>
    obtain ⟨hw, fraction, exponent, -, -, rfl⟩ := hn
    cases n.negative with
    | true => exact ⟨'-', _, rfl, by decide⟩
    | false => exact hw.startsValue _
  | string hs =>
    obtain ⟨inside, -, rfl⟩ := hs
    exact ⟨_, _, rfl, by decide⟩
  | emptyArray _ => exact ⟨_, _, rfl, by decide⟩
  | array _ => exact ⟨_, _, rfl, by decide⟩
  | emptyObject _ => exact ⟨_, _, rfl, by decide⟩
  | object _ _ => exact ⟨_, _, rfl, by decide⟩

/-! ### Entries -/

section Entries

variable {α : Type}

/-- What may follow an entry: a mark that ends it, or nothing. -/
def EndsEntry (rest : Bytes) : Prop := ∀ b ∈ rest.head?, b ∈ text ",]\x7d"

theorem EndsEntry.strip {rest : Bytes} (h : EndsEntry rest) : strip rest = rest := by
  cases rest with
  | nil => rfl
  | cons b rest =>
    have none : ∀ b ∈ text ",]\x7d", ¬ Cursor.isBlank b := forall_mem_of_all (by decide)
    exact List.dropWhile_cons_of_neg (none b (h b rfl))

/-- `entry` reads `bs` as `a`. Blanks before it may have been skipped already, and those behind it
may be left. -/
def ReadsEntry (entry : (c : Cursor) → Except Error (Read c.size α)) (bs : Bytes) (a : α) : Prop :=
  ∀ c rest, strip c.rest = strip (bs ++ rest) → EndsEntry rest →
    ∃ r, entry c = .ok r ∧ r.value = a ∧ strip r.rest.rest = rest

/-- The same for entries up to a closing bracket. -/
def ReadsEntries (entry : (c : Cursor) → Except Error (Read c.size α)) (close : UInt8)
    (fault : Fault) (bs : Bytes) (as : List α) : Prop :=
  ∀ c rest, strip c.rest = strip (parted bs close rest) →
    Gives (entries entry close fault c) as rest

variable {entry : (c : Cursor) → Except Error (Read c.size α)} {close : UInt8} {fault : Fault}
  {bs others : Bytes} {a : α} {as : List α}

theorem ReadsEntry.last (h : ReadsEntry entry bs a) (hclose : close ∈ text "]\x7d") :
    ReadsEntries entry close fault bs [a] := by
  intro c rest hc
  have brackets : ∀ b ∈ text "]\x7d", b ≠ ',' := forall_mem_of_all (by decide)
  have comma : close ≠ ',' := brackets close hclose
  have ends : EndsEntry (close :: rest) := by
    intro b hb
    obtain rfl := Option.some.inj hb
    exact List.mem_cons_of_mem _ hclose
  obtain ⟨⟨_, c₁, h₁⟩, hentry, rfl, hrest⟩ := h c (close :: rest) hc ends
  have solid : c₁.skipBlanks.rest = close :: rest := by rw [Cursor.rest_skipBlanks, ← hrest]
  obtain ⟨c₂, h₂, hnext, rest₂⟩ := Cursor.next_of_rest solid
  rw [entries, hentry]
  simp only [hnext, comma, if_false, if_true]
  exact ⟨_, rfl, rfl, rest₂⟩

/-- Behind an entry and a comma the reader of entries starts again. -/
theorem ReadsEntry.entries_eq (h : ReadsEntry entry bs a) {c : Cursor} {tail : Bytes}
    (hc : strip c.rest = strip (bs ++ parted [] ',' tail)) :
    ∃ (c₁ : Cursor) (hle : c₁.size ≤ c.size), c₁.rest = tail ∧
      entries entry close fault c =
        (entries entry close fault c₁).map (·.widen (a :: ·) hle) := by
  have ends : EndsEntry (parted [] ',' tail) := by
    intro b hb
    obtain rfl := Option.some.inj hb
    decide
  obtain ⟨⟨_, c₁, h₁⟩, hentry, rfl, hrest⟩ := h c _ hc ends
  have solid : c₁.skipBlanks.rest = parted [] ',' tail := by
    rw [Cursor.rest_skipBlanks, ← hrest]
  obtain ⟨c₂, h₂, hnext, rest₂⟩ := Cursor.next_of_rest solid
  have := c₁.size_skipBlanks_le
  refine ⟨c₂, by omega, rest₂, ?_⟩
  rw [entries, hentry]
  simp only [hnext, if_true]

theorem ReadsEntry.more (h : ReadsEntry entry bs a)
    (hothers : ReadsEntries entry close fault others as) :
    ReadsEntries entry close fault (parted bs ',' others) (a :: as) := by
  intro c rest hc
  have start : strip c.rest = strip (bs ++ parted [] ',' (parted others close rest)) := by
    rw [hc]
    simp [parted]
  obtain ⟨c₁, hle, rest₁, heq⟩ := h.entries_eq start
  rw [heq]
  exact (hothers c₁ rest (by rw [rest₁])).widen _ _

/-- A container that does not close at once is read entry by entry. -/
theorem container_eq {blanks core : Bytes} (hb : Blank blanks) (hcore : StartsValue core)
    (hclose : close ∈ text "]\x7d") {c : Cursor} {rest : Bytes}
    (hc : c.rest = blanks ++ core ++ rest) :
    container entry close fault c =
        (entries entry close fault c.skipBlanks).map (·.widen id c.size_skipBlanks_le) ∧
      strip c.skipBlanks.rest = strip (blanks ++ core ++ rest) := by
  have start : c.skipBlanks.rest = core ++ rest := by
    rw [Cursor.rest_skipBlanks, hc, List.append_assoc, strip_append hb, hcore.startsSolid.strip]
  refine ⟨?_, by rw [start, List.append_assoc, strip_append hb]⟩
  obtain ⟨b, tail, rfl, hb⟩ := hcore
  obtain ⟨c₁, h₁, hnext, -⟩ := Cursor.next_of_rest start
  have other : b ≠ close := by
    rintro rfl
    exact hb ((show text "]\x7d" ⊆ text " \t\n\r,]\x7d" by decide) hclose)
  unfold Json.container
  simp only [hnext, other, if_false]

theorem ReadsEntries.container {blanks core : Bytes}
    (h : ReadsEntries entry close fault (blanks ++ core) as) (hb : Blank blanks)
    (hcore : StartsValue core) (hclose : close ∈ text "]\x7d") {c : Cursor} {rest : Bytes}
    (hc : c.rest = parted (blanks ++ core) close rest) :
    Gives (container entry close fault c) as rest := by
  obtain ⟨heq, start⟩ := container_eq hb hcore hclose hc
  rw [heq]
  exact (h c.skipBlanks rest start).widen id _

theorem gives_container_empty {blanks : Bytes} (hb : Blank blanks) (hclose : close ∈ text "]\x7d")
    {c : Cursor} {rest : Bytes} (hc : c.rest = parted blanks close rest) :
    Gives (container entry close fault c) [] rest := by
  have brackets : ∀ b ∈ text "]\x7d", ¬ Cursor.isBlank b := forall_mem_of_all (by decide)
  have solid : StartsSolid [close] := ⟨close, [], rfl, brackets close hclose⟩
  have start : c.skipBlanks.rest = close :: rest := by
    rw [Cursor.rest_skipBlanks, hc, parted]
    rw [strip_append hb]
    exact solid.strip rest
  obtain ⟨c₁, h₁, hnext, rest₁⟩ := Cursor.next_of_rest start
  unfold container
  simp only [hnext, if_true]
  exact ⟨_, rfl, rfl, rest₁⟩

end Entries

/-! ### Values -/

theorem gives_word {first : UInt8} {tail rest : Bytes} {v : Value}
    (hw : (first, tail, v) ∈ words) {c c₁ : Cursor} (hlt : c₁.size < c.size)
    (hc : c₁.rest = tail ++ rest) : Gives (word c first c₁ hlt) v rest := by
  have found : words.find? (fun w => w.1 == first && w.2.1.isPrefixOf c₁.rest) =
      some (first, tail, v) := by
    have starts : tail.isPrefixOf c₁.rest := List.isPrefixOf_iff_prefix.mpr ⟨rest, hc.symm⟩
    simp only [words, List.mem_cons, List.not_mem_nil, or_false, Prod.mk.injEq] at hw
    have firsts : ('t' : UInt8) ≠ 'f' ∧ ('t' : UInt8) ≠ 'n' ∧ ('f' : UInt8) ≠ 'n' := by decide
    rcases hw with ⟨rfl, rfl, rfl⟩ | ⟨rfl, rfl, rfl⟩ | ⟨rfl, rfl, rfl⟩
    all_goals simp [words, starts, firsts]
  unfold word
  rw [found]
  exact ⟨_, rfl, rfl, rest_skip_append tail hc⟩

/-- The reader of what stands inside a container. -/
def nestedAt : Nat → Option ValueReader
  | 0 => none
  | d + 1 => some (value d)

theorem value_eq (d : Nat) : value d = valueWithin (nestedAt d) := by
  cases d <;> rfl

/-- What the reader makes of the text of a phrase. -/
def IsRead (d : Nat) (bs : Bytes) : Phrase → Prop
  | .value v =>
    ∀ c rest, c.rest = bs ++ rest → Follows rest → Gives (valueHere (nestedAt d) c) v rest
  | .padded v => ReadsEntry (value d) bs v
  | .items vs => ReadsEntries (value d) ']' .expectedItemEnd bs vs
  | .member key v => ReadsEntry (member (value d)) bs (key, v)
  | .members ms => ReadsEntries (member (value d)) '\x7d' .expectedMemberEnd bs ms

theorem Follows.blanks {behind rest : Bytes} (hb : Blank behind) (hr : EndsEntry rest) :
    Follows (behind ++ rest) := by
  intro b hmem
  cases behind with
  | nil => exact .inr (hr b hmem)
  | cons b' behind =>
    obtain rfl := Option.some.inj hmem
    exact .inl (isBlank_iff.mpr (hb b' List.mem_cons_self))

theorem isRead_padded {d : Nat} {before bs behind : Bytes} {v : Value} (hb : Blank before)
    (hs : StartsValue bs) (h : IsRead d bs (.value v)) (hbehind : Blank behind) :
    IsRead d (before ++ (bs ++ behind)) (.padded v) := by
  intro c rest hc ends
  have start : c.skipBlanks.rest = bs ++ (behind ++ rest) := by
    rw [Cursor.rest_skipBlanks, hc]
    simp only [List.append_assoc]
    rw [strip_append hb, hs.startsSolid.strip]
  obtain ⟨r, hr, rfl, rest₁⟩ :=
    (h c.skipBlanks _ start (.blanks hbehind ends)).widen id c.size_skipBlanks_le
  refine ⟨r, ?_, rfl, ?_⟩
  · rw [value_eq]
    exact hr
  · rw [rest₁, strip_append hbehind, ends.strip]

/-- Behind a key and a colon the reader of a member reads a value. -/
theorem member_eq (read : ValueReader) {before key name between tail : Bytes}
    (hb : Blank before) (hk : SpellsString key name) (hbetween : Blank between) {c : Cursor}
    (hc : strip c.rest = strip (before ++ parted (key ++ between) ':' tail)) :
    ∃ (c₁ : Cursor) (hle : c₁.size ≤ c.size), c₁.rest = tail ∧
      member read c = (read c₁).map (·.widen (Prod.mk name) hle) := by
  have start : c.skipBlanks.rest = key ++ (between ++ parted [] ':' tail) := by
    rw [Cursor.rest_skipBlanks, hc, strip_append hb]
    simp only [parted, List.append_assoc]
    exact hk.startsSolid.strip _
  obtain ⟨⟨_, c₁, h₁⟩, hquoted, rfl, rest₁⟩ := gives_quoted hk .expectedKey start
  have solid : StartsSolid [(':' : UInt8)] := ⟨_, _, rfl, by decide⟩
  have colon : c₁.skipBlanks.rest = parted [] ':' tail := by
    rw [Cursor.rest_skipBlanks, rest₁, strip_append hbetween]
    exact solid.strip _
  obtain ⟨c₂, h₂, hnext, rest₂⟩ := Cursor.next_of_rest colon
  have := c.size_skipBlanks_le
  have := c₁.size_skipBlanks_le
  refine ⟨c₂, by omega, rest₂, ?_⟩
  unfold member
  simp only [hquoted, hnext, if_true]

theorem isRead_member {d : Nat} {before key name between bs : Bytes} {v : Value}
    (hb : Blank before) (hk : SpellsString key name) (hbetween : Blank between)
    (h : IsRead d bs (.padded v)) :
    IsRead d (before ++ parted (key ++ between) ':' bs) (.member name v) := by
  intro c rest hc ends
  have start : strip c.rest = strip (before ++ parted (key ++ between) ':' (bs ++ rest)) := by
    rw [hc]
    simp [parted]
  obtain ⟨c₁, hle, rest₁, heq⟩ := member_eq (value d) hb hk hbetween start
  obtain ⟨r, hr, rfl, rest₂⟩ := h c₁ rest (by rw [rest₁]) ends
  rw [heq, hr]
  exact ⟨_, rfl, rfl, rest₂⟩

theorem isRead_word {d : Nat} {bs : Bytes} {v : Value} (h : (bs, v) ∈ wordValues) :
    IsRead d bs (.value v) := by
  intro c rest hc _
  rw [wordValues_eq] at h
  obtain ⟨⟨first, tail, v⟩, hw, rfl, rfl⟩ := List.mem_map.mp h
  obtain ⟨c₁, h₁, hnext, rest₁⟩ := Cursor.next_of_rest hc
  have firsts : ∀ w : UInt8, w ∈ words.map Prod.fst → w ≠ '\x7b' ∧ w ≠ '[' ∧ w ≠ '"' ∧ w ≠ '-' ∧
      Bytes.isDigit w = false := forall_mem_of_all (by decide)
  have other := firsts first (List.mem_map_of_mem hw)
  unfold valueHere
  simp only [hnext, other, if_false, decide_false, Bool.or_self, Bool.false_eq_true]
  exact gives_word hw h₁ rest₁

theorem SpellsNumber.first {bs : Bytes} {n : Numeral} (h : SpellsNumber bs n) :
    ∃ b more, bs = b :: more ∧ (b = '-' ∨ Bytes.isDigit b) := by
  obtain ⟨hw, fraction, exponent, -, -, rfl⟩ := h
  cases n.negative with
  | true => exact ⟨'-', _, rfl, .inl rfl⟩
  | false =>
    obtain ⟨b, more, hm⟩ := List.exists_cons_of_ne_nil hw.1
    rw [hm]
    exact ⟨b, _, rfl, .inr (hw.2 b (by simp [hm]))⟩

theorem isRead_number {d : Nat} {bs : Bytes} {n : Numeral} {v : Value} (h : SpellsNumber bs n)
    (hv : n.Denotes v) : IsRead d bs (.value v) := by
  obtain rfl := Numeral.eq_toValue_of_denotes hv
  intro c rest hc follows
  have read := gives_number h follows hc
  obtain ⟨b, more, rfl, hb⟩ := h.first
  obtain ⟨c₁, h₁, hnext, -⟩ := Cursor.next_of_rest hc
  have other : b ≠ '\x7b' ∧ b ≠ '[' ∧ b ≠ '"' := by
    refine ⟨?_, ?_, ?_⟩ <;> rintro rfl <;> exact absurd hb (by decide)
  unfold valueHere
  simp only [hnext, other, if_false, Bool.or_eq_true, decide_eq_true_eq, hb, if_true]
  exact read

theorem isRead_string {d : Nat} {bs s : Bytes} (h : SpellsString bs s) :
    IsRead d bs (.value (.string s)) := by
  intro c rest hc _
  have read := gives_quoted h (.unexpected '"') hc
  obtain ⟨inside, -, rfl⟩ := h
  obtain ⟨c₁, h₁, hnext, -⟩ := Cursor.next_of_rest hc
  have other : ('"' : UInt8) ≠ '\x7b' ∧ ('"' : UInt8) ≠ '[' := by decide
  unfold valueHere
  simp only [hnext, other, if_false, if_true]
  exact read.widen Value.string _

/-- An array is read by what reads its inside. -/
theorem valueHere_bracket (d : Nat) {c : Cursor} {tail : Bytes}
    (hc : c.rest = parted [] '[' tail) :
    ∃ (c₁ : Cursor) (hle : c₁.size ≤ c.size), c₁.rest = tail ∧
      valueHere (nestedAt (d + 1)) c =
        (container (value d) ']' .expectedItemEnd c₁).map (·.widen .array hle) := by
  obtain ⟨c₁, h₁, hnext, rest₁⟩ := Cursor.next_of_rest hc
  have other : ('[' : UInt8) ≠ '\x7b' := by decide
  refine ⟨c₁, by omega, rest₁, ?_⟩
  unfold valueHere nestedAt
  simp only [hnext, other, if_false, if_true]

theorem valueHere_brace (d : Nat) {c : Cursor} {tail : Bytes}
    (hc : c.rest = parted [] '\x7b' tail) :
    ∃ (c₁ : Cursor) (hle : c₁.size ≤ c.size), c₁.rest = tail ∧
      valueHere (nestedAt (d + 1)) c =
        (container (member (value d)) '\x7d' .expectedMemberEnd c₁).map
          (·.widen .ofMembers hle) := by
  obtain ⟨c₁, h₁, hnext, rest₁⟩ := Cursor.next_of_rest hc
  refine ⟨c₁, by omega, rest₁, ?_⟩
  unfold valueHere nestedAt
  simp only [hnext, if_true]

theorem isRead_array {d : Nat} {bs : Bytes} {vs : List Value}
    (h : ∀ c rest, c.rest = parted bs ']' rest →
      Gives (container (value d) ']' .expectedItemEnd c) vs rest) :
    IsRead (d + 1) (enclosed '[' bs ']') (.value (.array vs)) := by
  intro c rest hc _
  have start : c.rest = parted [] '[' (parted bs ']' rest) := by
    rw [hc]
    simp [enclosed, parted]
  obtain ⟨c₁, hle, rest₁, heq⟩ := valueHere_bracket d start
  rw [heq]
  exact (h c₁ rest rest₁).widen Value.array _

theorem isRead_object {d : Nat} {bs : Bytes} {ms t : List (Bytes × Value)}
    (table : Collects ms t) (h : ∀ c rest, c.rest = parted bs '\x7d' rest →
      Gives (container (member (value d)) '\x7d' .expectedMemberEnd c) ms rest) :
    IsRead (d + 1) (enclosed '\x7b' bs '\x7d') (.value (.object t)) := by
  rw [← collects_iff.mp table]
  intro c rest hc _
  have start : c.rest = parted [] '\x7b' (parted bs '\x7d' rest) := by
    rw [hc]
    simp [enclosed, parted]
  obtain ⟨c₁, hle, rest₁, heq⟩ := valueHere_brace d start
  rw [heq]
  exact (h c₁ rest rest₁).widen Value.ofMembers _

/-- The text of one or more entries starts with blanks and a value or key. -/
theorem Spells.startsEntry {d : Nat} {bs : Bytes} {p : Phrase} (h : Spells d bs p) :
    (∀ v, p ≠ .value v) → ∃ blanks core, bs = blanks ++ core ∧ Blank blanks ∧ StartsValue core := by
  induction h with
  | padded hb h _ _ =>
    intro _
    obtain ⟨b, more, rfl, hs⟩ := h.startsValue
    exact ⟨_, _, rfl, hb, b, _, rfl, hs⟩
  | lastItem _ ih => exact fun _ => ih (by simp)
  | moreItems _ _ ih _ =>
    intro _
    obtain ⟨blanks, core, rfl, hb, b, more, rfl, hs⟩ := ih (by simp)
    exact ⟨blanks, _, List.append_assoc _ _ _, hb, b, _, rfl, hs⟩
  | member hb hk _ _ _ =>
    intro _
    obtain ⟨inside, -, rfl⟩ := hk
    exact ⟨_, _, rfl, hb, _, _, rfl, by decide⟩
  | lastMember _ ih => exact fun _ => ih (by simp)
  | moreMembers _ _ ih _ =>
    intro _
    obtain ⟨blanks, core, rfl, hb, b, more, rfl, hs⟩ := ih (by simp)
    exact ⟨blanks, _, List.append_assoc _ _ _, hb, b, _, rfl, hs⟩
  | _ => exact fun h => absurd rfl (h _)

/-- Whatever is spelled is read. -/
theorem Spells.isRead {d : Nat} {bs : Bytes} {p : Phrase} (h : Spells d bs p) : IsRead d bs p := by
  induction h with
  | word hw => exact isRead_word hw
  | number hn hv => exact isRead_number hn hv
  | string hs => exact isRead_string hs
  | emptyArray hb =>
    exact isRead_array fun c rest hc => gives_container_empty hb (by decide) hc
  | array h ih =>
    obtain ⟨blanks, core, rfl, hb, hcore⟩ := h.startsEntry (by simp)
    exact isRead_array fun c rest hc => ih.container hb hcore (by decide) hc
  | emptyObject hb =>
    exact isRead_object collects_nil fun c rest hc => gives_container_empty hb (by decide) hc
  | object h table ih =>
    obtain ⟨blanks, core, rfl, hb, hcore⟩ := h.startsEntry (by simp)
    exact isRead_object table fun c rest hc => ih.container hb hcore (by decide) hc
  | padded hb h hbehind ih => exact isRead_padded hb h.startsValue ih hbehind
  | lastItem _ ih => exact ih.last (by decide)
  | moreItems _ _ first more => exact first.more more
  | member hb hk hbetween _ ih => exact isRead_member hb hk hbetween ih
  | lastMember _ ih => exact ih.last (by decide)
  | moreMembers _ _ first more => exact first.more more

/-- Where the reader of a document starts. -/
theorem Spells.start {d : Nat} {bs : Bytes} {v : Value} (h : Spells d bs (.padded v)) :
    (Cursor.start bs).skipBlanks.rest.isEmpty = false ∧
      strip (Cursor.start bs).skipBlanks.rest = strip (bs ++ []) := by
  obtain ⟨blanks, core, rfl, hb, b, more, rfl, hs⟩ := h.startsEntry (by simp)
  have solid : StartsSolid (b :: more) := StartsValue.startsSolid ⟨b, more, rfl, hs⟩
  have start : (Cursor.start (blanks ++ b :: more)).skipBlanks.rest = b :: more := by
    rw [Cursor.rest_skipBlanks]
    change strip (blanks ++ b :: more) = _
    rw [strip_append hb]
    simpa using solid.strip []
  constructor
  · rw [start]
    rfl
  · rw [start, List.append_nil, strip_append hb]

/-- Every document is read as the value that it spells. -/
theorem parse_of_spells {bs : Bytes} {v : Value} (h : SpellsDocument bs v) : parse bs = .ok v := by
  obtain ⟨nonempty, start⟩ := Spells.start h
  obtain ⟨⟨_, c₁, h₁⟩, hr, rfl, hrest⟩ := h.isRead _ [] start (by simp [EndsEntry])
  have ended : c₁.skipBlanks.rest = [] := by rw [Cursor.rest_skipBlanks, hrest]
  unfold parse maxDepth
  simp only [nonempty, Bool.false_eq_true, if_false, hr, ended, List.isEmpty_nil, if_true]

end CallAtlas.Json
