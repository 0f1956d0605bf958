import CallAtlas.Proofs.Token.Lookahead

/-! # Where a literal ends

A string, a sigil or a heredoc goes on to its closer and takes the ends of lines on the way into its
text. Where it ends in front of the end of a line, its closer is there, and so it is settled: no
closer holds a byte that ends a line.
-/
namespace CallAtlas

/-! ### Bodies -/

namespace LiteralForm

/-- The closer is no empty text, and none of its bytes ends a line or starts a comment. -/
def Marked (form : LiteralForm) : Prop :=
  form.closer ≠ [] ∧ ∀ b ∈ form.closer, b ∉ unclosing

variable {form : LiteralForm} {r : Bytes}

theorem Marked.not_mem_closer (h : form.Marked) : ∀ b ∈ lineEndBytes, b ∉ form.closer := by
  intro b hb inside
  exact h.2 b inside (unclosing_of_lineEnd b hb)

theorem Marked.isPrefixOf_nil (h : form.Marked) : form.closer.isPrefixOf [] = false := by
  obtain ⟨c, closer, hcloser⟩ := List.exists_cons_of_ne_nil h.1
  simp [hcloser]

theorem Marked.isPrefixOf_cons (h : form.Marked) {b : UInt8} (more : Bytes)
    (hb : b ∈ unclosing) : form.closer.isPrefixOf (b :: more) = false := by
  obtain ⟨c, closer, hcloser⟩ := List.exists_cons_of_ne_nil h.1
  have other : c ≠ b := fun same => h.2 b (by simp [hcloser, same]) hb
  simp [hcloser, List.isPrefixOf, other]

theorem closes?_append (marked : form.Marked) (lineStart : Bool) (h : EndsLine r) (y : Bytes) :
    form.closes? lineStart (y ++ r) = form.closes? lineStart y := by
  unfold closes?
  dsimp only
  rw [h.isPrefixOf_append marked.not_mem_closer, List.takeWhile_append]
  by_cases full : (y.takeWhile isIndent).length = y.length
  · -- Only blanks stand before the end of the line, and no closer stands behind them.
    obtain ⟨b, more, hdrop, hb⟩ := h.exists_drop_takeWhile isIndent (by decide) (by decide)
    have behind : (y ++ r).drop (y ++ r.takeWhile isIndent).length = b :: more := by
      rw [List.length_append, List.drop_length_add_append, hdrop]
    rw [if_pos full, behind, full, List.drop_length, marked.isPrefixOf_cons more hb,
      marked.isPrefixOf_nil]
    simp
  · rw [if_neg full, List.drop_append_of_le_length (length_takeWhile_le _ _),
      h.isPrefixOf_append marked.not_mem_closer]

theorem width_closes_pos (marked : form.Marked) {lineStart : Bool} {bs : Bytes} {width : Nat}
    (h : form.closes? lineStart bs = some width) : 0 < width := by
  have closer := List.length_pos_iff.mpr marked.1
  unfold closes? at h
  dsimp only at h
  split at h
  · split at h
    · obtain rfl := Option.some.inj h
      omega
    · cases h
  · split at h
    · obtain rfl := Option.some.inj h
      exact closer
    · cases h

theorem width_body_pos (marked : form.Marked) (lineStart : Bool) {bs : Bytes} (ne : bs ≠ []) :
    0 < (form.body lineStart bs).width := by
  fun_cases body form lineStart bs with
  | case1 => exact absurd rfl ne
  | case2 b more width h => exact width_closes_pos marked h
  | case3 => exact Nat.two_pos
  | case4 | case5 | case6 | case7 =>
    dsimp only [Body.after]
    omega

/-- One byte of a body in front of the end of a line, by questions about what stands before it. -/
theorem body_cons_append (marked : form.Marked) (h : EndsLine r) (lineStart : Bool) (b : UInt8)
    (more : Bytes) : form.body lineStart (b :: more ++ r) =
      match form.closes? lineStart (b :: more) with
      | some width => { value := [], width, ending := .closed }
      | none =>
        if form.interpolates && b == '#' && more.head? == some ('\x7b' : UInt8) then
          { value := [], width := 2, ending := .opened }
        else if b = '\\' then
          if form.escapes then
            let escape := Escape.decode (more ++ r)
            (form.body false ((more ++ r).drop escape.width)).after escape.value (1 + escape.width)
              escape.fault
          else if form.closer.isPrefixOf more then
            (form.body false ((more ++ r).drop form.closer.length)).after form.closer
              (1 + form.closer.length)
          else (form.body false (more ++ r)).after ['\\'] 1
        else (form.body (b == '\n') (more ++ r)).after [b] 1 := by
  have read := body.eq_2 form lineStart b (more ++ r)
  rw [← List.cons_append, closes?_append marked lineStart h, h.head?_append (by decide),
    h.isPrefixOf_append marked.not_mem_closer] at read
  exact read

/-- A body that ends in front of the end of a line is settled. -/
theorem settled_body (marked : form.Marked) {r₀ : Bytes} (h₀ : EndsLine r₀) {lineStart : Bool}
    {y : Bytes} (fits : (form.body lineStart (y ++ r₀)).width ≤ y.length) :
    Settled (form.body lineStart) y := by
  unfold Settled
  fun_induction body form lineStart y with
  | case1 lineStart =>
    have pos := width_body_pos marked lineStart h₀.ne_nil
    simp only [List.nil_append, List.length_nil] at fits
    omega
  | case2 lineStart b more width hclose =>
    intro r h
    rw [body_cons_append marked h, hclose]
  | case3 lineStart b more hclose hmark =>
    intro r h
    rw [body_cons_append marked h, hclose]
    exact if_pos hmark
  | case4 lineStart more hescapes escape hclose hmark ih =>
    -- The line does not end between the backslash and its byte: that byte is part of the body.
    obtain ⟨c, more, rfl⟩ : ∃ c cs, more = c :: cs := by
      cases more with
      | cons c cs => exact ⟨c, cs, rfl⟩
      | nil =>
        obtain ⟨b, after, rfl, -⟩ := h₀.exists_cons
        have pos := Escape.width_decode_pos b after
        rw [body_cons_append marked h₀, hclose] at fits
        simp only [hmark, hescapes, Body.after, Bool.false_eq_true, ↓reduceIte, List.nil_append,
          List.length_cons, List.length_nil] at fits
        omega
    have inside := Escape.width_decode_le (c :: more)
    have step : ∀ r, EndsLine r → form.body lineStart (('\\' : UInt8) :: c :: more ++ r) =
        (form.body false ((c :: more).drop escape.width ++ r)).after escape.value
          (1 + escape.width) escape.fault := by
      intro r h
      rw [body_cons_append marked h, hclose]
      simp only [hmark, hescapes, Bool.false_eq_true, ↓reduceIte]
      rw [Escape.settled_decode c more r h, List.drop_append_of_le_length inside]
    rw [step r₀ h₀] at fits
    intro r h
    rw [step r h, ih ?_ r h]
    simp only [Body.after, List.length_cons, List.length_drop] at fits inside ⊢
    omega
  | case5 lineStart more hescapes hprefix hclose hmark ih =>
    have inside := (List.isPrefixOf_iff_prefix.mp hprefix).length_le
    have step : ∀ r, EndsLine r → form.body lineStart (('\\' : UInt8) :: more ++ r) =
        (form.body false (more.drop form.closer.length ++ r)).after form.closer
          (1 + form.closer.length) := by
      intro r h
      rw [body_cons_append marked h, hclose]
      simp only [hmark, hescapes, hprefix, Bool.false_eq_true, ↓reduceIte]
      rw [List.drop_append_of_le_length inside]
    rw [step r₀ h₀] at fits
    intro r h
    rw [step r h, ih ?_ r h]
    simp only [Body.after, List.length_cons, List.length_drop] at fits ⊢
    omega
  | case6 lineStart more hescapes hprefix hclose hmark ih =>
    have step : ∀ r, EndsLine r → form.body lineStart (('\\' : UInt8) :: more ++ r) =
        (form.body false (more ++ r)).after ['\\'] 1 := by
      intro r h
      rw [body_cons_append marked h, hclose]
      simp only [hmark, hescapes, hprefix, Bool.false_eq_true, ↓reduceIte]
    rw [step r₀ h₀] at fits
    intro r h
    rw [step r h, ih ?_ r h]
    simp only [Body.after, List.length_cons] at fits
    omega
  | case7 lineStart b more hclose hmark hb ih =>
    have step : ∀ r, EndsLine r → form.body lineStart (b :: more ++ r) =
        (form.body (b == '\n') (more ++ r)).after [b] 1 := by
      intro r h
      rw [body_cons_append marked h, hclose]
      simp only [hmark, hb, Bool.false_eq_true, ↓reduceIte]
    rw [step r₀ h₀] at fits
    intro r h
    rw [step r h, ih ?_ r h]
    simp only [Body.after, List.length_cons] at fits
    omega

end LiteralForm

/-! ### Literals -/

namespace Scan

/-- The scanner is settled at `y` if what it finds there ends in front of the end of the line. -/
def Settles (f : Bytes → Lexeme × List Frame) (y : Bytes) : Prop :=
  ∀ r₀, EndsLine r₀ → (f (y ++ r₀)).1.width ≤ y.length → Settled f y

variable {r₀ : Bytes} {form : LiteralForm}

theorem le_width_fragment (form : LiteralForm) (starts : Bool) (opening : Nat) (rest : Bytes)
    (frames : List Frame) :
    opening + (form.body (form.heredoc && starts) rest).width ≤
      (fragment form starts opening rest frames).1.width := by
  unfold fragment
  dsimp only
  split
  · exact Nat.le_refl _
  · exact Nat.le_refl _
  · exact Nat.le_add_right _ _

theorem settled_fragment (marked : form.Marked) (h₀ : EndsLine r₀) {starts : Bool} {opening : Nat}
    {y : Bytes} {frames : List Frame}
    (fits : (fragment form starts opening (y ++ r₀) frames).1.width ≤ opening + y.length) :
    Settled (fragment form starts opening · frames) y := by
  intro r h
  have within := le_width_fragment form starts opening (y ++ r₀) frames
  have ends : (form.body (form.heredoc && starts) (y ++ r₀)).width ≤ y.length := by omega
  have body := LiteralForm.settled_body marked h₀ ends r h
  have inside := form.width_body_le (form.heredoc && starts) y
  unfold fragment
  dsimp only
  rw [body, List.drop_append_of_le_length inside, h.takeWhile_append isLetter (by decide)]

theorem opensHeredoc_append {r : Bytes} (h : EndsLine r) (y : Bytes) :
    opensHeredoc (y ++ r) = opensHeredoc y := by
  unfold opensHeredoc
  rw [h.firstOf_append (by decide)]

/-- Three quotes close a heredoc. -/
theorem marked_heredoc {y : Bytes} (opens : opensHeredoc y) (form : LiteralForm) :
    { form with closer := y.take 3, heredoc := true : LiteralForm }.Marked := by
  have closers : ∀ quotes ∈ [text "\"\"\"", text "'''"], quotes.length = 3 ∧ quotes ≠ [] ∧
      ∀ b ∈ quotes, b ∉ unclosing := by decide +kernel
  obtain ⟨quotes, found⟩ := Option.isSome_iff_exists.mp opens
  have starts : quotes.isPrefixOf y := by simpa using List.find?_some found
  obtain ⟨length, marked⟩ := closers quotes (List.mem_of_find?_eq_some found)
  obtain ⟨rest, rfl⟩ := List.isPrefixOf_iff_prefix.mp starts
  unfold LiteralForm.Marked
  dsimp only
  rwa [← length, List.take_left]

/-- Behind three quotes and blanks alone, the end of the line belongs to the heredoc. -/
theorem lt_width_heredoc {y : Bytes} (three : 3 ≤ y.length)
    (full : ((y.drop 3).takeWhile isMargin).length = (y.drop 3).length) (h : EndsLine r₀)
    (form : LiteralForm) (fault : LexicalFault) (before : Nat) (frames : List Frame) :
    before + y.length < (heredoc form fault before (y ++ r₀) frames).1.width := by
  have margin : ((y ++ r₀).drop 3).takeWhile isMargin = y.drop 3 ++ r₀.takeWhile isMargin := by
    rw [List.drop_append_of_le_length three, List.takeWhile_append, if_pos full]
  have width : 3 + (((y ++ r₀).drop 3).takeWhile isMargin).length =
      y.length + (r₀.takeWhile isMargin).length := by
    rw [margin, List.length_append, List.length_drop]
    omega
  unfold heredoc
  dsimp only
  rw [width]
  split
  · have opening := le_width_fragment { form with closer := (y ++ r₀).take 3, heredoc := true } true
      (before + (y.length + (r₀.takeWhile isMargin).length) + 1)
      ((y ++ r₀).drop (y.length + (r₀.takeWhile isMargin).length + 1)) frames
    omega
  · rename_i noFeed
    obtain ⟨b, more, rfl, hb⟩ := h.exists_cons
    have blank : isMargin b := by
      have others : ∀ b ∈ lineEndBytes, isMargin b = false → b = '\n' := by decide
      by_contra stop
      rw [Bool.not_eq_true] at stop
      obtain rfl := others b hb stop
      exact noFeed (by simp [peek, stop])
    have pos := length_takeWhile_pos more blank
    simp only [Lexeme.failed]
    omega

theorem settled_heredoc {y : Bytes} (opens : opensHeredoc y) (h₀ : EndsLine r₀)
    {fault : LexicalFault} {before : Nat} {frames : List Frame}
    (fits : (heredoc form fault before (y ++ r₀) frames).1.width ≤ before + y.length) :
    Settled (heredoc form fault before · frames) y := by
  have three := length_of_opensHeredoc opens
  by_cases full : ((y.drop 3).takeWhile isMargin).length = (y.drop 3).length
  · have beyond := lt_width_heredoc three full h₀ form fault before frames
    omega
  · let width := 3 + ((y.drop 3).takeWhile isMargin).length
    have inside : width < y.length := by
      have le := length_takeWhile_le isMargin (y.drop 3)
      simp only [List.length_drop] at le full
      omega
    have step : ∀ r, heredoc form fault before (y ++ r) frames =
        if peek y width == '\n' then
          fragment { form with closer := y.take 3, heredoc := true } true (before + width + 1)
            (y.drop (width + 1) ++ r) frames
        else (.failed fault (before + width), frames) := by
      intro r
      unfold heredoc
      dsimp only
      rw [List.drop_append_of_le_length three, List.takeWhile_append, if_neg full,
        peek_append r inside, List.take_append_of_le_length three,
        List.drop_append_of_le_length inside]
    rw [step] at fits
    intro r h
    have last := step []
    rw [List.append_nil, List.append_nil] at last
    dsimp only
    rw [step r, last]
    split
    · rename_i feed
      rw [if_pos feed] at fits
      refine settled_fragment (marked_heredoc opens form) h₀ (Nat.le_trans fits ?_) r h
      simp only [List.length_drop]
      omega
    · rfl

theorem marked_single {b : UInt8} (h : b ∉ unclosing) {form : LiteralForm}
    (closer : form.closer = [b]) : form.Marked := by
  unfold LiteralForm.Marked
  rw [closer]
  exact ⟨List.cons_ne_nil _ _, by simpa using h⟩

theorem quote_stop {b : UInt8} (h : b == '"' ∨ b == '\'') : b ∉ unclosing := by
  rcases h with h | h
  · rw [beq_iff_eq.mp h]
    decide
  · rw [beq_iff_eq.mp h]
    decide

/-- A string or charlist at the start of `bs`, or the key that it is with a colon behind it. -/
def keyed (bs : Bytes) (found : Lexeme × List Frame) : Lexeme × List Frame :=
  if found.1.kind == .string && peek bs found.1.width == ':' &&
      isSpaceOrEnd (peek bs (found.1.width + 1)) then
    ({ kind := .keywordKey, width := found.1.width + 1, value := found.1.value,
       faults := found.1.faults }, found.2)
  else found

theorem quoted_cons (container : Container) (c : UInt8) (bs : Bytes) (frames : List Frame) :
    quoted container (c :: bs) frames =
      if opensHeredoc (c :: bs) then
        heredoc { container, closer := [c] } .heredocOpening 0 (c :: bs) frames
      else keyed (c :: bs) (fragment { container, closer := [c] } true 1 bs frames) :=
  rfl

theorem le_width_keyed (bs : Bytes) (found : Lexeme × List Frame) :
    found.1.width ≤ (keyed bs found).1.width := by
  unfold keyed
  split
  · exact Nat.le_succ _
  · exact Nat.le_refl _

theorem keyed_append {r y : Bytes} (h : EndsLine r) {found : Lexeme × List Frame}
    (le : found.1.width ≤ y.length) : keyed (y ++ r) found = keyed y found := by
  unfold keyed
  rw [Bool.and_assoc, Bool.and_assoc,
    ask_two_append h (· == ':') isSpaceOrEnd (by decide) (by decide) le]

theorem settles_quoted {container : Container} {c : UInt8} (hc : c ∉ unclosing) {y : Bytes}
    {frames : List Frame} : Settles (quoted container · frames) (c :: y) := by
  have step : ∀ r, EndsLine r → quoted container (c :: y ++ r) frames =
      if opensHeredoc (c :: y) then
        heredoc { container, closer := [c] } .heredocOpening 0 (c :: y ++ r) frames
      else keyed (c :: y ++ r) (fragment { container, closer := [c] } true 1 (y ++ r) frames) := by
    intro r h
    rw [← opensHeredoc_append h]
    exact quoted_cons container c (y ++ r) frames
  intro r₀ h₀ fits r h
  dsimp only at fits ⊢
  rw [step r₀ h₀] at fits
  rw [step r h, quoted_cons]
  split
  · rename_i opens
    rw [if_pos opens] at fits
    exact settled_heredoc opens h₀ (by omega) r h
  · rename_i plain
    rw [if_neg plain] at fits
    have shorter := Nat.le_trans (le_width_keyed _ _) fits
    have literal : fragment { container, closer := [c] } true 1 (y ++ r) frames =
        fragment { container, closer := [c] } true 1 y frames := by
      refine settled_fragment (marked_single hc rfl) h₀ ?_ r h
      rwa [Nat.add_comm]
    have first : 1 ≤ (c :: y).length := Nat.succ_pos _
    have inside :
        (fragment { container, closer := [c] } true 1 y frames).1.width ≤ (c :: y).length :=
      (within_fragment { container, closer := [c] } true frames Nat.one_pos first).2
    rw [literal, keyed_append h inside]

/-- No delimiter of a sigil ends a line or starts a comment. -/
theorem delimiters_stop {b close : UInt8} (h : delimiters.lookup b = some close) :
    close ∉ unclosing := by
  have all : delimiters.all (fun pair => pair.2 ∉ unclosing) := by decide
  obtain ⟨before, behind, table, -⟩ := List.lookup_eq_some_iff.mp h
  have listed : (b, close) ∈ delimiters := by simp [table]
  simpa using List.all_eq_true.mp all (b, close) listed

/-- The name of the sigil at the start of `bs`. -/
def sigilName (bs : Bytes) : Bytes :=
  if Bytes.isUpper (peek bs 1) then
    (bs.drop 1).takeWhile fun b => Bytes.isUpper b || Bytes.isDigit b
  else (bs.drop 1).take 1

/-- A sigil behind the `before` bytes of its mark and its name. -/
def sigilText (form : LiteralForm) (before : Nat) (rest : Bytes) (frames : List Frame) :
    Lexeme × List Frame :=
  if opensHeredoc rest then heredoc form .sigilHeredocOpening before rest frames
  else
    match delimiters.lookup (peek rest 0) with
    | none => (.failed .sigilDelimiter before, frames)
    | some close => fragment { form with closer := [close] } true (before + 1) (rest.drop 1) frames

theorem sigil_eq (bs : Bytes) (frames : List Frame) :
    sigil bs frames =
      let decoded := !Bytes.isUpper (peek bs 1)
      sigilText
        { container := .sigil, closer := [], interpolates := decoded, escapes := decoded,
          sigilName := sigilName bs }
        (1 + (sigilName bs).length) (bs.drop (1 + (sigilName bs).length)) frames :=
  rfl

theorem settled_sigilText (h₀ : EndsLine r₀) {before : Nat} {y : Bytes} {frames : List Frame}
    (fits : (sigilText form before (y ++ r₀) frames).1.width ≤ before + y.length) :
    Settled (sigilText form before · frames) y := by
  have delimiter : ∀ r, EndsLine r →
      delimiters.lookup (peek (y ++ r) 0) = delimiters.lookup (peek y 0) :=
    fun r h => ask_append h (delimiters.lookup ·) (by decide) (Nat.zero_le _)
  intro r h
  unfold sigilText at fits ⊢
  rw [opensHeredoc_append h₀, delimiter r₀ h₀] at fits
  dsimp only
  rw [opensHeredoc_append h, delimiter r h]
  split
  · rename_i opens
    rw [if_pos opens] at fits
    exact settled_heredoc opens h₀ fits r h
  · rename_i plain
    rw [if_neg plain] at fits
    cases hclose : delimiters.lookup (peek y 0) with
    | none => rfl
    | some close =>
      have inside : 1 ≤ y.length :=
        lt_length_of_peek (fun c => (delimiters.lookup c).isSome) (by decide) (by simp [hclose])
      rw [hclose] at fits
      dsimp only at fits ⊢
      rw [List.drop_append_of_le_length inside] at fits ⊢
      refine settled_fragment (marked_single (delimiters_stop hclose) rfl) h₀ ?_ r h
      rw [List.length_drop]
      omega

theorem settles_sigil {c d : UInt8} {y : Bytes} {frames : List Frame} :
    Settles (sigil · frames) (c :: d :: y) := by
  have name : ∀ r, EndsLine r → sigilName (c :: d :: y ++ r) = sigilName (c :: d :: y) := by
    intro r h
    have first : peek (c :: d :: y ++ r) 1 = peek (c :: d :: y) 1 := rfl
    have upper := h.takeWhile_append (fun b => Bytes.isUpper b || Bytes.isDigit b) (by decide)
      (d :: y)
    unfold sigilName
    rw [first]
    exact if_congr Iff.rfl upper rfl
  have before : 1 + (sigilName (c :: d :: y)).length ≤ (c :: d :: y).length :=
    sigilName_le c (d :: y) _ _
  intro r₀ h₀ fits r h
  dsimp only at fits ⊢
  rw [sigil_eq, name r₀ h₀, List.drop_append_of_le_length before] at fits
  rw [sigil_eq, sigil_eq (c :: d :: y), name r h, List.drop_append_of_le_length before]
  refine settled_sigilText h₀ (Nat.le_trans fits ?_) r h
  rw [List.length_drop]
  omega

/-! ### Atoms and characters -/

/-- The width of the name behind a colon, with its mark. -/
def atomWidth (bs : Bytes) : Nat :=
  let plain := ((bs.drop 1).takeWhile fun b => continuesName b || b == '@').length
  let mark := peek bs (1 + plain)
  if mark == '?' || mark == '!' then plain + 1 else plain

theorem colon_cons (c d : UInt8) (bs : Bytes) (frames : List Frame) :
    colon (c :: d :: bs) frames =
      if d == ':' then ({ kind := .operator, width := 2 }, frames)
      else if d == '"' || d == '\'' then
        fragment { container := .atom, closer := [d], interpolates := false } true 2 bs frames
      else if startsName d || Bytes.isUpper d then
        ({ kind := .atom, width := 1 + atomWidth (c :: d :: bs),
           value := (d :: bs).take (atomWidth (c :: d :: bs)) }, frames)
      else
        match firstOf operatorAtoms (d :: bs) with
        | some op => ({ kind := .atom, width := 1 + op.length, value := op }, frames)
        | none => (.failed .strayColon 1, frames) :=
  rfl

theorem atomWidth_le (c : UInt8) (bs : Bytes) : atomWidth (c :: bs) ≤ bs.length := by
  have plain := length_takeWhile_le (fun b => continuesName b || b == '@') bs
  unfold atomWidth
  dsimp only
  split
  · rename_i hmark
    have inside := lt_length_of_peek (fun m => m == '?' || m == '!') (by decide) hmark
    simp only [List.drop_succ_cons, List.drop_zero, List.length_cons] at inside ⊢
    omega
  · exact plain

theorem settled_atomWidth (c : UInt8) (y : Bytes) : Settled atomWidth (c :: y) := by
  intro r h
  have plain := length_takeWhile_le (fun b => continuesName b || b == '@') y
  unfold atomWidth
  rw [List.drop_append_of_le_length (Nat.succ_pos _),
    h.takeWhile_append (fun b => continuesName b || b == '@') (by decide)]
  dsimp only
  rw [ask_append h (fun m => m == '?' || m == '!') (by decide)]
  simp only [List.drop_succ_cons, List.drop_zero, List.length_cons]
  omega

theorem settles_colon {c : UInt8} {y : Bytes} {frames : List Frame} :
    Settles (colon · frames) (c :: y) := by
  intro r₀ h₀ fits r h
  have atoms : firstOf operatorAtoms (y ++ r) = firstOf operatorAtoms y :=
    h.firstOf_append (by decide) y
  cases y with
  | nil =>
    obtain ⟨b, more, rfl, hb⟩ := h.exists_cons
    have stops : ∀ b ∈ lineEndBytes, (b == ':') = false ∧ (b == '"' || b == '\'') = false ∧
      (startsName b || Bytes.isUpper b) = false := by decide
    obtain ⟨hcolon, hquote, hname⟩ := stops b hb
    dsimp only [List.cons_append, List.nil_append] at atoms ⊢
    rw [colon_cons, hcolon, hquote, hname, atoms]
    rfl
  | cons d y =>
    have width := settled_atomWidth c (d :: y) r h
    have inside := atomWidth_le c (d :: y)
    dsimp only [List.cons_append] at fits atoms width ⊢
    rw [colon_cons] at fits
    rw [colon_cons, colon_cons, atoms, width, ← List.cons_append,
      List.take_append_of_le_length inside]
    split
    · rfl
    rename_i plain
    rw [if_neg plain] at fits
    split
    · rename_i quote
      rw [if_pos quote] at fits
      have stop := quote_stop (Bool.or_eq_true_iff.mp quote)
      refine settled_fragment (marked_single stop rfl) h₀ ?_ r h
      simp only [List.length_cons] at fits
      omega
    · rfl

theorem settles_character {c : UInt8} {y : Bytes} {frames : List Frame} :
    Settles (fun bs => (character bs, frames)) (c :: y) := by
  intro r₀ h₀ fits r h
  refine congrArg (·, frames) ?_
  cases y with
  | nil =>
    obtain ⟨b, more, rfl, hb⟩ := h.exists_cons
    have space : ∀ b ∈ lineEndBytes, isSpaceOrEnd b := by decide
    simp [character, space b hb]
  | cons d y =>
    unfold character at fits ⊢
    simp only [List.cons_append, List.drop_succ_cons, List.drop_zero] at fits ⊢
    split
    · rfl
    rename_i solid
    rw [if_neg solid] at fits
    split
    · rename_i escaped
      rw [if_pos escaped] at fits
      cases y with
      | nil =>
        obtain ⟨b, more, rfl, -⟩ := h₀.exists_cons
        have pos := Escape.width_decode_pos b more
        simp only [List.nil_append, List.length_cons, List.length_nil] at fits
        omega
      | cons e y => rw [Escape.settled_decode e y r h]
    · rename_i single
      rw [if_neg single] at fits
      have bytes : continuationBytes d ≤ y.length := by
        have pos := List.length_pos_iff.mpr h₀.ne_nil
        simp only [List.length_take, List.length_append, List.length_cons] at fits
        omega
      rw [List.take_append_of_le_length bytes]

end Scan
end CallAtlas
