import CallAtlas.Proofs.Token.TrailingText

/-! # Literals that quote a text

A backslash before each backslash, each `#` and each closing delimiter lets any text stand in a
literal: behind an opening delimiter it is read as one token, whose value is the text itself. So no
byte of it can end the literal early, start an embedded expression or open a heredoc.
-/
namespace CallAtlas

/-! ### Texts that are one token -/

/-- The whole text is read as one token of a kind with a value, without faults. -/
def ReadsAlone (bs : Bytes) (kind : Kind) (value : Bytes) : Prop :=
  ∀ name, ∃ token eof, tokenize ⟨name, bs⟩ = ([token, eof], []) ∧
    token.kind = kind ∧ token.value = value ∧ eof.kind = .eof

/-- A text is one token in one way at most. -/
theorem ReadsAlone.value_eq {bs value other : Bytes} {kind kind' : Kind}
    (h : ReadsAlone bs kind value) (h' : ReadsAlone bs kind' other) : value = other := by
  obtain ⟨token, eof, read, -, here, -⟩ := h []
  obtain ⟨token', eof', read', -, there, -⟩ := h' []
  rw [read, Prod.mk.injEq, List.cons.injEq] at read'
  rw [← here, read'.1.1, there]

/-- What scans to its own end is read alone. -/
theorem Lexer.readsAlone_of_scan {b : UInt8} {bs : Bytes} {lexeme : Lexeme}
    (solid : !isBlank b && b != '#' && b != '\\' && b != '\n')
    (scanned : scan (b :: bs) [] = (lexeme, [])) (width : lexeme.width = bs.length + 1)
    (faultless : lexeme.faults = []) : ReadsAlone (b :: bs) lexeme.kind lexeme.value := by
  intro name
  let lines := (Source.mk name (b :: bs)).lineTable
  have behind : tokensFrom lines lexeme.kind [] (0 + lexeme.width) ((b :: bs).drop lexeme.width) =
      ([place lines (0 + lexeme.width) [] {} { kind := .eof, width := 0 }], []) := by
    rw [width, ← List.length_cons, List.drop_length, tokensFrom_nil]
  exact ⟨_, _, tokensFrom_solid .newline solid scanned faultless behind, rfl, rfl, rfl⟩

/-! ### Escaped bodies -/

/-- The bytes with a meaning in a literal that ends at `close`. -/
def IsMark (close b : UInt8) : Prop := b = '\\' ∨ b = '#' ∨ b = close

instance (close b : UInt8) : Decidable (IsMark close b) :=
  inferInstanceAs (Decidable (_ ∨ _ ∨ _))

/-- A text with a backslash before each of its marks. -/
def escaped (close : UInt8) : Bytes → Bytes
  | [] => []
  | b :: s => if IsMark close b then '\\' :: b :: escaped close s else b :: escaped close s

/-- The delimiters that a literal on one line can end at. -/
def closingDelimiters : Bytes := text ")]\x7d>/|\"'"

theorem decode_mark {close b : UInt8} (hclose : close ∈ closingDelimiters) (mark : IsMark close b)
    (more : Bytes) : Escape.decode (b :: more) = ⟨[b], 1, none⟩ := by
  have own : ∀ b ∈ ('\\' : UInt8) :: '#' :: closingDelimiters,
      Escape.letters.lookup b = none ∧ b ≠ '\n' ∧ b ≠ 'x' ∧ b ≠ 'u' := by decide +kernel
  have listed : b ∈ ('\\' : UInt8) :: '#' :: closingDelimiters := by
    rcases mark with rfl | rfl | rfl
    · exact List.mem_cons_self
    · exact List.mem_cons_of_mem _ List.mem_cons_self
    · exact List.mem_cons_of_mem _ (List.mem_cons_of_mem _ hclose)
  obtain ⟨letter, feed, hx, hu⟩ := own b listed
  rw [Escape.decode, letter]
  dsimp only
  rw [if_neg feed, if_neg hx, if_neg hu]

namespace LiteralForm

variable {form : LiteralForm} {close : UInt8} (hclose : close ∈ closingDelimiters)
  (closer : form.closer = [close]) (line : form.heredoc = false)

include closer line

/-- Wherever the closer stands it ends the body, unless an escape takes it. -/
theorem closes?_single (lineStart : Bool) (b : UInt8) (more : Bytes) :
    form.closes? lineStart (b :: more) = if b = close then some 1 else none := by
  rw [closes?, line, closer]
  by_cases h : b = close
  · simp [h]
  · simp [h, Ne.symm h]

theorem body_plain {b : UInt8} (plain : ¬ IsMark close b) (lineStart : Bool) (more : Bytes) :
    form.body lineStart (b :: more) = (form.body (b == '\n') more).after [b] 1 := by
  simp only [IsMark, not_or] at plain
  obtain ⟨backslash, hash, other⟩ := plain
  rw [body, closes?_single closer line, if_neg other]
  simp [backslash, hash]

include hclose

/-- An escape is decoded, and the body goes on behind it. -/
theorem body_escape (escapes : form.escapes) (lineStart : Bool) (more : Bytes) :
    form.body lineStart ('\\' :: more) =
      let escape := Escape.decode more
      (form.body false (more.drop escape.width)).after escape.value (1 + escape.width)
        escape.fault := by
  have other : ('\\' : UInt8) ≠ close := by
    rintro rfl
    exact absurd hclose (by decide)
  have hash : (('\\' : UInt8) == '#') = false := by decide
  rw [body, closes?_single closer line, if_neg other]
  simp [escapes, hash]

theorem body_mark (escapes : form.escapes) {b : UInt8} (mark : IsMark close b) (lineStart : Bool)
    (more : Bytes) :
    form.body lineStart ('\\' :: b :: more) = (form.body false more).after [b] 2 := by
  rw [body_escape hclose closer line escapes, decode_mark hclose mark]
  rfl

/-- An escaped text is read up to its closer as the text itself. -/
theorem body_escaped (escapes : form.escapes) (s rest : Bytes) (lineStart : Bool) :
    form.body lineStart (escaped close s ++ close :: rest) =
      { value := s, width := (escaped close s).length + 1, ending := .closed } := by
  induction s generalizing lineStart with
  | nil =>
    rw [escaped, List.nil_append, body, closes?_single closer line, if_pos rfl]
    rfl
  | cons b s ih =>
    rw [escaped]
    split
    · rename_i mark
      rw [List.cons_append, List.cons_append, body_mark hclose closer line escapes mark, ih]
      simp [Body.after, shiftFaults]
      omega
    · rename_i plain
      rw [List.cons_append, body_plain closer line plain, ih]
      simp [Body.after, shiftFaults]
      omega

end LiteralForm

/-! ### Literals -/

/-- The delimiters of sigils. -/
inductive Delimiter where
  | round | square | curly | angle | slash | bar | double | single
  deriving DecidableEq, Repr

namespace Delimiter

def opening : Delimiter → UInt8
  | round => '(' | square => '[' | curly => '\x7b' | angle => '<'
  | slash => '/' | bar => '|' | double => '"' | single => '\''

def closing : Delimiter → UInt8
  | round => ')' | square => ']' | curly => '\x7d' | angle => '>'
  | slash => '/' | bar => '|' | double => '"' | single => '\''

end Delimiter

theorem Delimiter.closing_mem (d : Delimiter) : d.closing ∈ closingDelimiters := by
  cases d <;> decide

inductive Quote where
  | double | single
  deriving DecidableEq, Repr

namespace Quote

def mark : Quote → UInt8
  | double => '"'
  | single => '\''

/-- What the quote opens where nothing stands before it. -/
def container : Quote → Container
  | double => .string
  | single => .charlist

theorem mark_mem (q : Quote) : q.mark ∈ closingDelimiters := by
  cases q <;> decide

end Quote

/-- A literal on one line in which escapes are decoded: a string or charlist, a quoted atom, or a
sigil whose name is a lower-case letter. -/
inductive Enclosure where
  | quoted (quote : Quote)
  | atom (quote : Quote)
  | sigil (name : UInt8) (lower : Bytes.isLower name) (delimiter : Delimiter)

namespace Enclosure

def opening : Enclosure → Bytes
  | quoted quote => [quote.mark]
  | atom quote => [':', quote.mark]
  | sigil name _ delimiter => ['~', name, delimiter.opening]

def closing : Enclosure → UInt8
  | quoted quote => quote.mark
  | atom quote => quote.mark
  | sigil _ _ delimiter => delimiter.closing

def container : Enclosure → Container
  | quoted quote => quote.container
  | atom _ => .atom
  | sigil _ _ _ => .sigil

def sigilName : Enclosure → Bytes
  | quoted _ | atom _ => []
  | sigil name _ _ => [name]

/-- The text between the delimiters, and the closing one. -/
def inside (e : Enclosure) (s : Bytes) : Bytes := escaped e.closing s ++ [e.closing]

/-- The literal that stands for a text. -/
def literal (e : Enclosure) (s : Bytes) : Bytes := e.opening ++ e.inside s

/-- What the literal is scanned as. -/
def lexeme (e : Enclosure) (s : Bytes) : Lexeme :=
  { kind := e.container.kind, width := e.opening.length + (e.inside s).length, value := s
    container := e.container, sigilName := e.sigilName }

theorem width_lexeme (e : Enclosure) (s : Bytes) : (e.lexeme s).width = (e.literal s).length :=
  List.length_append.symm

/-- No literal starts with what may stand in a gap. -/
theorem literal_cons (e : Enclosure) (s : Bytes) : ∃ b bs, e.literal s = b :: bs ∧
    !Lexer.isBlank b && b != '#' && b != '\\' && b != '\n' := by
  cases e with
  | quoted quote => exact ⟨quote.mark, _, rfl, by cases quote <;> decide⟩
  | atom quote => exact ⟨':', _, rfl, by decide⟩
  | sigil name _ delimiter => exact ⟨'~', _, rfl, by decide⟩

theorem closing_mem (e : Enclosure) : e.closing ∈ closingDelimiters := by
  cases e with
  | quoted quote | atom quote => exact quote.mark_mem
  | sigil _ _ delimiter => exact delimiter.closing_mem

end Enclosure

namespace Scan

/-- The literal behind its opening delimiter. -/
theorem fragment_inside (e : Enclosure) {form : LiteralForm} (closer : form.closer = [e.closing])
    (line : form.heredoc = false) (escapes : form.escapes)
    (container : form.container = e.container) (sigilName : form.sigilName = e.sigilName)
    (s : Bytes) :
    fragment form true e.opening.length (e.inside s) [] = (e.lexeme s, []) := by
  have body := form.body_escaped e.closing_mem closer line escapes s [] (form.heredoc && true)
  unfold fragment
  dsimp only
  rw [Enclosure.inside, body]
  simp [shiftFaults, Enclosure.lexeme, Enclosure.inside, container, sigilName]

/-- No literal on one line looks like the opening of a heredoc. -/
theorem opensHeredoc_inside (quote : Quote) (s : Bytes) :
    opensHeredoc (quote.mark :: (Enclosure.quoted quote).inside s) = false := by
  have second {c : UInt8} (hc : c ≠ quote.mark) (more : Bytes) :
      opensHeredoc (quote.mark :: c :: more) = false := by
    have triples : [text "\"\"\"", text "'''"] =
        [Quote.double, Quote.single].map fun q => [q.mark, q.mark, q.mark] := by decide
    have apart : Quote.double.mark ≠ Quote.single.mark := by decide
    rw [opensHeredoc, firstOf, triples]
    cases quote <;> simp [List.isPrefixOf, Ne.symm hc, apart, apart.symm]
  cases s with
  | nil => cases quote <;> decide
  | cons b s =>
    rw [Enclosure.inside, escaped]
    split
    · exact second (by cases quote <;> decide) _
    · rename_i plain
      exact second (fun same => plain (.inr (.inr same))) _

/-- At the end of the text a literal is no keyword key. -/
theorem keyed_end {bs : Bytes} {found : Lexeme × List Frame} (h : found.1.width = bs.length) :
    keyed bs found = found := by
  have zero : (0 : UInt8) ≠ ':' := by decide
  unfold keyed
  rw [if_neg]
  simp [peek, h, zero]

theorem scan_quoted (quote : Quote) (s : Bytes) :
    scan ((Enclosure.quoted quote).literal s) [] = ((Enclosure.quoted quote).lexeme s, []) := by
  have here : scan (quote.mark :: (Enclosure.quoted quote).inside s) [] =
      Scan.quoted quote.container (quote.mark :: (Enclosure.quoted quote).inside s) [] := by
    cases quote <;> rfl
  let form : LiteralForm := { container := quote.container, closer := [quote.mark] }
  have closer : form.closer = [quote.mark] := rfl
  have body := fragment_inside (Enclosure.quoted quote) closer rfl rfl rfl rfl s
  change scan (quote.mark :: (Enclosure.quoted quote).inside s) [] = _
  rw [here, quoted_cons, opensHeredoc_inside, if_neg Bool.false_ne_true]
  refine (congrArg (keyed _) body).trans (keyed_end ?_)
  exact (Enclosure.quoted quote).width_lexeme s

theorem scan_atom (quote : Quote) (s : Bytes) :
    scan ((Enclosure.atom quote).literal s) [] = ((Enclosure.atom quote).lexeme s, []) := by
  have here : scan ((Enclosure.atom quote).literal s) [] =
      fragment { container := .atom, closer := [quote.mark], interpolates := false } true 2
        ((Enclosure.atom quote).inside s) [] := by
    cases quote <;> rfl
  rw [here]
  exact fragment_inside (Enclosure.atom quote) rfl rfl rfl rfl rfl s

theorem isUpper_of_isLower {b : UInt8} (h : Bytes.isLower b) : Bytes.isUpper b = false := by
  have between : ('Z' : UInt8) < 'a' := by decide
  simp only [Bytes.isLower, Bool.and_eq_true, decide_eq_true_eq] at h
  simp only [Bytes.isUpper, Bool.and_eq_false_iff, decide_eq_false_iff_not, UInt8.not_le]
  exact .inr (UInt8.lt_of_lt_of_le between h.1)

theorem scan_sigil {name : UInt8} (lower : Bytes.isLower name) (delimiter : Delimiter) (s : Bytes) :
    scan ((Enclosure.sigil name lower delimiter).literal s) [] =
      ((Enclosure.sigil name lower delimiter).lexeme s, []) := by
  let e := Enclosure.sigil name lower delimiter
  let form : LiteralForm := { container := .sigil, closer := [], sigilName := [name] }
  have upper := isUpper_of_isLower lower
  have named : sigilName (e.literal s) = [name] := by
    simp [sigilName, peek, upper, e, Enclosure.literal, Enclosure.opening]
  have letter : scan (e.literal s) [] =
      if isLetter name then Scan.sigil (e.literal s) [] else operatorIn (e.literal s) [] := rfl
  have here : scan (e.literal s) [] = sigilText form 2 (delimiter.opening :: e.inside s) [] := by
    rw [letter, isLetter, lower, Bool.true_or, if_pos rfl, sigil_eq, named]
    simp [peek, upper, e, Enclosure.literal, Enclosure.opening, form]
  have heredoc : opensHeredoc (delimiter.opening :: e.inside s) = false := by
    cases delimiter with
    | double => exact opensHeredoc_inside .double s
    | single => exact opensHeredoc_inside .single s
    | _ => rfl
  have close : delimiters.lookup delimiter.opening = some delimiter.closing := by
    cases delimiter <;> decide
  rw [here, sigilText, heredoc, if_neg Bool.false_ne_true]
  have first : peek (delimiter.opening :: e.inside s) 0 = delimiter.opening := rfl
  rw [first, close]
  exact fragment_inside e rfl rfl rfl rfl rfl s

theorem scan_literal (e : Enclosure) (s : Bytes) : scan (e.literal s) [] = (e.lexeme s, []) := by
  cases e with
  | quoted quote => exact scan_quoted quote s
  | atom quote => exact scan_atom quote s
  | sigil name lower delimiter => exact scan_sigil lower delimiter s

end Scan

example : (Enclosure.quoted .double).literal (text "\"#\x7b") = text "\"\\\"\\#\x7b\"" := by decide

end CallAtlas
