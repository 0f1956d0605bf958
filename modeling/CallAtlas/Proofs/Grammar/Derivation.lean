import CallAtlas.Grammar.Expression

/-! # Which trees a list of tokens can stand for

`Derives ts p` says that the tokens `ts`, all of them and in this order, make up the phrase `p`. The
rules tell for every construct which tokens it is written with and which tree it becomes. They leave
open what decides between readings of a text: the levels of operators, where a block attaches, how
deep expressions nest and where a line must end. Line breaks and commas may stand around any phrase,
and the regions of trees are not looked at.

Every tree that the grammar reads is derived from the tokens it was read from, so whatever the rules
keep is true of all trees.
-/
namespace CallAtlas.Grammar

/-- What a list of tokens can make up. -/
inductive Phrase where
  /-- An expression, or a pair of key and value. -/
  | term (t : Tree)
  /-- Terms one behind the other, with or without delimiters around all of them. -/
  | entries (ts : List Tree)
  /-- The `do` block behind a call, if there is one. -/
  | attached (blocks : List Tree)
  | line (l : Line)
  | lines (ls : List Line)
  /-- The sections of a `do` block behind its first one. -/
  | sections (pairs : List Tree)
  /-- The text and the expressions of a literal behind its opening fragment. -/
  | parts (text : Bytes) (ts : List Tree)

/-- Tokens that only keep others apart. -/
def Separates (t : Token) : Prop := t.kind = .newline ∨ t.kind = .comma

/-- An opening delimiter and its own closing one. -/
def Delimits (first last : Token) : Prop :=
  (first.kind, last.kind) ∈ [(Kind.lparen, Kind.rparen), (.lbracket, .rbracket),
    (.lbrace, .rbrace), (.binOpen, .binClose)]

/-- The tree of a token that is a term by itself. -/
def word? (t : Token) : Option Tree :=
  match t.kind with
  | .identifier => some (leaf .var t t.value)
  | .alias => some (reference t)
  | .moduleSelf => some (moduleSelf t)
  | .atom => some (leaf .atom t t.value)
  | .kwTrue | .kwFalse | .kwNil => some (leaf .atom t t.lexeme)
  | .integer | .char => some (leaf .integer t t.value)
  | .float => some (leaf .float t t.value)
  | .string | .charlist | .sigil => some (plainText t)
  | .operator => if t.isOp "..." then some (leaf .var t t.lexeme) else none
  | _ => none

/-- The tokens of a binary operator. -/
inductive Operates : List Token → Operator → Prop
  | single {t op} : Operator.ofToken? t = some op → Operates [t] op
  | notIn {first second} : first.kind = .kwNot → second.kind = .kwIn →
      Operates [first, second] .notIn

/-- The token and the name of an operator before its operand. -/
def Precedes (t : Token) (name : Bytes) : Prop :=
  unaryName? t = some name ∨ t.isOp "&" ∧ name = text "&"

/-- The name that a token behind a dot gives to a member. -/
def memberName (t : Token) : Bytes := if t.value.isEmpty then t.lexeme else t.value

/-- One line before what has been put together of the lines behind it: the statements before the
first clause, and the clauses. -/
def addLine (found : List Tree × List Tree) : Line → List Tree × List Tree
  | .statement t => (t :: found.1, found.2)
  | .clause head span arrow =>
    let body : Tree := { form := .block, span := arrow, children := found.1 }
    ([], { form := .clause, span, children := [head, body] } :: found.2)

/-- The statements before the first clause, and the clauses, of a list of lines. -/
def assembled : List Line → List Tree × List Tree
  | [] => ([], [])
  | l :: ls => addLine (assembled ls) l

theorem assemble_eq (ls : List Line) : assemble ls = (assembled ls).1 ++ (assembled ls).2 := by
  have folded : ls.foldr (fun l found => addLine found l) ([], []) = assembled ls := by
    induction ls with
    | nil => rfl
    | cons l ls ih =>
      rw [List.foldr_cons, ih]
      rfl
  exact congrArg (fun found => found.1 ++ found.2) folded

/-- The block of a list of lines. -/
def blockOf (span : Span) (ls : List Line) : Tree :=
  { form := .block, span, children := assemble ls }

/-- A section of a `do` block. -/
def sectionOf (name : Bytes) (span inner : Span) (ls : List Line) : Tree :=
  { form := .pair, span, children := [{ form := .atom, span, name }, blockOf inner ls] }

/-- The literal of an opening fragment and what follows it. -/
def literalOf (opening : Token) (span : Span) (more : Bytes) (children : List Tree) : Tree :=
  let body : Tree :=
    { form := if opening.container = .charlist then .charlist else .string
      span, name := opening.value ++ more, children, interpolated := true }
  if opening.container = .sigil then
    { form := .sigil, span, name := opening.sigilName, children := [body] }
  else body

inductive Derives : List Token → Phrase → Prop
  -- Separators may stand before and behind a phrase.
  | before {s ts p} : Separates s → Derives ts p → Derives (s :: ts) p
  | behind {s ts p} : Separates s → Derives ts p → Derives (ts ++ [s]) p
  -- Terms in a row.
  | noEntry : Derives [] (.entries [])
  | entry {ts t} : Derives ts (.term t) → Derives ts (.entries [t])
  | append {ts us vs ws} : Derives ts (.entries vs) → Derives us (.entries ws) →
      Derives (ts ++ us) (.entries (vs ++ ws))
  | delimited {first last ts vs} : Delimits first last → Derives ts (.entries vs) →
      Derives (first :: ts ++ [last]) (.entries vs)
  -- Literals and containers.
  | word {t tree} : word? t = some tree → Derives [t] (.term tree)
  | literal {opening ts more vs span} : opening.kind = .interpStart →
      Derives ts (.parts more vs) →
      Derives (opening :: ts) (.term (literalOf opening span more vs))
  | lastPart {t} : t.kind = .interpEnd → Derives [t] (.parts t.value [])
  | innerPart {t ts more vs} : t.kind = .interpMiddle → Derives ts (.parts more vs) →
      Derives (t :: ts) (.parts (t.value ++ more) vs)
  | embedded {ts us t more vs} : Derives ts (.term t) → Derives us (.parts more vs) →
      Derives (ts ++ us) (.parts more (t :: vs))
  | container {form ts vs span} : form ∈ [Form.list, .tuple, .bitstring] →
      Derives ts (.entries vs) → Derives ts (.term { form, span, children := vs })
  | map {mark ts vs span} : mark.kind = .percent → Derives ts (.entries vs) →
      Derives (mark :: ts) (.term { form := .map, span, children := vs })
  | struct {mark ts us name vs span inner} : mark.kind = .percent → Derives ts (.term name) →
      Derives us (.entries vs) →
      Derives (mark :: (ts ++ us))
        (.term { form := .struct, span
                 children := [name, { form := .map, span := inner, children := vs }] })
  | pair {key ts t span} : key.kind = .keywordKey → Derives ts (.term t) →
      Derives (key :: ts)
        (.term { form := .pair, span
                 children := [{ form := .atom, span := key.span, name := key.value }, t] })
  -- What stands in parentheses.
  | grouped {first last ts t} : first.kind = .lparen → last.kind = .rparen →
      Derives ts (.term t) → Derives (first :: ts ++ [last]) (.term t)
  | statements {ts vs span} : Derives ts (.entries vs) →
      Derives ts (.term { form := .block, span, children := vs })
  | groupedClause {first last arrow ts us vs t span outer inner} : first.kind = .lparen →
      last.kind = .rparen → arrow.kind = .arrow → Derives ts (.entries vs) → Derives us (.term t) →
      Derives (first :: (ts ++ arrow :: us) ++ [last])
        (.term { form := .block, span := outer
                 children := [{ form := .clause, span := outer
                                children := [{ form := .block, span, children := vs },
                                  { form := .block, span := inner, children := [t] }] }] })
  -- Operators and attributes.
  | binary {ts us vs l r op} : Derives ts (.term l) → Operates us op → Derives vs (.term r) →
      Derives (ts ++ us ++ vs) (.term (op.apply l r))
  | unary {t ts name operand span} : Precedes t name → Derives ts (.term operand) →
      Derives (t :: ts) (.term (unary span name operand))
  | operatorCapture {mark op slash arity span inner} : mark.isOp "&" → op.kind = .operator →
      slash.kind = .operator → arity.kind = .integer →
      Derives [mark, op, slash, arity]
        (.term (unary span (text "&")
          { form := .binaryOp, span := inner, name := slash.lexeme
            children := [leaf .var op op.lexeme, leaf .integer arity arity.value] }))
  | moduleAttribute {mark name span} : mark.kind = .at → name.kind = .identifier →
      Derives [mark, name] (.term { form := .attribute, span, name := name.value })
  | moduleAttributeValue {mark name ts t span} : mark.kind = .at → name.kind = .identifier →
      Derives ts (.term t) →
      Derives (mark :: name :: ts)
        (.term { form := .attribute, span, name := name.value, children := [t] })
  -- Calls, and what follows a term.
  | call {name ts us form vs blocks span parens} : name.kind = .identifier →
      form ∈ [Form.call, .construct] → Derives ts (.entries vs) → Derives us (.attached blocks) →
      Derives (name :: (ts ++ us))
        (.term { form, span, name := name.value, children := vs ++ blocks, parens })
  | remoteCall {dot name ts us ws left vs blocks span parens} : dot.kind = .dot →
      namesMember name → Derives ts (.term left) → Derives us (.entries vs) →
      Derives ws (.attached blocks) →
      Derives (ts ++ dot :: name :: (us ++ ws))
        (.term { form := .remoteCall, span, name := memberName name
                 children := left :: (vs ++ blocks), parens })
  | field {dot name ts left span} : dot.kind = .dot → namesMember name →
      Derives ts (.term left) →
      Derives (ts ++ [dot, name])
        (.term { form := .fieldAccess, span, name := memberName name, children := [left] })
  | extend {dot segment ts left} : dot.kind = .dot → segment.kind = .alias →
      Derives ts (.term left) → Derives (ts ++ [dot, segment]) (.term (extend left segment))
  | multiAlias {dot first ts us left vs span} : dot.kind = .dot → first.kind = .lbrace →
      Derives ts (.term left) → Derives (first :: us) (.entries vs) →
      Derives (ts ++ dot :: first :: us)
        (.term { form := .multiAlias, span, children := left :: vs })
  | anonCall {dots first ts us left vs span} : (∀ d ∈ dots, d.kind = .dot) →
      first.kind = .lparen → Derives ts (.term left) → Derives (first :: us) (.entries vs) →
      Derives (ts ++ dots ++ first :: us)
        (.term { form := .anonCall, span, children := left :: vs, parens := true })
  | access {first last ts us left key span} : first.kind = .lbracket → last.kind = .rbracket →
      Derives ts (.term left) → Derives us (.term key) →
      Derives (ts ++ first :: us ++ [last])
        (.term { form := .access, span, children := [left, key] })
  -- Blocks.
  | statement {ts t} : Derives ts (.term t) → Derives ts (.line (.statement t))
  | clause {ts arrow vs start} : arrow.kind = .arrow → Derives ts (.entries vs) →
      Derives (ts ++ [arrow]) (.line (clauseLine start vs arrow))
  | noLine : Derives [] (.lines [])
  | moreLines {ts us l ls} : Derives ts (.line l) → Derives us (.lines ls) →
      Derives (ts ++ us) (.lines (l :: ls))
  | noSection : Derives [] (.sections [])
  | moreSections {word ts us ls pairs span inner} : word.kind.isSection → Derives ts (.lines ls) →
      Derives us (.sections pairs) →
      Derives (word :: (ts ++ us)) (.sections (sectionOf word.lexeme span inner ls :: pairs))
  | noBlock : Derives [] (.attached [])
  | doBlock {first last ts us ls pairs span outer inner} : first.kind = .kwDo →
      last.kind = .kwEnd → Derives ts (.lines ls) → Derives us (.sections pairs) →
      Derives (first :: (ts ++ us) ++ [last])
        (.attached [{ form := .doBlock, span := outer
                      children := sectionOf (text "do") span inner ls :: pairs }])
  | fn {first last ts ls span} : first.kind = .kwFn → last.kind = .kwEnd →
      Derives ts (.lines ls) → (∀ t ∈ assemble ls, t.form = .clause) → assemble ls ≠ [] →
      Derives (first :: ts ++ [last]) (.term { form := .fn, span, children := assemble ls })

/-! ### Tokens before the end -/

/-- No token is an end-of-file token. -/
def NoEnd (ts : List Token) : Prop := ∀ t ∈ ts, t.kind ≠ .eof

@[simp] theorem noEnd_nil : NoEnd [] := by simp [NoEnd]

@[simp] theorem noEnd_cons {t : Token} {ts : List Token} :
    NoEnd (t :: ts) ↔ t.kind ≠ .eof ∧ NoEnd ts := List.forall_mem_cons

@[simp] theorem noEnd_append {ts us : List Token} : NoEnd (ts ++ us) ↔ NoEnd ts ∧ NoEnd us :=
  List.forall_mem_append

theorem noEnd_of_kind {ts : List Token} {kind : Kind} (h : ∀ t ∈ ts, t.kind = kind)
    (hk : kind ≠ .eof) : NoEnd ts := by
  intro t ht
  rwa [h t ht]

theorem Separates.ne_eof {t : Token} (h : Separates t) : t.kind ≠ .eof := by
  rcases h with h | h <;> simp [h]

theorem Delimits.ne_eof {first last : Token} (h : Delimits first last) :
    first.kind ≠ .eof ∧ last.kind ≠ .eof := by
  simp only [Delimits, List.mem_cons, Prod.mk.injEq, List.not_mem_nil, or_false] at h
  rcases h with h | h | h | h <;> simp [h]

theorem ne_eof_of_word {t : Token} {tree : Tree} (h : word? t = some tree) : t.kind ≠ .eof := by
  intro hk
  simp [word?, hk] at h

theorem ne_eof_of_ofToken {t : Token} {op : Operator} (h : Operator.ofToken? t = some op) :
    t.kind ≠ .eof := by
  intro hk
  simp [Operator.ofToken?, hk] at h

theorem Operates.noEnd {ts : List Token} {op : Operator} (h : Operates ts op) : NoEnd ts := by
  cases h with
  | single ho => simp [ne_eof_of_ofToken ho]
  | notIn hnot hin => simp [hnot, hin]

theorem ne_eof_of_isOp {t : Token} {op : String} (h : t.isOp op) : t.kind ≠ .eof := by
  intro hk
  simp [Token.isOp, hk] at h

theorem Precedes.ne_eof {t : Token} {name : Bytes} (h : Precedes t name) : t.kind ≠ .eof := by
  rcases h with h | h
  · intro hk
    simp [unaryName?, Token.isOp, hk] at h
  · exact ne_eof_of_isOp h.1

theorem ne_eof_of_namesMember {t : Token} (h : namesMember t) : t.kind ≠ .eof := by
  intro hk
  simp [namesMember, namesFunction, hk] at h

theorem ne_eof_of_isSection {t : Token} (h : t.kind.isSection) : t.kind ≠ .eof := by
  intro hk
  simp [hk, Kind.isSection] at h

/-- What makes up a phrase holds no end-of-file token. -/
theorem Derives.noEnd {ts : List Token} {p : Phrase} (h : Derives ts p) : NoEnd ts := by
  induction h with
  | before hs _ ih => simp [hs.ne_eof, ih]
  | behind hs _ ih => simp [hs.ne_eof, ih]
  | delimited hd _ ih => simp [hd.ne_eof, ih]
  | word hw => simp [ne_eof_of_word hw]
  | binary _ ho _ left right => simp [ho.noEnd, left, right]
  | unary hp _ ih => simp [hp.ne_eof, ih]
  | operatorCapture hm ho hs ha => simp [ne_eof_of_isOp hm, ho, hs, ha]
  | remoteCall hd hn _ _ _ left arguments blocks =>
    simp [hd, ne_eof_of_namesMember hn, left, arguments, blocks]
  | field hd hn _ ih => simp [hd, ne_eof_of_namesMember hn, ih]
  | anonCall hd _ _ _ left arguments =>
    simp [noEnd_of_kind hd (by simp), left, noEnd_cons.mp arguments]
  | moreSections hw _ _ lines more => simp [ne_eof_of_isSection hw, lines, more]
  | _ => simp_all

end CallAtlas.Grammar
