import CallAtlas.Proofs.Grammar.Soundness
import CallAtlas.Proofs.Token.Run

/-! # Nesting of delimiters

Whatever the grammar accepts is well nested: each opening token has its own closing token, pairs do
not cross, and the tokens that divide what stands between two others are directly inside of them.
`end` closes both `do` and `fn`, so a pair is told by the token that opens it.
-/
namespace CallAtlas

/-- What a token does to the nesting of those around it. -/
inductive Kind.Role where
  | plain
  /-- It opens a pair, which a token of a kind closes. -/
  | opens (closer : Kind)
  | closes
  /-- It stands directly inside a pair that a token of a kind opens. -/
  | divides (opener : Kind)
  deriving DecidableEq, Repr

def Kind.role : Kind → Role
  | .lparen => .opens .rparen
  | .lbracket => .opens .rbracket
  | .lbrace => .opens .rbrace
  | .binOpen => .opens .binClose
  | .kwDo | .kwFn => .opens .kwEnd
  | .interpStart => .opens .interpEnd
  | .rparen | .rbracket | .rbrace | .binClose | .kwEnd | .interpEnd => .closes
  | .interpMiddle => .divides .interpStart
  | .kwElse | .kwAfter | .kwCatch | .kwRescue => .divides .kwDo
  | _ => .plain

/-- The tokens are well nested, between two tokens of which the first is of the kind `around`, or
outside of all pairs. -/
inductive Nested : (around : Option Kind) → List Token → Prop
  | nil {around} : Nested around []
  | plain {around t ts} : t.kind.role = .plain → Nested around ts → Nested around (t :: ts)
  | divides {around t ts} {opener : Kind} : t.kind.role = .divides opener → around = some opener →
      Nested around ts → Nested around (t :: ts)
  | pair {around first inner last rest} : first.kind.role = .opens last.kind →
      Nested (some first.kind) inner → Nested around rest →
      Nested around (first :: inner ++ last :: rest)

namespace Nested

variable {around : Option Kind} {ts us : List Token} {t first last : Token}

theorem append (h : Nested around ts) (h' : Nested around us) : Nested around (ts ++ us) := by
  induction h with
  | nil => exact h'
  | plain role _ ih => exact .plain role (ih h')
  | divides role eq _ ih => exact .divides role eq (ih h')
  | pair role inner _ _ ih =>
    simpa [List.append_assoc] using pair role inner (ih h')

theorem single (h : t.kind.role = .plain) : Nested around [t] := .plain h .nil

theorem closed (role : first.kind.role = .opens last.kind) (h : Nested (some first.kind) ts) :
    Nested around (first :: ts ++ [last]) := .pair role h .nil

theorem ofPlain (h : ∀ t ∈ ts, t.kind.role = .plain) : Nested around ts := by
  induction ts with
  | nil => exact .nil
  | cons t ts ih =>
    obtain ⟨ht, hts⟩ := List.forall_mem_cons.mp h
    exact .plain ht (ih hts)

/-! ### Checking with a stack -/

/-- Whether tokens close all pairs that are open, those in `stack` included. -/
def check : (stack : List Kind) → List Token → Bool
  | stack, [] => stack.isEmpty
  | stack, t :: ts =>
    match t.kind.role with
    | .plain => check stack ts
    | .opens _ => check (t.kind :: stack) ts
    | .divides opener => stack.head? == some opener && check stack ts
    | .closes =>
      match stack with
      | [] => false
      | opener :: stack => opener.role == .opens t.kind && check stack ts

section

variable {stack : List Kind} {opener closer : Kind}

theorem check_plain (h : t.kind.role = .plain) : check stack (t :: ts) = check stack ts := by
  simp [check, h]

theorem check_opens (h : t.kind.role = .opens closer) :
    check stack (t :: ts) = check (t.kind :: stack) ts := by
  simp [check, h]

theorem check_divides (h : t.kind.role = .divides opener) (hs : stack.head? = some opener) :
    check stack (t :: ts) = check stack ts := by
  simp [check, h, hs]

theorem check_closes (h : t.kind.role = .closes) (hs : opener.role = .opens t.kind) :
    check (opener :: stack) (t :: ts) = check stack ts := by
  simp [check, h, hs]

end

theorem role_closer {kind closer : Kind} (h : kind.role = .opens closer) :
    closer.role = .closes := by
  cases kind <;> first | cases h; rfl | cases h

/-- Well nested tokens leave the stack as it is. -/
theorem check_append (h : Nested around ts) {stack : List Kind} (hs : stack.head? = around) :
    check stack (ts ++ us) = check stack us := by
  induction h generalizing stack us with
  | nil => rfl
  | plain role _ ih => exact (check_plain role).trans (ih hs)
  | divides role eq _ ih => exact (check_divides role (hs.trans eq)).trans (ih hs)
  | @pair _ first inner last rest role _ _ inside behind =>
    calc check stack (first :: inner ++ last :: rest ++ us)
      _ = check stack (first :: (inner ++ last :: (rest ++ us))) := by simp
      _ = check (first.kind :: stack) (inner ++ last :: (rest ++ us)) := check_opens role
      _ = check (first.kind :: stack) (last :: (rest ++ us)) := inside rfl
      _ = check stack (rest ++ us) := check_closes (role_closer role) role
      _ = check stack us := behind hs

/-- The tokens close the pairs of a stack one behind the other and are well nested between that. -/
def ClosesAll : (stack : List Kind) → List Token → Prop
  | [], ts => Nested none ts
  | opener :: stack, ts => ∃ inner last rest, ts = inner ++ last :: rest ∧
      opener.role = .opens last.kind ∧ Nested (some opener) inner ∧ ClosesAll stack rest

theorem ClosesAll.prepend {stack : List Kind} (h : ClosesAll stack ts)
    (h' : Nested stack.head? us) : ClosesAll stack (us ++ ts) := by
  cases stack with
  | nil => exact h'.append h
  | cons opener stack =>
    obtain ⟨inner, last, rest, rfl, role, nested, more⟩ := h
    exact ⟨us ++ inner, last, rest, by simp, role, h'.append nested, more⟩

theorem closesAll_of_check {stack : List Kind} (h : check stack ts) : ClosesAll stack ts := by
  induction ts generalizing stack with
  | nil =>
    obtain rfl := List.isEmpty_iff.mp h
    exact .nil
  | cons t ts ih =>
    unfold check at h
    split at h
    · rename_i role
      exact (ih h).prepend (.single role)
    · rename_i closer role
      obtain ⟨inner, last, rest, rfl, opens, nested, more⟩ := ih h
      have pair : Nested stack.head? (t :: inner ++ [last]) := closed opens nested
      simpa using more.prepend pair
    · rename_i opener role
      simp only [Bool.and_eq_true, beq_iff_eq] at h
      exact (ih h.2).prepend (.divides role h.1 .nil)
    · split at h
      · cases h
      · rename_i opener stack
        simp only [Bool.and_eq_true, beq_iff_eq] at h
        exact ⟨[], t, ts, rfl, h.1, .nil, ih h.2⟩

theorem check_iff : check [] ts ↔ Nested none ts := by
  constructor
  · intro h
    exact closesAll_of_check h
  · intro h
    have same : check [] (ts ++ []) = check [] [] := h.check_append rfl
    rw [List.append_nil] at same
    exact same

instance : Decidable (Nested none ts) := decidable_of_iff _ check_iff

end Nested

namespace Grammar

/-! ### Single tokens -/

theorem role_of_kind {t : Token} {kind : Kind} {role : Kind.Role} (h : t.kind = kind)
    (hr : kind.role = role) : t.kind.role = role := by
  rw [h, hr]

theorem role_of_kinds {first last : Token} {opener closer : Kind} (h : first.kind = opener)
    (h' : last.kind = closer) (hr : opener.role = .opens closer) :
    first.kind.role = .opens last.kind := by
  rw [h, h', hr]

theorem kind_of_isOp {t : Token} {op : String} (h : t.isOp op) : t.kind = .operator := by
  simp only [Token.isOp, Bool.and_eq_true, beq_iff_eq] at h
  exact h.1

theorem plain_separates {t : Token} (h : Separates t) : t.kind.role = .plain := by
  rcases h with h | h
  · exact role_of_kind h rfl
  · exact role_of_kind h rfl

theorem plain_word {t : Token} {tree : Tree} (h : word? t = some tree) : t.kind.role = .plain := by
  unfold word? at h
  split at h <;> first | cases h; done | simp_all [Kind.role]

theorem plain_ofToken {t : Token} {op : Operator} (h : Operator.ofToken? t = some op) :
    t.kind.role = .plain := by
  unfold Operator.ofToken? at h
  split at h <;> first | cases h; done | simp_all [Kind.role]

theorem plain_precedes {t : Token} {name : Bytes} (h : Precedes t name) :
    t.kind.role = .plain := by
  rcases h with h | h
  · unfold unaryName? at h
    split at h
    · simp_all [Kind.role]
    · split at h
      · rename_i hop
        obtain ⟨op, -, hop⟩ := List.any_eq_true.mp hop
        exact role_of_kind (kind_of_isOp hop) rfl
      · cases h
  · exact role_of_kind (kind_of_isOp h.1) rfl

/-- The kinds of tokens that can name a member. -/
def memberKinds : List Kind :=
  [.identifier, .string, .operator, .kwAnd, .kwOr, .kwNot, .kwIn, .kwWhen, .kwTrue, .kwFalse,
    .kwNil]

theorem kind_of_namesMember {t : Token} (h : namesMember t) : t.kind ∈ memberKinds := by
  cases hk : t.kind <;> first | decide | simp [namesMember, namesFunction, hk] at h

theorem plain_namesMember {t : Token} (h : namesMember t) : t.kind.role = .plain := by
  have plain : ∀ kind ∈ memberKinds, kind.role = .plain := by decide
  exact plain _ (kind_of_namesMember h)

theorem role_of_isSection {kind : Kind} (h : kind.isSection) : kind.role = .divides .kwDo := by
  cases kind <;> first | rfl | cases h

theorem Delimits.role {first last : Token} (h : Delimits first last) :
    first.kind.role = .opens last.kind := by
  simp only [Delimits, List.mem_cons, Prod.mk.injEq, List.not_mem_nil, or_false] at h
  rcases h with h | h | h | h
  all_goals exact role_of_kinds h.1 h.2 rfl

/-! ### Phrases -/

/-- How the tokens of a phrase are nested. The first fragment of a literal stands before its parts,
and the word `do` before the sections. -/
def Phrase.Nests (ts : List Token) : Phrase → Prop
  | .parts _ _ => ∃ inner last behind, ts = inner ++ last :: behind ∧ last.kind = .interpEnd ∧
      Nested (some .interpStart) inner ∧ ∀ around, Nested around behind
  | .sections _ => Nested (some .kwDo) ts
  | _ => ∀ around, Nested around ts

theorem Phrase.Nests.before {t : Token} {ts : List Token} {p : Phrase} (ht : t.kind.role = .plain)
    (h : p.Nests ts) : p.Nests (t :: ts) := by
  cases p with
  | parts text vs =>
    obtain ⟨inner, last, behind, rfl, closes, nested, more⟩ := h
    exact ⟨t :: inner, last, behind, rfl, closes, .plain ht nested, more⟩
  | sections pairs => exact .plain ht h
  | _ => exact fun around => .plain ht (h around)

theorem Phrase.Nests.behind {t : Token} {ts : List Token} {p : Phrase} (ht : t.kind.role = .plain)
    (h : p.Nests ts) : p.Nests (ts ++ [t]) := by
  cases p with
  | parts text vs =>
    obtain ⟨inner, last, behind, rfl, closes, nested, more⟩ := h
    refine ⟨inner, last, behind ++ [t], by simp, closes, nested, ?_⟩
    exact fun around => (more around).append (.single ht)
  | sections pairs => exact Nested.append h (.single ht)
  | _ => exact fun around => (h around).append (.single ht)

theorem Derives.nests {ts : List Token} {p : Phrase} (h : Derives ts p) : p.Nests ts := by
  -- A term does not know what it stands in, so most rules hold for every `around`.
  induction h with
  | before hs _ ih => exact ih.before (plain_separates hs)
  | behind hs _ ih => exact ih.behind (plain_separates hs)
  | noEntry => exact fun _ => .nil
  | entry _ ih => exact ih
  | append _ _ left right => exact fun around => (left around).append (right around)
  | delimited hd _ ih => exact fun _ => .closed hd.role (ih _)
  | word hw => exact fun _ => .single (plain_word hw)
  | literal hk _ ih =>
    obtain ⟨inner, last, behind, rfl, closes, nested, more⟩ := ih
    intro around
    refine .pair (role_of_kinds hk closes rfl) ?_ (more around)
    rwa [hk]
  | @lastPart t hk => exact ⟨[], t, [], rfl, hk, .nil, fun _ => .nil⟩
  | @innerPart t ts more vs hk _ ih =>
    obtain ⟨inner, last, behind, rfl, closes, nested, more⟩ := ih
    refine ⟨t :: inner, last, behind, rfl, closes, ?_, more⟩
    exact .divides (role_of_kind hk rfl) rfl nested
  | @embedded ts us t more vs _ _ ih parts =>
    obtain ⟨inner, last, behind, rfl, closes, nested, more⟩ := parts
    exact ⟨ts ++ inner, last, behind, by simp, closes, (ih _).append nested, more⟩
  | container _ _ ih => exact ih
  | map hk _ ih => exact fun around => .plain (role_of_kind hk rfl) (ih around)
  | struct hk _ _ name entries =>
    exact fun around => .plain (role_of_kind hk rfl) ((name around).append (entries around))
  | pair hk _ ih => exact fun around => .plain (role_of_kind hk rfl) (ih around)
  | grouped hf hl _ ih => exact fun _ => .closed (role_of_kinds hf hl rfl) (ih _)
  | statements _ ih => exact ih
  | groupedClause hf hl ha _ _ head body =>
    intro around
    refine .closed (role_of_kinds hf hl rfl) ?_
    exact (head _).append (.plain (role_of_kind ha rfl) (body _))
  | binary _ hop _ left right =>
    intro around
    refine ((left around).append ?_).append (right around)
    cases hop with
    | single ht => exact .single (plain_ofToken ht)
    | notIn hn hi => exact .plain (role_of_kind hn rfl) (.single (role_of_kind hi rfl))
  | unary ht _ ih => exact fun around => .plain (plain_precedes ht) (ih around)
  | operatorCapture hm ho hs ha =>
    intro around
    refine .plain (role_of_kind (kind_of_isOp hm) rfl) (.plain (role_of_kind ho rfl) ?_)
    exact .plain (role_of_kind hs rfl) (.single (role_of_kind ha rfl))
  | moduleAttribute hm hn =>
    exact fun _ => .plain (role_of_kind hm rfl) (.single (role_of_kind hn rfl))
  | moduleAttributeValue hm hn _ ih =>
    exact fun around => .plain (role_of_kind hm rfl) (.plain (role_of_kind hn rfl) (ih around))
  | call hn _ _ _ arguments blocks =>
    exact fun around => .plain (role_of_kind hn rfl) ((arguments around).append (blocks around))
  | remoteCall hd hn _ _ _ left arguments blocks =>
    intro around
    refine (left around).append (.plain (role_of_kind hd rfl) (.plain (plain_namesMember hn) ?_))
    exact (arguments around).append (blocks around)
  | field hd hn _ ih =>
    intro around
    exact (ih around).append (.plain (role_of_kind hd rfl) (.single (plain_namesMember hn)))
  | extend hd hs _ ih =>
    intro around
    exact (ih around).append (.plain (role_of_kind hd rfl) (.single (role_of_kind hs rfl)))
  | multiAlias hd _ _ _ left entries =>
    exact fun around => (left around).append (.plain (role_of_kind hd rfl) (entries around))
  | anonCall hd _ _ _ left arguments =>
    intro around
    refine ((left around).append ?_).append (arguments around)
    exact .ofPlain fun d hdot => role_of_kind (hd d hdot) rfl
  | access hf hl _ _ left key =>
    intro around
    rw [List.append_assoc]
    exact (left around).append (.closed (role_of_kinds hf hl rfl) (key _))
  | statement _ ih => exact ih
  | clause ha _ ih => exact fun around => (ih around).append (.single (role_of_kind ha rfl))
  | noLine => exact fun _ => .nil
  | moreLines _ _ first more => exact fun around => (first around).append (more around)
  | noSection => exact .nil
  | moreSections hw _ _ lines more =>
    exact .divides (role_of_isSection hw) rfl ((lines _).append more)
  | noBlock => exact fun _ => .nil
  | doBlock hf hl _ _ lines more =>
    intro around
    refine .closed (role_of_kinds hf hl rfl) ?_
    rw [hf]
    exact (lines _).append more
  | fn hf hl _ _ _ lines => exact fun _ => .closed (role_of_kinds hf hl rfl) (lines _)

/-! ### Token lists -/

theorem Cursor.rest_ofTokens {ts : List Token} {eof : Token} (h : eof.kind = .eof) :
    (ofTokens (ts ++ [eof])).rest = ts := by
  simp [ofTokens, h]

/-- A list that is accepted is read to its end, and it makes up the lines of the tree. -/
theorem derives_all {ts : List Token} {eof : Token} {t : Tree} (hts : ∀ u ∈ ts, u.kind ≠ .eof)
    (heof : eof.kind = .eof) (h : parseTokens (ts ++ [eof]) = .ok t) :
    ∃ file, block (expressionAt maxNesting) (.ofTokens (ts ++ [eof])) = .ok file ∧
      file.value = t ∧ file.skipNewlines.rest.rest = [] ∧
      ∃ ls span, t = blockOf span ls ∧ Derives ts (.lines ls) := by
  obtain ⟨file, hfile, h⟩ := bind_eq_ok h
  obtain ⟨us, taken, ls, span, ht, hd⟩ := reads_block (reads_expressionAt _) _ file hfile
  obtain ⟨breaks, skipped, hb⟩ := takes_breaksBehind file
  obtain ⟨hrest, -⟩ := taken.trans skipped
  rw [Cursor.rest_ofTokens heof] at hrest
  dsimp only at h
  split at h
  · rename_i ended
    obtain rfl := Except.ok.inj h
    have all : file.skipNewlines.rest.rest = [] := by
      -- A token that was left over would be the end of the file.
      cases hr : file.skipNewlines.rest.rest with
      | nil => rfl
      | cons first rest =>
        rw [hr] at hrest
        have kind : first.kind = .eof := by
          simpa [Cursor.atEnd, Cursor.sees, Cursor.peek, hr] using ended
        exact absurd kind (hts first (by simp [hrest]))
    rw [all, List.append_nil] at hrest
    have whole : Derives ts (.lines ls) := by
      rw [hrest]
      exact hd.behindAll hb
    exact ⟨file, hfile, rfl, all, ls, span, ht, whole⟩
  · cases h

end Grammar

open Grammar in
/-- A token list that is accepted is read to its end and is well nested. So there is no tree of a
source whose tokens are not well nested. -/
theorem accepted_tokens_nested :
    (∀ ts eof t, (∀ u ∈ ts, u.kind ≠ .eof) → eof.kind = .eof → parseTokens (ts ++ [eof]) = .ok t →
      Nested none ts ∧
        ∃ file, block (expressionAt maxNesting) (.ofTokens (ts ++ [eof])) = .ok file ∧
          file.value = t ∧ file.skipNewlines.rest.rest = []) ∧
    ∀ s, ∃ ts eof, (tokenize s).1 = ts ++ [eof] ∧ eof.kind = .eof ∧
      (¬ Nested none ts → ∃ errors, parse s = .error errors) := by
  have accepted {ts : List Token} {eof : Token} {t : Tree} (hts : ∀ u ∈ ts, u.kind ≠ .eof)
      (heof : eof.kind = .eof) (h : parseTokens (ts ++ [eof]) = .ok t) : Nested none ts := by
    obtain ⟨_, _, _, _, _, _, _, hd⟩ := derives_all hts heof h
    exact hd.nests none
  constructor
  · intro ts eof t hts heof h
    obtain ⟨file, hfile, value, all, _⟩ := derives_all hts heof h
    exact ⟨accepted hts heof h, file, hfile, value, all⟩
  · intro s
    obtain ⟨ts, eof, tokens, hts, heof⟩ := Lexer.tokenize_ends s
    refine ⟨ts, eof, tokens, heof, ?_⟩
    intro crossed
    cases hp : parse s with
    | error errors => exact ⟨errors, rfl⟩
    | ok t =>
      have h := (parseTokens_of_parse hp).2
      rw [tokens] at h
      exact absurd (accepted hts heof h) crossed

/-- Sections, brackets, a function and a literal with an expression. -/
def pairedSample : Source :=
  ⟨Source.defaultName, text "if a do\n [\"#\x7bfn -> b end\x7d\"]\nelse\n c\nend\n"⟩

/-- Two pairs that cross. -/
def crossedSample : Source := ⟨Source.defaultName, text "f([)]"⟩

open Grammar in
theorem pairedSample_nested :
    (∃ ts eof t, (tokenize pairedSample).1 = ts ++ [eof] ∧ parseTokens (ts ++ [eof]) = .ok t ∧
      Nested none ts) ∧
    ∃ errors, parse crossedSample = .error errors := by
  constructor
  · obtain ⟨ts, eof, tokens, hts, heof⟩ := Lexer.tokenize_ends pairedSample
    have ok : (parseTokens (tokenize pairedSample).1).toOption.isSome := by decide +kernel
    cases h : parseTokens (tokenize pairedSample).1 with
    | error e => simp [h, Except.toOption] at ok
    | ok t =>
      rw [tokens] at h
      exact ⟨ts, eof, t, tokens, h, (accepted_tokens_nested.1 ts eof t hts heof h).1⟩
  · obtain ⟨ts, eof, tokens, -, rejected⟩ := accepted_tokens_nested.2 crossedSample
    have crossed : ¬ Nested none (tokenize crossedSample).1.dropLast := by decide +kernel
    rw [tokens, List.dropLast_concat] at crossed
    exact rejected crossed

end CallAtlas
