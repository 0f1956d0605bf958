import CallAtlas.Proofs.Grammar.Nesting
import CallAtlas.Proofs.Token.Spelling

/-! # What can be read off a tree and off tokens

A tree is read from left to right, with the name of each node where it was written. Tokens are read
without those that only give a tree its form. In place of the fragments of a literal with embedded
expressions stands its text, before the words of what is embedded.

`Carries ts pieces` says that the tokens `ts` are read as `pieces` wherever they stand.
-/
namespace CallAtlas

/-- What is read off a tree or a token list. -/
inductive Piece where
  /-- A name, an operator or a literal in one piece. -/
  | word (text : Bytes)
  /-- The text of a literal with embedded expressions. -/
  | literal (text : Bytes)
  deriving DecidableEq, Repr

/-! ### Trees -/

/-- The words of an operator between two operands. -/
def operatorPieces (name : Bytes) : List Piece :=
  if name = text "not in" then [.word (text "not"), .word (text "in")] else [.word name]

/-- The pieces of a node with a form and a name, given those of each child: the name stands before
the children, behind the first one, or nowhere. -/
def Form.arrange (form : Form) (name : Bytes) (interpolated : Bool) (parts : List (List Piece)) :
    List Piece :=
  match form with
  | .call | .construct | .attribute | .unaryOp | .var | .atom | .integer | .float | .moduleSelf
  | .aliasSegment => .word name :: parts.flatten
  | .string | .charlist => (if interpolated then .literal name else .word name) :: parts.flatten
  | .remoteCall | .fieldAccess => parts.headD [] ++ .word name :: parts.tail.flatten
  | .binaryOp => parts.headD [] ++ operatorPieces name ++ parts.tail.flatten
  | .pair =>
    parts.headD [] ++ (if name.isEmpty then [] else [.word name]) ++ parts.tail.flatten
  | .block | .anonCall | .aliases | .multiAlias | .sigil | .bitstring | .list | .tuple | .map
  | .struct | .access | .fn | .clause | .doBlock => parts.flatten

namespace Tree

mutual

/-- The pieces of a tree, from left to right. -/
def yield : Tree → List Piece
  | ⟨form, _, name, children, _, interpolated⟩ => form.arrange name interpolated (yields children)

def yields : List Tree → List (List Piece)
  | [] => []
  | t :: ts => yield t :: yields ts

end

theorem yields_eq (ts : List Tree) : yields ts = ts.map yield := by
  induction ts with
  | nil => rfl
  | cons t ts ih => rw [yields, ih, List.map_cons]

@[simp] theorem yield_mk (form : Form) (span : Span) (name : Bytes) (children : List Tree)
    (parens interpolated : Bool) :
    (Tree.mk form span name children parens interpolated).yield =
      form.arrange name interpolated (children.map yield) := by
  rw [yield, yields_eq]

/-- The pieces of trees one behind the other. -/
def yieldAll (ts : List Tree) : List Piece := (ts.map yield).flatten

@[simp] theorem yieldAll_nil : yieldAll [] = [] := rfl

@[simp] theorem yieldAll_cons (t : Tree) (ts : List Tree) :
    yieldAll (t :: ts) = t.yield ++ yieldAll ts := rfl

@[simp] theorem yieldAll_append (ts us : List Tree) :
    yieldAll (ts ++ us) = yieldAll ts ++ yieldAll us := by
  simp [yieldAll]

@[simp] theorem flatten_map_yield (ts : List Tree) : (ts.map yield).flatten = yieldAll ts := rfl

end Tree

/-! ### Tokens -/

/-- The text of the fragments that belong to a literal, up to its last one. The literals inside of
it have fragments of their own; `depth` is the number of those that are open. -/
def ownText : (depth : Nat) → List Token → Bytes
  | _, [] => []
  | depth, t :: ts =>
    match t.kind, depth with
    | .interpStart, depth => ownText (depth + 1) ts
    | .interpMiddle, 0 => t.value ++ ownText 0 ts
    | .interpEnd, 0 => t.value
    | .interpEnd, depth + 1 => ownText depth ts
    | _, depth => ownText depth ts

/-- Fragments of literals with embedded expressions. -/
def Kind.isFragment : Kind → Bool
  | .interpStart | .interpMiddle | .interpEnd => true
  | _ => false

theorem isFragment_plain {kind : Kind} (h : kind.role = .plain) : kind.isFragment = false := by
  cases kind <;> first | rfl | cases h

theorem isFragment_divides {kind opener : Kind} (h : kind.role = .divides opener) :
    kind = .interpMiddle ∧ opener = .interpStart ∨ kind.isFragment = false := by
  cases kind <;> first | exact .inr rfl | (cases h; done) | (cases h; exact .inl ⟨rfl, rfl⟩)

theorem isFragment_opens {kind closer : Kind} (h : kind.role = .opens closer) :
    kind = .interpStart ∧ closer = .interpEnd ∨
      kind.isFragment = false ∧ closer.isFragment = false := by
  cases kind <;> first
    | (cases h; done)
    | (cases h; exact .inr ⟨rfl, rfl⟩)
    | (cases h; exact .inl ⟨rfl, rfl⟩)

section OwnText

variable {t : Token} {ts us : List Token}

theorem ownText_start (h : t.kind = .interpStart) (depth : Nat) :
    ownText depth (t :: ts) = ownText (depth + 1) ts := by
  simp [ownText, h]

theorem ownText_middle (h : t.kind = .interpMiddle) :
    ownText 0 (t :: ts) = t.value ++ ownText 0 ts := by
  simp [ownText, h]

theorem ownText_end (h : t.kind = .interpEnd) : ownText 0 (t :: ts) = t.value := by
  simp [ownText, h]

theorem ownText_innerMiddle (h : t.kind = .interpMiddle) {depth : Nat} (hd : depth ≠ 0) :
    ownText depth (t :: ts) = ownText depth ts := by
  cases depth with
  | zero => exact absurd rfl hd
  | succ depth => simp [ownText, h]

theorem ownText_innerEnd (h : t.kind = .interpEnd) (depth : Nat) :
    ownText (depth + 1) (t :: ts) = ownText depth ts := by
  simp [ownText, h]

theorem ownText_other (h : t.kind.isFragment = false) (depth : Nat) :
    ownText depth (t :: ts) = ownText depth ts := by
  rw [ownText.eq_def]
  dsimp only
  split <;> simp_all [Kind.isFragment]

/-- Well nested tokens inside of an expression hold no fragment of the literals around it. -/
theorem ownText_nested {around : Option Kind} (h : Nested around ts) {depth : Nat}
    (hd : around = some .interpStart → depth ≠ 0) :
    ownText depth (ts ++ us) = ownText depth us := by
  induction h generalizing depth us with
  | nil => rfl
  | plain role _ ih =>
    rw [List.cons_append, ownText_other (isFragment_plain role), ih hd]
  | divides role eq _ ih =>
    rw [List.cons_append]
    rcases isFragment_divides role with ⟨hk, rfl⟩ | hk
    · rw [ownText_innerMiddle hk (hd eq), ih hd]
    · rw [ownText_other hk, ih hd]
  | @pair around first inner last rest role _ _ inside behind =>
    have shape : first :: inner ++ last :: rest ++ us =
        first :: (inner ++ last :: (rest ++ us)) := by simp
    rw [shape]
    -- A literal inside is one level deeper up to its last fragment, other pairs do not count.
    rcases isFragment_opens role with ⟨hf, hl⟩ | ⟨hf, hl⟩
    · rw [ownText_start hf, inside fun _ => Nat.succ_ne_zero depth, ownText_innerEnd hl, behind hd]
    · have apart : some first.kind = some .interpStart → depth ≠ 0 := by
        intro hk
        rw [Option.some.inj hk] at hf
        cases hf
      rw [ownText_other hf, inside apart, ownText_other hl, behind hd]

end OwnText

/-- Tokens that only give a tree its form, or go on with a literal. -/
def Kind.isSilent : Kind → Bool
  | .eof | .newline | .comma | .arrow | .lparen | .rparen | .lbracket | .rbracket | .lbrace
  | .rbrace | .binOpen | .binClose | .percent | .at | .kwFn | .kwEnd | .interpMiddle
  | .interpEnd => true
  | _ => false

/-- Tokens that show their raw text. -/
def Kind.isRaw : Kind → Bool
  | .operator | .kwDo | .kwElse | .kwAfter | .kwCatch | .kwRescue | .kwWhen | .kwAnd | .kwOr
  | .kwNot | .kwIn | .kwTrue | .kwFalse | .kwNil => true
  | _ => false

/-- The pieces of a token in front of others. The name of a member, which stands behind a dot, shows
its raw text if it is empty. -/
def Token.pieces (t : Token) (behindDot : Bool) (rest : List Token) : List Piece :=
  if t.kind.isSilent then []
  else if t.kind.isRaw then [.word t.lexeme]
  else
    match t.kind with
    | .interpStart => [.literal (t.value ++ ownText 0 rest)]
    | .string => [.word (if behindDot && t.value.isEmpty then t.lexeme else t.value)]
    | _ => [.word t.value]

/-- The pieces of a token list, to which dots do not add any. -/
def payload : (behindDot : Bool) → List Token → List Piece
  | _, [] => []
  | behindDot, t :: ts =>
    if t.kind = .dot then payload true ts else t.pieces behindDot ts ++ payload false ts

theorem payload_dot {t : Token} (h : t.kind = .dot) (behindDot : Bool) (ts : List Token) :
    payload behindDot (t :: ts) = payload true ts := by
  rw [payload, if_pos h]

theorem payload_cons {t : Token} (h : t.kind ≠ .dot) (behindDot : Bool) (ts : List Token) :
    payload behindDot (t :: ts) = t.pieces behindDot ts ++ payload false ts := by
  rw [payload, if_neg h]

theorem payload_silent {t : Token} (h : t.kind.isSilent) (behindDot : Bool) (ts : List Token) :
    payload behindDot (t :: ts) = payload false ts := by
  have notDot : t.kind ≠ .dot := by
    intro hk
    simp [hk, Kind.isSilent] at h
  rw [payload_cons notDot, Token.pieces, if_pos h, List.nil_append]

/-- Only the name of a member depends on the dot before it. -/
theorem payload_behindDot {t : Token} (h : t.kind ≠ .string) (behindDot : Bool) (ts : List Token) :
    payload behindDot (t :: ts) = payload false (t :: ts) := by
  unfold payload Token.pieces
  split
  · rfl
  · split
    · rfl
    · split
      · rfl
      · split <;> first | rfl | contradiction

/-! ### Tokens that give pieces -/

/-- The tokens, if they are spelled as their kinds tell, give the pieces wherever they do not stand
behind a dot. -/
def Carries (ts : List Token) (pieces : List Piece) : Prop :=
  (∀ t ∈ ts, t.Spelled) → ∀ us, payload false (ts ++ us) = pieces ++ payload false us

namespace Carries

variable {ts us : List Token} {t dot : Token} {pieces pieces' : List Piece} {piece : Piece}

theorem nil : Carries [] [] := fun _ _ => rfl

theorem append (h : Carries ts pieces) (h' : Carries us pieces') :
    Carries (ts ++ us) (pieces ++ pieces') := by
  intro spelled rest
  obtain ⟨left, right⟩ := List.forall_mem_append.mp spelled
  rw [List.append_assoc, h left, h' right, List.append_assoc]

theorem silent (ht : t.kind.isSilent) (h : Carries ts pieces) : Carries (t :: ts) pieces := by
  intro spelled rest
  rw [List.cons_append, payload_silent ht, h (List.forall_mem_cons.mp spelled).2]

theorem behind (h : Carries ts pieces) (ht : t.kind.isSilent) : Carries (ts ++ [t]) pieces := by
  simpa using h.append (silent ht nil)

theorem closed {first last : Token} (hf : first.kind.isSilent) (h : Carries ts pieces)
    (hl : last.kind.isSilent) : Carries (first :: ts ++ [last]) pieces :=
  (h.silent hf).behind hl

/-- A token that gives one piece. -/
theorem cons (hdot : t.kind ≠ .dot) (ht : t.Spelled → ∀ rest, t.pieces false rest = [piece])
    (h : Carries ts pieces) : Carries (t :: ts) (piece :: pieces) := by
  intro spelled rest
  obtain ⟨first, more⟩ := List.forall_mem_cons.mp spelled
  rw [List.cons_append, payload_cons hdot, ht first, h more]
  rfl

/-- A dot without the name of a member behind it. -/
theorem behindDot (hd : dot.kind = .dot) (ht : t.kind ≠ .string) (h : Carries (t :: ts) pieces) :
    Carries (dot :: t :: ts) pieces := by
  intro spelled rest
  rw [List.cons_append, payload_dot hd, List.cons_append, payload_behindDot ht]
  exact h (List.forall_mem_cons.mp spelled).2 rest

theorem behindDots {dots : List Token} (hd : ∀ d ∈ dots, d.kind = .dot) (ht : t.kind ≠ .string)
    (h : Carries (t :: ts) pieces) : Carries (dots ++ t :: ts) pieces := by
  induction dots with
  | nil => exact h
  | cons d dots ih =>
    obtain ⟨first, more⟩ := List.forall_mem_cons.mp hd
    have rest := ih more
    cases dots with
    | nil => exact rest.behindDot first ht
    | cons d' dots =>
      refine rest.behindDot first ?_
      rw [more d' List.mem_cons_self]
      nofun

end Carries

end CallAtlas
