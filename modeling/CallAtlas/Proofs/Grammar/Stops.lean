import CallAtlas.Grammar.Expression
import CallAtlas.Proofs.Grammar.Reads

/-! # Tokens at which nothing goes on

At a closing delimiter, an arrow, a line break, a word that ends a block or one of its sections, and
at the end of the file no operator, suffix or further argument follows.
-/
namespace CallAtlas.Grammar

/-- Whether no expression and no argument list goes on at a token of a kind. At `do` it depends on
whether a block may attach. -/
def stopsAt (blocks : Bool) : Kind → Bool
  | .rparen | .rbracket | .rbrace | .binClose | .kwEnd | .kwElse | .kwAfter | .kwCatch | .kwRescue
  | .interpMiddle | .interpEnd | .arrow | .newline | .eof => true
  | .kwDo => !blocks
  | _ => false

theorem stopsAt_false {blocks : Bool} {kind : Kind} (h : stopsAt blocks kind) :
    stopsAt false kind := by
  cases kind <;> simp_all [stopsAt]

/-- Whether a block ends is seen from the kind of the next token. -/
theorem Cursor.atBlockEnd_of_kind {c : Cursor} {kind : Kind} (h : c.peek.kind = kind) :
    c.atBlockEnd = (kind == .eof || kind == .kwEnd || kind.isSection) := by
  rw [atBlockEnd, atEnd, sees, sees, h]

section Stops

variable {c : Cursor} {blocks : Bool} (h : stopsAt blocks c.peek.kind)

include h

theorem ne_of_stops {kind : Kind} (hk : stopsAt blocks kind = false) : c.peek.kind ≠ kind := by
  rintro rfl
  rw [h] at hk
  cases hk

theorem take_of_stops {kind : Kind} (hk : stopsAt blocks kind = false) : c.take? kind = none := by
  rw [Cursor.take?, Cursor.takeIf?, if_neg (by simpa using ne_of_stops h hk)]

theorem sees_of_stops {kind : Kind} (hk : stopsAt blocks kind = false) : c.sees kind = false := by
  simpa [Cursor.sees] using ne_of_stops h hk

theorem operator_of_stops : c.operator? = none := by
  have noOperator : Operator.ofToken? c.peek = none := by
    unfold Operator.ofToken?
    cases hk : c.peek.kind <;> simp_all [stopsAt]
  have noNot : c.take? .kwNot = none := take_of_stops h rfl
  rw [Cursor.operator?, noOperator]
  simp [noNot]

theorem startsArgument_of_stops : startsArgument c = false := by
  have noOperand : startsOperand c.peek.kind = false := by
    cases hk : c.peek.kind <;> simp_all [stopsAt, startsOperand]
  have noNot : (c.peek.kind == .kwNot) = false := by
    cases hk : c.peek.kind <;> simp_all [stopsAt]
  have noSymbol (op : String) : c.peek.isOp op = false := by
    unfold Token.isOp
    cases hk : c.peek.kind <;> simp_all [stopsAt]
  simp [startsArgument, noOperand, noNot, noSymbol]

theorem suffix_of_stops (expr : Expr) (permit : Bool) (left : Tree) :
    suffix? expr permit left c = .ok none := by
  unfold suffix?
  split
  · rfl
  · rename_i token found
    rw [Cursor.peek_of_next found] at h
    cases hk : token.value.kind <;> simp_all [stopsAt]

theorem suffixes_of_stops (expr : Expr) (permit : Bool) (left : Tree) :
    suffixes expr permit left c = .ok (c.stay left) := by
  rw [suffixes, iterate, suffix_of_stops h]

theorem climb_of_stops (expr : Expr) (level : Nat) (permit : Bool) (left : Tree) :
    climb expr level permit left c = .ok (c.stay left) := by
  rw [climb, iterate, application?, operator_of_stops h]

theorem moreArguments_of_stops (expr : Expr) (permit : Bool) :
    moreArguments expr permit c = .ok (c.stay []) := by
  have noComma : c.take? .comma = none := take_of_stops h rfl
  have noComma' : (c.stay ([] : List Tree)).rest.take? .comma = none := noComma
  have noArgument : nextArgument expr permit c = .ok none := by
    rw [nextArgument, noComma, ite_self]
    rfl
  have noArguments : many (nextArgument expr permit) c = .ok (c.stay []) := by
    rw [many, noArgument]
  refine bind_of_ok noArguments ?_
  rw [noComma']
  rfl

end Stops

end CallAtlas.Grammar
