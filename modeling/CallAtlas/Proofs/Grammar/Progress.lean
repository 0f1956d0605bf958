import CallAtlas.Proofs.Grammar.Soundness

/-! # Reading moves on through the token list

The type of a read tells that fewer tokens are left behind it. Here a cursor is tied to its place in
the list that is read, which ends with an end-of-file token. Expressions, pairs, operands and `do`
blocks are read up to a later place of that list, and every round of a loop that does not leave the
loop takes it to a later place, whatever tokens the list holds. So no loop makes more rounds than
there are tokens, and since no end-of-file token is ever taken, none is passed.
-/
namespace CallAtlas.Grammar

/-! ### Places -/

/-- A token list with the end-of-file token that it may lack. -/
def closed (tokens : List Token) : List Token :=
  if (tokens.getLast?.map (·.kind)) = some .eof then tokens else tokens ++ [({} : Token)]

theorem closed_ends (tokens : List Token) :
    ∃ ts last, closed tokens = ts ++ [last] ∧ last.kind = .eof := by
  unfold closed
  split
  · rename_i h
    obtain ⟨last, hlast, hk⟩ := Option.map_eq_some_iff.mp h
    obtain ⟨ts, rfl⟩ := List.getLast?_eq_some_iff.mp hlast
    exact ⟨ts, last, rfl, hk⟩
  · exact ⟨tokens, {}, rfl, rfl⟩

namespace Cursor

variable {tokens ts : List Token} {c d : Cursor} {n : Nat}

def StandsAt (tokens : List Token) (n : Nat) (c : Cursor) : Prop :=
  (closed tokens).drop n = c.rest ++ [c.last]

/-- From any place in a token list where `c` stands, `d` stands at a later one, which is not behind
the last token, and no end-of-file token lies between. -/
def MovesOn (tokens : List Token) (c d : Cursor) : Prop :=
  ∀ n, c.StandsAt tokens n → ∃ m, n < m ∧ m < (closed tokens).length ∧ d.StandsAt tokens m ∧
    NoEnd (((closed tokens).drop n).take (m - n))

theorem standsAt_ofTokens (tokens : List Token) : (ofTokens tokens).StandsAt tokens 0 := by
  unfold StandsAt closed ofTokens
  cases h : tokens.getLast? with
  | none => simp [List.getLast?_eq_none_iff.mp h]
  | some last =>
    obtain ⟨init, rfl⟩ := List.getLast?_eq_some_iff.mp h
    by_cases hk : last.kind = .eof <;> simp [hk]

theorem StandsAt.lt_length (h : c.StandsAt tokens n) : n < (closed tokens).length := by
  have length := congrArg List.length h
  simp only [List.length_drop, List.length_append, List.length_singleton] at length
  omega

theorem StandsAt.takes (h : c.StandsAt tokens n) (taken : c.Takes ts d) :
    d.StandsAt tokens (n + ts.length) ∧ ((closed tokens).drop n).take ts.length = ts := by
  have split : (closed tokens).drop n = ts ++ (d.rest ++ [d.last]) := by
    rw [h, taken.1, taken.2, List.append_assoc]
  constructor
  · rw [StandsAt, ← List.drop_drop, split, List.drop_left]
  · rw [split, List.take_left]

theorem Takes.movesOn (taken : c.Takes ts d) (inside : NoEnd ts) (fewer : d.size < c.size) :
    c.MovesOn tokens d := by
  intro n h
  obtain ⟨stands, between⟩ := h.takes taken
  have nonempty : 0 < ts.length := by
    have length := congrArg List.length taken.1
    simp only [size, List.length_append] at fewer length
    omega
  refine ⟨n + ts.length, by omega, stands.lt_length, stands, ?_⟩
  rwa [Nat.add_sub_cancel_left, between]

end Cursor

section

variable {α : Type} {tokens : List Token} {Q : List Token → α → Prop}

/-- Whatever is read with `read` leads to a later place. -/
def Advances (tokens : List Token) (read : Reader α) : Prop :=
  ∀ c p, read c = .ok p → c.MovesOn tokens p.rest

theorem Reads.advances {read : Reader α} (h : Reads read Q) (inside : ∀ ts v, Q ts v → NoEnd ts) :
    Advances tokens read := by
  intro c p hp
  obtain ⟨ts, taken, hq⟩ := h c p hp
  exact taken.movesOn (inside ts p.value hq) p.size_lt

def Goes (read : OptionReader α) (c d : Cursor) : Prop :=
  ∃ p, read c = .ok (some p) ∧ p.rest = d

theorem OptionReads.movesOn {read : OptionReader α} (h : OptionReads read Q)
    (inside : ∀ ts v, Q ts v → NoEnd ts) {c d : Cursor} (goes : Goes read c d) :
    c.MovesOn tokens d := by
  obtain ⟨p, hp, rfl⟩ := goes
  obtain ⟨ts, taken, hq⟩ := h c p hp
  exact taken.movesOn (inside ts p.value hq) p.size_lt

end

/-! ### Loops -/

/-- Rounds one behind the other that lead from one cursor to another, and their number. -/
inductive Rounds (goes : Cursor → Cursor → Prop) : Nat → Cursor → Cursor → Prop
  | none {c} : Rounds goes 0 c c
  | more {k c d e} : goes c d → Rounds goes k d e → Rounds goes (k + 1) c e

/-- Rounds that each move on lead at least as many places on as there are rounds. -/
theorem Rounds.exists_place {goes : Cursor → Cursor → Prop} {tokens : List Token}
    (moves : ∀ c d, goes c d → c.MovesOn tokens d) {k n : Nat} {c d : Cursor}
    (h : Rounds goes k c d) (start : c.StandsAt tokens n) :
    ∃ m, n + k ≤ m ∧ m < (closed tokens).length ∧ d.StandsAt tokens m := by
  induction h generalizing n with
  | none => exact ⟨n, Nat.le_refl _, start.lt_length, start⟩
  | more round _ ih =>
    obtain ⟨i, hi, -, stands, -⟩ := moves _ _ round n start
    obtain ⟨m, hm, inside, last⟩ := ih stands
    exact ⟨m, by omega, inside, last⟩

section

variable {α : Type} {c : Cursor}

def lineBreak? : OptionReader Token := fun c => .ok (c.take? .newline)

theorem rounds_skipNewlines (c : Cursor) : ∃ k, Rounds (Goes lineBreak?) k c c.skipNewlines := by
  fun_induction Cursor.skipNewlines c with
  | case1 c t d fewer taken ih =>
    obtain ⟨k, rounds⟩ := ih
    exact ⟨k + 1, .more ⟨⟨t, d, fewer⟩, congrArg Except.ok taken, rfl⟩ rounds⟩
  | case2 c _ => exact ⟨0, .none⟩

theorem rounds_many {read : OptionReader α} {q : MaybeParsed c (List α)}
    (h : many read c = .ok q) : ∃ k, Rounds (Goes read) k c q.rest := by
  fun_induction many read c with
  | case1 => cases h
  | case2 c _ =>
    cases h
    exact ⟨0, .none⟩
  | case3 => cases h
  | case4 c p found q more ih =>
    cases h
    obtain ⟨k, rounds⟩ := ih more
    exact ⟨k + 1, .more ⟨p, found, rfl⟩ rounds⟩

theorem rounds_iterate {read : α → OptionReader α} {v : α} {q : MaybeParsed c α}
    (h : iterate read v c = .ok q) :
    ∃ k, Rounds (fun c d => ∃ v, Goes (read v) c d) k c q.rest := by
  fun_induction iterate read v c with
  | case1 => cases h
  | case2 v c _ =>
    cases h
    exact ⟨0, .none⟩
  | case3 v c p found ih =>
    obtain ⟨q, more, rfl⟩ := map_eq_ok h
    obtain ⟨k, rounds⟩ := ih more
    exact ⟨k + 1, .more ⟨v, p, found, rfl⟩ rounds⟩

end

/-- The loops of the grammar, by what each round of them reads. -/
inductive Loop where
  /-- Line breaks that are skipped. -/
  | breaks
  | pairs (blocks : Bool)
  /-- Entries between delimiters. -/
  | items (closer : Kind) (folds : Bool)
  /-- Arguments without delimiters, and patterns before an arrow. -/
  | arguments (blocks : Bool)
  | lines
  | sections
  /-- Segments of the name of a struct. -/
  | segments
  /-- Fragments of a literal with embedded expressions. -/
  | fragments
  /-- Expressions in parentheses with commas between them. -/
  | separated
  /-- Expressions in parentheses on lines of their own. -/
  | statements
  | operators (level : Nat) (blocks : Bool)
  | suffixes (blocks : Bool)

namespace Loop

/-- A round of a loop leads from `c` to `d` and does not leave the loop. Where a round goes on
behind what has been read so far, that may be any tree. -/
def Round (expr : Expr) (loop : Loop) (c d : Cursor) : Prop :=
  match loop with
  | breaks => Goes lineBreak? c d
  | pairs blocks => Goes (nextPair expr blocks) c d
  | items closer folds => Goes (nextItem expr closer folds) c d
  | arguments blocks => Goes (nextArgument expr blocks) c d
  | lines => Goes (nextLine expr) c d
  | sections => Goes (nextSection expr) c d
  | segments => ∃ name, Goes (segment? name) c d
  | fragments => Goes (nextFragment expr) c d
  | separated => Goes (fun c => behind (c.take? .comma) (loosely (expr 0 true))) c d
  | statements => Goes (nextStatement expr) c d
  | operators level blocks => ∃ left, Goes (application? expr level blocks left) c d
  | suffixes blocks => ∃ left, Goes (suffix? expr blocks left) c d

def Ends (expr : Expr) (loop : Loop) (c d : Cursor) : Prop :=
  match loop with
  | breaks => c.skipNewlines = d
  | pairs blocks => ∃ q, many (nextPair expr blocks) c = .ok q ∧ q.rest = d
  | items closer folds => ∃ q, many (nextItem expr closer folds) c = .ok q ∧ q.rest = d
  | arguments blocks => ∃ q, many (nextArgument expr blocks) c = .ok q ∧ q.rest = d
  | lines => ∃ q, many (nextLine expr) c = .ok q ∧ q.rest = d
  | sections => ∃ q, many (nextSection expr) c = .ok q ∧ q.rest = d
  | segments => ∃ head q, iterate segment? head c = .ok q ∧ q.rest = d
  | fragments => ∃ q, many (nextFragment expr) c = .ok q ∧ q.rest = d
  | separated =>
    ∃ q, many (fun c => behind (c.take? .comma) (loosely (expr 0 true))) c = .ok q ∧ q.rest = d
  | statements => ∃ q, many (nextStatement expr) c = .ok q ∧ q.rest = d
  | operators level blocks => ∃ left q, climb expr level blocks left c = .ok q ∧ q.rest = d
  | suffixes blocks => ∃ left q, Grammar.suffixes expr blocks left c = .ok q ∧ q.rest = d

variable {expr : Expr} {tokens : List Token} {c d : Cursor}

/-- A loop goes from one round to the next up to its end. -/
theorem rounds_of_ends (loop : Loop) (h : loop.Ends expr c d) :
    ∃ k, Rounds (loop.Round expr) k c d := by
  cases loop with
  | breaks =>
    obtain rfl := h
    exact rounds_skipNewlines c
  | segments =>
    obtain ⟨head, q, hq, rfl⟩ := h
    exact rounds_iterate hq
  | operators level blocks =>
    obtain ⟨left, q, hq, rfl⟩ := h
    exact rounds_iterate hq
  | suffixes blocks =>
    obtain ⟨left, q, hq, rfl⟩ := h
    exact rounds_iterate hq
  | _ =>
    obtain ⟨q, hq, rfl⟩ := h
    exact rounds_many hq

theorem noEnd_lineBreak : OptionReads lineBreak? fun ts _ => NoEnd ts := by
  intro c p h
  obtain ⟨taken, hk⟩ := Cursor.takes_take (Except.ok.inj h)
  exact ⟨[p.value], taken, by simp [hk]⟩

/-- A round that does not leave its loop moves on. -/
theorem movesOn_of_round (he : ∀ level blocks, Reads (expr level blocks) (Yields .term))
    (loop : Loop) (h : loop.Round expr c d) : c.MovesOn tokens d := by
  cases loop with
  | breaks => exact noEnd_lineBreak.movesOn (fun _ _ inside => inside) h
  | pairs blocks => exact (reads_nextPair he blocks).movesOn (fun _ _ hd => hd.noEnd) h
  | items closer folds => exact (reads_nextItem he closer folds).movesOn (fun _ _ hd => hd.noEnd) h
  | arguments blocks => exact (reads_nextArgument he blocks).movesOn (fun _ _ hd => hd.noEnd) h
  | lines => exact (reads_nextLine he).movesOn (fun _ _ hd => hd.noEnd) h
  | sections =>
    refine (reads_nextSection he).movesOn ?_ h
    rintro _ _ ⟨word, us, ls, inner, rfl, hw, -, hd⟩
    simp [ne_eof_of_isSection hw, hd.noEnd]
  | segments =>
    obtain ⟨name, h⟩ := h
    exact (reads_segment name).movesOn (fun _ _ hc => hc.noEnd) h
  | fragments =>
    refine (reads_nextFragment he).movesOn ?_ h
    intro ts f hp
    -- The closing fragment makes the tokens a whole literal.
    have whole := hp [{ kind := .interpEnd }] _ _ (.lastPart rfl)
    exact (noEnd_append.mp whole.noEnd).1
  | separated => exact (reads_behindComma he).movesOn (fun _ _ hd => hd.noEnd) h
  | statements => exact (reads_nextStatement he).movesOn (fun _ _ hd => hd.noEnd) h
  | operators level blocks =>
    obtain ⟨left, h⟩ := h
    exact (reads_application he level blocks left).movesOn (fun _ _ hc => hc.noEnd) h
  | suffixes blocks =>
    obtain ⟨left, h⟩ := h
    exact (reads_suffix he blocks left).movesOn (fun _ _ hc => hc.noEnd) h

end Loop

/-- Reading a token list, whatever tokens it holds, gives a tree or an error. It starts at the first
place of the list, which is closed by an end-of-file token. From any place, expressions, pairs,
operands and `do` blocks are read up to a later one, and each round of a loop leads to a later one
or leaves the loop. So a loop makes fewer rounds than there are tokens. All these places are in the
list, and no end-of-file token is passed on the way. -/
theorem reading_advances (tokens : List Token) (depth : Nat) :
    let expr := expressionAt depth
    ((∃ t, parseTokens tokens = .ok t) ∨ ∃ e, parseTokens tokens = .error e) ∧
    ((∃ t, parseExpression tokens = .ok t) ∨ ∃ e, parseExpression tokens = .error e) ∧
    (∃ ts last, closed tokens = ts ++ [last] ∧ last.kind = .eof) ∧
    (Cursor.ofTokens tokens).StandsAt tokens 0 ∧
    (∀ blocks, (∀ level, Advances tokens (expr level blocks)) ∧
      Advances tokens (keywordPair expr blocks) ∧ Advances tokens (keywordList expr blocks) ∧
      Advances tokens (primary expr blocks) ∧ Advances tokens (operand expr blocks)) ∧
    (∀ opening, opening.kind = .kwDo → Advances tokens (doBlock expr opening)) ∧
    ∀ loop : Loop,
      (∀ c d, loop.Round expr c d → c.MovesOn tokens d) ∧
      (∀ c d, loop.Ends expr c d → ∃ k, Rounds (loop.Round expr) k c d) ∧
      ∀ k c d n, Rounds (loop.Round expr) k c d → c.StandsAt tokens n →
        ∃ m, n + k ≤ m ∧ m < (closed tokens).length ∧ d.StandsAt tokens m := by
  intro expr
  have he : ∀ level blocks, Reads (expr level blocks) (Yields .term) := reads_expressionAt depth
  have inside (ts : List Token) (t : Tree) (hd : Yields .term ts t) : NoEnd ts := hd.noEnd
  refine ⟨?_, ?_, closed_ends tokens, Cursor.standsAt_ofTokens tokens, ?_, ?_, ?_⟩
  · cases parseTokens tokens with
    | ok t => exact .inl ⟨t, rfl⟩
    | error e => exact .inr ⟨e, rfl⟩
  · cases parseExpression tokens with
    | ok t => exact .inl ⟨t, rfl⟩
    | error e => exact .inr ⟨e, rfl⟩
  · intro blocks
    exact ⟨fun level => (he level blocks).advances inside,
      (reads_keywordPair he blocks).advances inside, (reads_keywordList he blocks).advances inside,
      (reads_primary he blocks).advances inside, (reads_operand he blocks).advances inside⟩
  · intro opening ho
    exact (reads_doBlock he ho).advances fun _ _ hd => (noEnd_cons.mp hd.noEnd).2
  · intro loop
    have moves (c d : Cursor) (round : loop.Round expr c d) : c.MovesOn tokens d :=
      loop.movesOn_of_round he round
    refine ⟨moves, fun _ _ => loop.rounds_of_ends, ?_⟩
    intro k c d n rounds start
    exact rounds.exists_place moves start

/-- A call with a `do` block of one line, then a malformed token and no end-of-file token. -/
def openSample : List Token :=
  [{ kind := .identifier }, { kind := .kwDo }, { kind := .newline }, { kind := .identifier },
    { kind := .newline }, { kind := .kwEnd }, { kind := .error }]

theorem openSample_advances :
    (∃ p, expressionAt 2 0 true (.ofTokens openSample) = .ok p ∧
      ∃ m, 0 < m ∧ m < 8 ∧ p.rest.StandsAt openSample m) ∧
    ∃ c : Cursor, c.StandsAt openSample 2 ∧
      (∃ p, doBlock (expressionAt 1) { kind := .kwDo } c = .ok p ∧
        ∃ m, 2 < m ∧ m < 8 ∧ p.rest.StandsAt openSample m) ∧
      ∃ d, Loop.Ends (expressionAt 1) .lines c d ∧ ∃ m, m < 8 ∧ d.StandsAt openSample m := by
  obtain ⟨-, -, -, first, reads, -⟩ := reading_advances openSample 2
  obtain ⟨-, -, -, -, -, readsBlock, loops⟩ := reading_advances openSample 1
  constructor
  · obtain ⟨p, hp⟩ : ∃ p, expressionAt 2 0 true (.ofTokens openSample) = .ok p :=
      exists_ok_of_isSome (by decide +kernel)
    obtain ⟨m, later, inside, stands, -⟩ := (reads true).1 0 _ p hp 0 first
    exact ⟨p, hp, m, later, inside, stands⟩
  · let c : Cursor := ⟨openSample.drop 2, {}, { kind := .kwDo }⟩
    have start : c.StandsAt openSample 2 := rfl
    refine ⟨c, start, ?_, ?_⟩
    · obtain ⟨p, hp⟩ : ∃ p, doBlock (expressionAt 1) { kind := .kwDo } c = .ok p :=
        exists_ok_of_isSome (by decide +kernel)
      obtain ⟨m, later, inside, stands, -⟩ := readsBlock { kind := .kwDo } rfl c p hp 2 start
      exact ⟨p, hp, m, later, inside, stands⟩
    · obtain ⟨q, hq⟩ : ∃ q, many (nextLine (expressionAt 1)) c = .ok q :=
        exists_ok_of_isSome (by decide +kernel)
      obtain ⟨-, rounds, places⟩ := loops .lines
      obtain ⟨k, hk⟩ := rounds c q.rest ⟨q, hq, rfl⟩
      obtain ⟨m, -, inside, stands⟩ := places k c q.rest 2 hk start
      exact ⟨q.rest, ⟨q, hq, rfl⟩, m, inside, stands⟩

end CallAtlas.Grammar
