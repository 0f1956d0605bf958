import CallAtlas.Proofs.Grammar.Regions.Rules

/-! # Positions of a source

Everything that is told about places of a source comes from its tokens: the errors of the lexer, the
errors of the grammar and the nodes of the tree are regions between places of tokens, and those are
told by the table of lines.
-/
namespace CallAtlas

variable {s : Source}

namespace Grammar

theorem isIn_ofTokens {tokens : List Token} {eof : Token} (h : ∀ t ∈ tokens ++ [eof], t.span.IsIn s)
    (kind : eof.kind = .eof) : (Cursor.ofTokens (tokens ++ [eof])).IsIn s := by
  obtain ⟨inside, behind⟩ := List.forall_mem_append.mp h
  have last := List.forall_mem_singleton.mp behind
  have cursor : Cursor.ofTokens (tokens ++ [eof]) = ⟨tokens, eof, tokens.headD eof⟩ := by
    simp only [Cursor.ofTokens, List.getLast?_concat, kind, if_true, List.dropLast_concat]
    cases tokens <;> rfl
  rw [cursor]
  -- a first cursor takes its own first token for the one that was read last
  refine ⟨inside, last, ?_⟩
  cases tokens with
  | nil => exact last
  | cons t tokens => exact inside t List.mem_cons_self

theorem leads_parseTokens {tokens : List Token} (h : (Cursor.ofTokens tokens).IsIn s) :
    Leads s (parseTokens tokens) (Tree.IsIn s) := by
  refine (stays_block (stays_expressionAt maxNesting) _ h).bind fun file hfile => ?_
  have behind := hfile.1.skipNewlines
  dsimp only
  split
  · exact hfile.2
  · exact leads_fail behind _ _

/-- All nodes of the tree of a source, or all errors in it, are regions of its text. -/
theorem parse_placed (s : Source) (small : s.text.length < UInt32.size) :
    (∀ t, parse s = .ok t → t.IsIn s) ∧ ∀ es, parse s = .error es → ∀ e ∈ es, e.span.IsIn s := by
  obtain ⟨placed, faults⟩ := Lexer.tokenize_placed s small
  obtain ⟨tokens, eof, found, -, kind⟩ := Lexer.tokenize_ends s
  have leads := leads_parseTokens (isIn_ofTokens (found ▸ placed) kind)
  rw [← found] at leads
  unfold parse
  split
  · rename_i tokens' hclean
    rw [hclean] at leads
    cases result : parseTokens tokens' with
    | ok t =>
      rw [result] at leads
      exact ⟨fun t' ht => Except.ok.inj ht ▸ leads, nofun⟩
    | error e =>
      rw [result] at leads
      refine ⟨nofun, fun es hes => ?_⟩
      obtain rfl := Except.error.inj hes
      exact List.forall_mem_singleton.mpr leads
  · rename_i hfaults
    refine ⟨nofun, fun es hes => ?_⟩
    obtain rfl := Except.error.inj hes
    intro e he
    obtain ⟨fault, hfault, rfl⟩ := List.mem_map.mp he
    rw [hfaults] at faults
    exact faults fault hfault

end Grammar

/-! ### All positions of a source -/

/-- What is told about places of a source. Lines and columns are counted with 32 bits, so they are
those of the text and in the order of the offsets, but for an offset that overflows. Tokens, errors
and nodes are regions between such places. -/
structure Source.PositionsTold (s : Source) : Prop where
  counted : ∀ k ≤ s.text.length, s.lineTable.location k =
    { line := s.text.lineAt k % UInt32.size
      column := s.text.columnAt k % UInt32.size
      offset := k
      length := 1 }
  plain : ∀ k ≤ s.text.length, s.lineTable.location k =
      { line := s.text.lineAt k, column := s.text.columnAt k, offset := k, length := 1 } ↔
    ¬ s.text.Overflows k
  increasing : ∀ j k, j < k → k ≤ s.text.length →
    (Bytes.Before (s.lineTable.location j).place (s.lineTable.location k).place ↔
      ¬ s.text.Overflows k)
  distinct : ∀ j k, j < k → k ≤ s.text.length →
    (s.lineTable.location j).place ≠ (s.lineTable.location k).place
  tokens : ∀ t ∈ (tokenize s).1, t.span.IsIn s
  lexicalErrors : ∀ e ∈ (tokenize s).2, e.span.IsIn s
  syntaxErrors : ∀ errors, Grammar.parse s = .error errors → ∀ e ∈ errors, e.span.IsIn s
  nodes : ∀ t, Grammar.parse s = .ok t → ∀ n ∈ t.nodes, n.span.IsIn s

theorem positions_told (s : Source) (small : s.text.length < UInt32.size) : s.PositionsTold := by
  constructor
  · exact fun k hk => LineTable.location_ofText small hk
  · exact fun k hk => LineTable.location_eq_iff small hk
  · exact fun j k hj hk => LineTable.place_before_iff small hj hk
  · intro j k hj hk same
    rw [Source.lineTable, LineTable.location_ofText small hk,
      LineTable.location_ofText small (Nat.le_trans (Nat.le_of_lt hj) hk)] at same
    exact LineTable.place_ne_of_lt small hj hk same
  · exact (Lexer.tokenize_placed s small).1
  · exact (Lexer.tokenize_placed s small).2
  · exact (Grammar.parse_placed s small).2
  · exact (Grammar.parse_placed s small).1

/-- Two lines, the second of them with an error. -/
def unclosedSample : Source := ⟨Source.defaultName, text "a\n \"b"⟩

theorem unclosedSample_positions :
    unclosedSample.text.length < UInt32.size ∧ unclosedSample.PositionsTold := by
  have small : unclosedSample.text.length < UInt32.size := by decide
  exact ⟨small, positions_told unclosedSample small⟩

/-- One line with all offsets of 32 bits. -/
def longLine : Source := ⟨Source.defaultName, List.replicate (UInt32.size - 1) ('a' : UInt8)⟩

/-- The column at the end of the line is told as zero, so the end is told to be before the start.
The table of lines is that of the empty text. -/
theorem longLine_end_misplaced :
    longLine.text.length < UInt32.size ∧ UInt32.size - 1 ≤ longLine.text.length ∧
      longLine.text.placeAt (UInt32.size - 1) = (1, UInt32.size) ∧
      (longLine.lineTable.location (UInt32.size - 1)).place = (1, 0) ∧
      ¬ Bytes.Before (longLine.lineTable.location 0).place
        (longLine.lineTable.location (UInt32.size - 1)).place ∧
      longLine.lineTable = LineTable.ofText [] := by
  have pos : 1 < UInt32.size := by decide
  have last : UInt32.size - 1 + 1 = UInt32.size := by omega
  have length : longLine.text.length = UInt32.size - 1 := List.length_replicate
  have small : longLine.text.length < UInt32.size := by omega
  have inside : UInt32.size - 1 ≤ longLine.text.length := Nat.le_of_eq length.symm
  have plain : ('\n' : UInt8) ∉ longLine.text := by
    intro feed
    exact absurd (List.eq_of_mem_replicate feed) (by decide)
  have before : ('\n' : UInt8) ∉ longLine.text.take (UInt32.size - 1) :=
    fun feed => plain (List.mem_of_mem_take feed)
  have column : longLine.text.columnAt (UInt32.size - 1) = UInt32.size :=
    ((Bytes.columnAt_eq_succ_iff inside).mpr before).trans last
  have line : longLine.text.lineAt (UInt32.size - 1) = 1 := by
    have sum := Bytes.lineAt_add_columnAt_le inside
    have some := longLine.text.lineAt_pos (UInt32.size - 1)
    omega
  refine ⟨small, inside, ?_, ?_, ?_, LineTable.ofText_of_not_mem plain⟩
  · rw [Bytes.placeAt, line, column]
  · rw [Source.lineTable, LineTable.location_ofText small inside, Location.place, line, column,
      Nat.mod_self, Nat.mod_eq_of_lt pos]
  · rw [Source.lineTable, LineTable.place_before_iff small (Nat.sub_pos_of_lt pos) inside]
    exact not_not_intro ⟨last, .inl before⟩

end CallAtlas
