import CallAtlas.Proofs.Source
import CallAtlas.Proofs.Token.Layout

/-! # Positions of tokens and lexical errors

Reading never goes beyond the text, and a fault is noticed inside the lexeme that it is about. So
every token and every lexical error starts and ends at a place of the text, told as the table of
lines tells it.
-/
namespace CallAtlas

/-! ### Places of a text -/

/-- A place of a text is what the table of lines tells about its own offset, up to the length of
what starts there. -/
structure Location.IsIn (s : Source) (loc : Location) : Prop where
  offset_le : loc.offset ≤ s.text.length
  told : loc = { s.lineTable.location loc.offset with length := loc.length }

/-- A region from a place of a text to another one. -/
def Span.IsIn (s : Source) (span : Span) : Prop := span.start.IsIn s ∧ span.stop.IsIn s

section

variable {s : Source} {k : Nat}

theorem isIn_location (small : s.text.length < UInt32.size) (hk : k ≤ s.text.length) (n : Nat) :
    Location.IsIn s { s.lineTable.location k with length := n } := by
  have offset : (s.lineTable.location k).offset = k :=
    Nat.mod_eq_of_lt (Nat.lt_of_le_of_lt hk small)
  constructor
  · exact Nat.le_trans (Nat.le_of_eq offset) hk
  · simp only [offset]

theorem isIn_span (small : s.text.length < UInt32.size) {j : Nat} (hj : j ≤ s.text.length)
    (hk : k ≤ s.text.length) (n : Nat) :
    Span.IsIn s ⟨{ s.lineTable.location j with length := n }, s.lineTable.location k⟩ :=
  ⟨isIn_location small hj n, isIn_location small hk 1⟩

end

/-! ### Where faults are noticed -/

/-- All faults are noticed within the first `width` bytes. -/
def FaultsWithin (width : Nat) (faults : List (LexicalFault × Nat)) : Prop :=
  ∀ f ∈ faults, f.2 ≤ width

theorem faultsWithin_nil (width : Nat) : FaultsWithin width [] := nofun

theorem faultsWithin_failed (fault : LexicalFault) (width : Nat) :
    FaultsWithin width (Lexeme.failed fault width).faults :=
  List.forall_mem_singleton.mpr (Nat.le_refl width)

section

variable {width n : Nat} {faults : List (LexicalFault × Nat)}

theorem FaultsWithin.mono (h : FaultsWithin width faults) (le : width ≤ n) :
    FaultsWithin n faults := fun f hf => Nat.le_trans (h f hf) le

theorem FaultsWithin.shift (h : FaultsWithin width faults) :
    FaultsWithin (n + width) (shiftFaults n faults) := by
  intro f hf
  obtain ⟨g, hg, rfl⟩ := List.mem_map.mp hf
  have le := h g hg
  dsimp only
  omega

theorem FaultsWithin.append {more : List (LexicalFault × Nat)} (h : FaultsWithin width faults)
    (h' : FaultsWithin width more) : FaultsWithin width (faults ++ more) :=
  List.forall_mem_append.mpr ⟨h, h'⟩

theorem faultsWithin_toList (fault : Option LexicalFault) (width : Nat) :
    FaultsWithin width (fault.map fun f => (f, width)).toList := by
  cases fault with
  | none => exact faultsWithin_nil width
  | some f => exact List.forall_mem_singleton.mpr (Nat.le_refl width)

end

theorem Body.faultsWithin_after {body : Body} (h : FaultsWithin body.width body.faults)
    (value : Bytes) (width : Nat) (fault : Option LexicalFault) :
    FaultsWithin (body.after value width fault).width (body.after value width fault).faults :=
  ((faultsWithin_toList fault width).mono (Nat.le_add_right _ _)).append h.shift

theorem LiteralForm.faultsWithin_body (form : LiteralForm) (lineStart : Bool) (bs : Bytes) :
    FaultsWithin (form.body lineStart bs).width (form.body lineStart bs).faults := by
  fun_induction body form lineStart bs with
  | case1 => exact faultsWithin_nil _
  | case2 => exact faultsWithin_nil _
  | case3 => exact faultsWithin_nil _
  | case4 lineStart more _ escape _ _ ih => exact Body.faultsWithin_after ih _ _ _
  | case5 lineStart more _ _ _ _ ih => exact Body.faultsWithin_after ih _ _ _
  | case6 lineStart more _ _ _ _ ih => exact Body.faultsWithin_after ih _ _ _
  | case7 lineStart b more _ _ _ ih => exact Body.faultsWithin_after ih _ _ _

/-- The faults of a lexeme are noticed inside it. -/
def Lexeme.Noticed (lexeme : Lexeme) : Prop := FaultsWithin lexeme.width lexeme.faults

namespace Scan

theorem noticed_fragment (form : LiteralForm) (starts : Bool) (opening : Nat) (rest : Bytes)
    (frames : List Frame) : (fragment form starts opening rest frames).1.Noticed := by
  unfold fragment Lexeme.Noticed
  extract_lets body width faults fault failed modifiers
  have inside : FaultsWithin width faults := (form.faultsWithin_body _ rest).shift
  split
  · exact inside.append (faultsWithin_failed fault width)
  · exact inside
  · exact inside.mono (Nat.le_add_right _ _)

theorem noticed_heredoc (form : LiteralForm) (fault : LexicalFault) (before : Nat) (rest : Bytes)
    (frames : List Frame) : (heredoc form fault before rest frames).1.Noticed := by
  unfold heredoc
  extract_lets width
  split
  · exact noticed_fragment _ _ _ _ _
  · exact faultsWithin_failed _ _

theorem noticed_quoted (container : Container) (bs : Bytes) (frames : List Frame) :
    (quoted container bs frames).1.Noticed := by
  unfold quoted
  extract_lets form
  split
  · exact noticed_heredoc _ _ _ _ _
  · -- a colon behind the closing quote makes the lexeme one byte longer
    have plain := noticed_fragment form true 1 (bs.drop 1) frames
    split
    rename_i lexeme frames' hfragment
    rw [hfragment] at plain
    split
    · exact plain.mono (Nat.le_succ _)
    · exact plain

theorem noticed_sigil (bs : Bytes) (frames : List Frame) : (sigil bs frames).1.Noticed := by
  unfold sigil
  extract_lets name decoded form before rest
  split
  · exact noticed_heredoc _ _ _ _ _
  · split
    · exact faultsWithin_failed _ _
    · exact noticed_fragment _ _ _ _ _

theorem noticed_colon (bs : Bytes) (frames : List Frame) : (colon bs frames).1.Noticed := by
  unfold colon
  extract_lets next plain mark width
  split
  · exact faultsWithin_nil _
  split
  · exact noticed_fragment _ _ _ _ _
  split
  · exact faultsWithin_nil _
  split
  · exact faultsWithin_nil _
  · exact faultsWithin_failed _ _

theorem noticed_named (bs : Bytes) (width : Nat) (kind : Bytes → Kind) :
    (named bs width kind).Noticed := by
  unfold named
  split <;> exact faultsWithin_nil _

theorem noticed_character (bs : Bytes) : (character bs).Noticed := by
  unfold character
  split
  · exact faultsWithin_failed _ _
  · split
    · exact faultsWithin_failed _ _
    · split
      · exact faultsWithin_toList _ _
      · exact faultsWithin_nil _

theorem noticed_number (bs : Bytes) : (number bs).Noticed := by
  unfold number
  split
  · unfold basedNumber
    extract_lets width digits
    split
    · exact faultsWithin_failed _ _
    · exact faultsWithin_nil _
  · unfold decimalNumber
    extract_lets whole fraction width
    split <;> exact faultsWithin_nil _

theorem noticed_operator (bs : Bytes) : (operator bs).Noticed := by
  unfold operator
  split
  · exact faultsWithin_nil _
  · split
    · exact faultsWithin_nil _
    · exact faultsWithin_failed _ _

theorem noticed_scan (bs : Bytes) (frames : List Frame) : (scan bs frames).1.Noticed := by
  let IsNoticed (found : Lexeme × List Frame) : Prop := found.1.Noticed
  change IsNoticed (scan bs frames)
  have operator : IsNoticed (operatorIn bs frames) := noticed_operator bs
  unfold scan
  extract_lets first
  -- the branches in the order in which they are tried
  refine iteInduction (fun _ => faultsWithin_nil _) fun _ => ?_
  refine iteInduction (fun _ => noticed_named _ _ _) fun _ => ?_
  refine iteInduction (fun _ => noticed_named _ _ _) fun _ => ?_
  refine iteInduction (fun _ => noticed_number bs) fun _ => ?_
  refine iteInduction (fun _ => noticed_quoted _ bs frames) fun _ => ?_
  refine iteInduction (fun _ => noticed_quoted _ bs frames) fun _ => ?_
  refine iteInduction (fun _ => noticed_colon bs frames) fun _ => ?_
  refine iteInduction (fun _ => noticed_character bs) fun _ => ?_
  refine iteInduction (fun _ => noticed_sigil bs frames) fun _ => ?_
  refine iteInduction (fun _ => ?_) fun _ => operator
  split
  · exact noticed_fragment _ _ _ _ _
  · exact operator

end Scan

/-! ### The run -/

namespace Lexer

section

variable {s : Source} {start : Nat} {lexeme : Lexeme}

theorem isIn_place (small : s.text.length < UInt32.size)
    (inside : start + lexeme.width ≤ s.text.length) (bs : Bytes) (gap : Gap) :
    (place s.lineTable start bs gap lexeme).span.IsIn s :=
  isIn_span small (by omega) (by omega) _

theorem isIn_placeFaults (small : s.text.length < UInt32.size)
    (inside : start + lexeme.width ≤ s.text.length) (noticed : lexeme.Noticed) :
    ∀ e ∈ placeFaults s.lineTable start lexeme, e.span.IsIn s := by
  intro e he
  obtain ⟨f, hf, rfl⟩ := List.mem_map.mp he
  have le := noticed f hf
  exact isIn_span small (by omega) (by omega) 1

end

/-- What the lexer keeps from state to state: the tokens and the errors found so far are regions of
the text. -/
structure State.Placed (s : Source) (st : State) : Prop where
  tokens : ∀ t ∈ st.found, t.span.IsIn s
  errors : ∀ e ∈ st.errors, e.span.IsIn s

theorem Reached.placed {s : Source} {st : State} (small : s.text.length < UInt32.size)
    (h : Reached s st) : st.Placed s := by
  induction h with
  | start => exact ⟨List.forall_mem_nil _, List.forall_mem_nil _⟩
  | @lineBreak st width reached ending ih =>
    have inside := (reached.laidOut small).start_add_le (ending_gap ending).2.2
    have found : (st.lineBreak s.lineTable width).span.IsIn s :=
      isIn_span small (Nat.le_of_add_right_le inside) (Nat.le_trans (Nat.sub_le _ 1) inside) _
    exact ⟨List.forall_mem_append.mpr ⟨ih.tokens, List.forall_mem_singleton.mpr found⟩, ih.errors⟩
  | @token st reached more _ ih =>
    obtain ⟨b, bs, ahead⟩ := List.exists_cons_of_ne_nil more
    have within : st.scanned.1.width ≤ st.ahead.length := by
      rw [State.scanned, ahead]
      exact (Scan.within_scan b bs st.frames).2
    have inside := (reached.laidOut small).start_add_le within
    have found : (st.token s.lineTable).span.IsIn s := isIn_place small inside _ _
    have faults := isIn_placeFaults small inside (Scan.noticed_scan st.ahead st.frames)
    exact ⟨List.forall_mem_append.mpr ⟨ih.tokens, List.forall_mem_singleton.mpr found⟩,
      List.forall_mem_append.mpr ⟨ih.errors, faults⟩⟩

/-- All tokens and all errors of a source are regions of its text. -/
theorem tokenize_placed (s : Source) (small : s.text.length < UInt32.size) :
    (∀ t ∈ (tokenize s).1, t.span.IsIn s) ∧ ∀ e ∈ (tokenize s).2, e.span.IsIn s := by
  obtain ⟨last, reached, -, finished⟩ := tokenize_eq_finished s
  have placed := reached.placed small
  have start := (reached.laidOut small).start_le
  have eof (gap : Gap) : (last.eof s.lineTable gap).span.IsIn s := isIn_place small start _ _
  by_cases closed : last.frames = []
  · rw [finished, State.finished_closed _ closed]
    refine ⟨List.forall_mem_append.mpr ⟨placed.tokens, ?_⟩, placed.errors⟩
    exact List.forall_mem_singleton.mpr (eof _)
  · rw [finished, State.finished_open _ closed]
    have cut : (last.cut s.lineTable).span.IsIn s := isIn_place small start _ _
    have fault : ∀ e ∈ placeFaults s.lineTable last.start (.failed .unterminatedInterpolation 0),
        e.span.IsIn s := isIn_placeFaults small start (faultsWithin_failed _ _)
    refine ⟨?_, List.forall_mem_append.mpr ⟨placed.errors, fault⟩⟩
    refine List.forall_mem_append.mpr ⟨?_, List.forall_mem_singleton.mpr (eof _)⟩
    exact List.forall_mem_append.mpr ⟨placed.tokens, List.forall_mem_singleton.mpr cut⟩

end Lexer

end CallAtlas
