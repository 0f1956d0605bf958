import CallAtlas.Proofs.Token.Literals
import CallAtlas.Proofs.Token.Run

/-! # Tokens that end in front of the end of a line

Every token that ends in front of the end of a line is settled by its own bytes. A closing brace may
go on with a literal that was opened before, so this takes that the closers of all open literals are
marked, as they are in every state of the lexer.
-/
namespace CallAtlas

namespace Scan

variable {form : LiteralForm}

/-! ### All tokens -/

/-- The closers of all embedded expressions. -/
def Guarded (frames : List Frame) : Prop := ∀ frame ∈ frames, frame.form.Marked

theorem Settles.ite {p : Bytes → Bool} {f g : Bytes → Lexeme × List Frame} {y : Bytes}
    (hp : Settled p y) (hf : p y → Settles f y) (hg : Settles g y) :
    Settles (fun bs => if p bs then f bs else g bs) y := by
  intro r₀ h₀ fits r h
  dsimp only at fits ⊢
  rw [hp r₀ h₀] at fits
  rw [hp r h]
  split
  · rename_i asked
    rw [if_pos asked] at fits
    exact hf asked r₀ h₀ fits r h
  · rename_i asked
    rw [if_neg asked] at fits
    exact hg r₀ h₀ fits r h

/-- A scanner that leaves the frames alone. -/
theorem Settles.of_settled {f : Bytes → Lexeme} {y : Bytes} (h : Settled f y)
    (frames : List Frame) : Settles (fun bs => (f bs, frames)) y := by
  intro r₀ _ _ r hr
  dsimp only
  rw [h r hr]

/-- What is scanned in front of the end of a line is settled: the first byte tells the scanner, and
each scanner settles. -/
theorem settles_scan {c : UInt8} {y : Bytes} {frames : List Frame} (guarded : Guarded frames) :
    Settles (scan · frames) (c :: y) := by
  have first : ∀ q : UInt8 → Bool, Settled (fun bs => q (peek bs 0)) (c :: y) := fun _ _ _ => rfl
  have operator : Settles (operatorIn · frames) (c :: y) :=
    fun _ _ _ => settled_operatorIn c y frames
  refine .ite (first (· == ';')) (fun _ => .of_settled (fun _ _ => rfl) frames) ?_
  refine .ite (first startsName) (fun _ => .of_settled (settled_identifier _) frames) ?_
  refine .ite (first Bytes.isUpper) (fun _ => .of_settled (settled_aliasName _) frames) ?_
  refine .ite (first Bytes.isDigit) (fun _ => .of_settled (settled_number y) frames) ?_
  refine .ite (first (· == '"')) (fun quote => settles_quoted (quote_stop (.inl quote))) ?_
  refine .ite (first (· == '\'')) (fun quote => settles_quoted (quote_stop (.inr quote))) ?_
  refine .ite (first (· == ':')) (fun _ => settles_colon) ?_
  refine .ite (first (· == '?')) (fun _ => settles_character) ?_
  have letter : Settled (fun bs => peek bs 0 == '~' && isLetter (peek bs 1)) (c :: y) :=
    fun r h => ask_two_append h (· == '~') isLetter (by decide) (by decide) (Nat.zero_le _)
  refine .ite letter (fun letter => ?_) ?_
  · have second : 1 < (c :: y).length :=
      lt_length_of_peek isLetter (by decide) (Bool.and_eq_true_iff.mp letter).2
    cases y with
    | nil => simp at second
    | cons d y => exact settles_sigil
  refine .ite (first (· == '\x7d')) (fun _ => ?_) operator
  split
  · intro r₀ h₀ fits r h
    dsimp only [List.cons_append, List.drop_succ_cons, List.drop_zero] at fits ⊢
    refine settled_fragment (guarded _ List.mem_cons_self) h₀ ?_ r h
    rwa [Nat.add_comm]
  · exact operator

/-! ### The closers of open literals -/

theorem guarded_cons {frame : Frame} {frames : List Frame} (marked : frame.form.Marked)
    (guarded : Guarded frames) : Guarded (frame :: frames) := by
  intro f h
  rcases List.mem_cons.mp h with rfl | h
  · exact marked
  · exact guarded f h

theorem guarded_fragment {frames : List Frame} (marked : form.Marked) (guarded : Guarded frames)
    (starts : Bool) (opening : Nat) (rest : Bytes) :
    Guarded (fragment form starts opening rest frames).2 := by
  have outer : Guarded frames.tail := fun frame h => guarded frame (List.mem_of_mem_tail h)
  have opened : Guarded ({ form } :: frames) := guarded_cons marked guarded
  unfold fragment
  dsimp only
  split <;> (dsimp only; split) <;> assumption

theorem guarded_heredoc {frames : List Frame} {rest : Bytes} (opens : opensHeredoc rest)
    (guarded : Guarded frames) (form : LiteralForm) (fault : LexicalFault) (before : Nat) :
    Guarded (heredoc form fault before rest frames).2 := by
  unfold heredoc
  dsimp only
  split
  · exact guarded_fragment (marked_heredoc opens form) guarded _ _ _
  · exact guarded

theorem guarded_quoted {frames : List Frame} {c : UInt8} (hc : c ∉ unclosing)
    (guarded : Guarded frames) (container : Container) (bs : Bytes) :
    Guarded (quoted container (c :: bs) frames).2 := by
  rw [quoted_cons]
  split
  · rename_i opens
    exact guarded_heredoc opens guarded _ _ _
  · have marked : { container, closer := [c] : LiteralForm }.Marked := marked_single hc rfl
    have literal := guarded_fragment marked guarded true 1 bs
    unfold keyed
    split
    · exact literal
    · exact literal

theorem guarded_sigil {frames : List Frame} (guarded : Guarded frames) (bs : Bytes) :
    Guarded (sigil bs frames).2 := by
  rw [sigil_eq]
  unfold sigilText
  dsimp only
  split
  · rename_i opens
    exact guarded_heredoc opens guarded _ _ _
  · split
    · exact guarded
    · rename_i close hclose
      exact guarded_fragment (marked_single (delimiters_stop hclose) rfl) guarded _ _ _

theorem guarded_colon {frames : List Frame} (guarded : Guarded frames) (c : UInt8) (bs : Bytes) :
    Guarded (colon (c :: bs) frames).2 := by
  let Guards (found : Lexeme × List Frame) : Prop := Guarded found.2
  change Guards (colon (c :: bs) frames)
  unfold colon
  extract_lets next plain mark width
  refine iteInduction (fun _ => guarded) fun _ => ?_
  refine iteInduction (fun quote => ?_) fun _ => ?_
  · have stop := quote_stop (Bool.or_eq_true_iff.mp quote)
    exact guarded_fragment (marked_single stop rfl) guarded _ _ _
  refine iteInduction (fun _ => guarded) fun _ => ?_
  split
  · exact guarded
  · exact guarded

theorem guarded_countBrace {frames : List Frame} (guarded : Guarded frames) (kind : Kind) :
    Guarded (countBrace kind frames) := by
  cases frames with
  | nil => exact guarded
  | cons frame frames =>
    have first := guarded frame List.mem_cons_self
    have others : Guarded frames := fun f h => guarded f (List.mem_cons_of_mem _ h)
    cases kind with
    | lbrace | rbrace => exact guarded_cons first others
    | _ => exact guarded

theorem guarded_scan {frames : List Frame} (guarded : Guarded frames) (c : UInt8) (bs : Bytes) :
    Guarded (scan (c :: bs) frames).2 := by
  let Guards (found : Lexeme × List Frame) : Prop := Guarded found.2
  change Guards (scan (c :: bs) frames)
  have operator : Guards (operatorIn (c :: bs) frames) := guarded_countBrace guarded _
  unfold scan
  extract_lets first
  refine iteInduction (fun _ => guarded) fun _ => ?_
  refine iteInduction (fun _ => guarded) fun _ => ?_
  refine iteInduction (fun _ => guarded) fun _ => ?_
  refine iteInduction (fun _ => guarded) fun _ => ?_
  refine iteInduction (fun quote => ?_) fun _ => ?_
  · exact guarded_quoted (quote_stop (.inl quote)) guarded _ _
  refine iteInduction (fun quote => ?_) fun _ => ?_
  · exact guarded_quoted (quote_stop (.inr quote)) guarded _ _
  refine iteInduction (fun _ => guarded_colon guarded c bs) fun _ => ?_
  refine iteInduction (fun _ => guarded) fun _ => ?_
  refine iteInduction (fun _ => guarded_sigil guarded _) fun _ => ?_
  refine iteInduction (fun _ => ?_) fun _ => operator
  split
  · exact guarded_fragment (guarded _ List.mem_cons_self) guarded _ _ _
  · exact operator

end Scan

theorem Lexer.Reached.guarded {s : Source} {st : Lexer.State} (h : Lexer.Reached s st) :
    Scan.Guarded st.frames := by
  induction h with
  | start => exact fun _ h => nomatch h
  | lineBreak _ _ ih => exact ih
  | token _ more _ ih =>
    obtain ⟨b, bs, ahead⟩ := List.exists_cons_of_ne_nil more
    unfold Lexer.State.behindToken Lexer.State.scanned
    rw [ahead]
    exact Scan.guarded_scan ih b bs

end CallAtlas
