import CallAtlas.Proofs.Grammar.Precedence
import CallAtlas.Proofs.Grammar.Seam.Expression
import CallAtlas.Proofs.Grammar.Shape

/-! # A call at a seam

A call without a block ends at a seam, and a block is put there. The arguments of the call are read
as before, since none of them may take the block. So the call takes it, as its last child, unless
the call is in parentheses, and then the block is still to be read.
-/
namespace CallAtlas

/-- A call that a block may be attached to and that has none. -/
structure Tree.AwaitsBlock (t : Tree) : Prop where
  takes : t.form.takesBlock
  none : ∀ child ∈ t.children, child.form ≠ .doBlock

theorem Tree.AwaitsBlock.ne_clause {t : Tree} (h : t.AwaitsBlock) : t.form ≠ .clause := by
  intro clause
  have takes := h.takes
  rw [clause] at takes
  cases takes

namespace Grammar

open Seam

variable {s : Seam} {c : Cursor} {expr : Expr}

/-- Suffixes are none, or two tokens and more. -/
theorem suffixes_cases {blocks : Bool} {left : Tree} {p : MaybeParsed c Tree}
    (h : suffixes expr blocks left c = .ok p) :
    p.value = left ∧ p.rest = c ∨ p.rest.size + 2 ≤ c.size := by
  rw [suffixes, iterate] at h
  split at h
  · cases h
  · obtain rfl := Except.ok.inj h
    exact .inl ⟨rfl, rfl⟩
  · rename_i first hfirst
    obtain ⟨more, -, rfl⟩ := map_eq_ok h
    exact .inr (Nat.le_trans (Nat.add_le_add_right more.size_le 2) (two_of_suffix hfirst).1)

theorem outcome_suffixes {blocks : Bool} {left : Tree} {found : Attempt (Parsed c Tree)}
    (h : suffix? expr blocks left c = found.map some) :
    MaybeParsed.outcome (suffixes expr blocks left c) =
      Parsed.outcome
        (found >>= fun first => first.andMaybe (suffixes expr blocks first.value)) := by
  rw [suffixes, iterate, h]
  cases found with
  | error e => rfl
  | ok first =>
    change MaybeParsed.outcome ((suffixes expr blocks first.value first.rest).map
      first.maybe.followedBy) = Parsed.outcome (first.andMaybe (suffixes expr blocks first.value))
    rw [Parsed.outcome_andMaybe]
    exact MaybeParsed.outcome_followedBy first.maybe _

/-- An application of an operator is no call, so none stands behind a call. -/
theorem climb_of_takesBlock {level : Nat} {blocks : Bool} {left : Tree} {p : MaybeParsed c Tree}
    (h : climb expr level blocks left c = .ok p) (call : p.value.form.takesBlock) :
    p.value = left ∧ p.rest = c := by
  unfold climb at h
  fun_induction iterate (application? expr level blocks) left c with
  | case1 left c e _ => cases h
  | case2 left c _ =>
    obtain rfl := Except.ok.inj h
    exact ⟨rfl, rfl⟩
  | case3 left c q hq ih =>
    obtain ⟨r, hr, rfl⟩ := map_eq_ok h
    obtain ⟨same, -⟩ := ih hr call
    have call : q.value.form.takesBlock := same ▸ call
    unfold application? at hq
    split at hq
    · cases hq
    · rename_i op _
      split at hq
      · cases hq
      · obtain ⟨right, -, hq⟩ := bind_eq_ok hq
        obtain rfl := Option.some.inj (Except.ok.inj hq)
        change (if op.value.name = text "=>" then Form.pair else .binaryOp).takesBlock at call
        split at call <;> cases call

/-! ### Reads that end at the seam -/

/-- What stands behind the seam: a block, which a call takes as its last child, and then nothing. -/
structure Seam.Opens (s : Seam) (expr : Expr) (body : Tree) (behind : Cursor) : Prop where
  starts : ∀ c, c.size = s.size → (s.move c).peek.kind = .kwDo
  ends : behind.peek.kind = .eof
  attaches : ∀ call c p, c.size = s.size → attach expr true call (s.move c) = .ok p →
    p.value = call.append body ∧ p.rest = behind

/-- What a read from the new list gives that ends at the seam with a call in the old list: the call
with the block, or the same call, behind which the block is still to be read. -/
def Seam.Meets (s : Seam) (body : Tree) (behind : Cursor) (found : Attempt (Tree × Cursor))
    (call : Tree) (d : Cursor) : Prop :=
  (∀ q, found = .ok q → q = (call.append body, behind)) ∨ found = .ok (call, s.move d)

section Reads

variable {body : Tree} {behind : Cursor} (he : s.ExprMoves expr expr)
  (ho : s.Opens expr body behind)

theorem Seam.Opens.stops (ho : s.Opens expr body behind) (hc : c.size = s.size) :
    stopsAt false (s.move c).peek.kind := by
  rw [ho.starts c hc]
  rfl

theorem Seam.Opens.fits (ho : s.Opens expr body behind) (hc : c.size = s.size) :
    s.Fits false false c :=
  .inl ⟨ho.stops hc, fun h => by cases h⟩

theorem Seam.Opens.fits_of_suffixes (ho : s.Opens expr body behind) {left : Tree}
    {p : MaybeParsed c Tree} (h : suffixes expr true left c = .ok p) (hp : p.rest.size = s.size) :
    s.Fits false false c := by
  rcases suffixes_cases h with ⟨-, rest⟩ | two
  · exact ho.fits (rest ▸ hp)
  · exact fits_of_two (by omega)

/-- A call that has no block has taken none. -/
theorem attach_of_awaits {blocks : Bool} {call : Tree} {p : MaybeParsed c Tree}
    (h : attach expr blocks call c = .ok p) (awaits : p.value.AwaitsBlock) : p = c.stay call := by
  unfold attach at h
  split at h
  · obtain ⟨block, hblock, h⟩ := bind_eq_ok h
    obtain rfl := Except.ok.inj h
    have form : block.value.form = .doBlock := by
      obtain ⟨q, hq, rfl⟩ := map_eq_ok hblock
      obtain ⟨first, -, hq⟩ := bind_eq_ok hq
      obtain ⟨more, -, hq⟩ := bind_eq_ok hq
      obtain ⟨last, -, hq⟩ := bind_eq_ok hq
      obtain rfl := Except.ok.inj hq
      rfl
    have child : block.value ∈ (call.append block.value).children :=
      List.mem_append_right _ List.mem_cons_self
    exact absurd form (awaits.none _ child)
  · exact (Except.ok.inj h).symm

/-- What is read up to the seam whatever stands behind it takes no block. -/
theorem meets_of_moved {p : Parsed c Tree} (hs : s.size ≤ p.rest.size)
    {found : Attempt (Parsed (s.move c) Tree)} (h : found = .ok (s.moved p hs)) :
    s.Meets body behind (Parsed.outcome found) p.value p.rest :=
  .inr (map_of_ok h)

/-- The block stands behind what is read last. -/
theorem meets_andMaybe {α : Type} {read read' : MaybeReader Tree} {first : Parsed c α}
    (inside : s.size ≤ first.rest.size) {p : Parsed c Tree} (h : first.andMaybe read = .ok p)
    (meets : ∀ q, read first.rest = .ok q → q.value = p.value → q.rest = p.rest →
      s.Meets body behind (MaybeParsed.outcome (read' (s.move first.rest))) q.value q.rest) :
    s.Meets body behind (Parsed.outcome ((s.moved first inside).andMaybe read')) p.value
      p.rest := by
  obtain ⟨q, hq, rfl⟩ := map_eq_ok h
  rw [Parsed.outcome_andMaybe]
  exact meets q hq rfl rfl

include ho

/-- A call that was read goes no further where nothing goes on: neither behind it, before the
block, nor behind the block. -/
theorem meets_of_stops {next : Tree → MaybeReader Tree}
    (stays : ∀ call d, stopsAt false d.peek.kind → next call d = .ok (d.stay call))
    {found : Attempt (Parsed c Tree)} {call : Tree} {d : Cursor} (hd : d.size = s.size)
    (h : s.Meets body behind (Parsed.outcome found) call d) :
    s.Meets body behind
      (Parsed.outcome (found >>= fun left => left.andMaybe (next left.value))) call d := by
  have ended : stopsAt false behind.peek.kind := by rw [ho.ends]; rfl
  cases found with
  | error e => exact .inl fun q hq => by cases hq
  | ok left =>
    have stops : stopsAt false left.rest.peek.kind := by
      rcases h with attached | alone
      · have rest : left.rest = behind := congrArg Prod.snd (attached _ rfl)
        rwa [rest]
      · have rest : left.rest = s.move d := congrArg Prod.snd (Except.ok.inj alone)
        rw [rest]
        exact ho.stops hd
    change s.Meets body behind (Parsed.outcome (left.andMaybe (next left.value))) call d
    rw [Parsed.outcome_andMaybe, stays _ _ stops]
    exact h

include he

theorem meets_identifier (name : Token) {p : MaybeParsed c Tree}
    (h : identifier expr true name c = .ok p) (hp : p.rest.size = s.size)
    (awaits : p.value.AwaitsBlock) :
    s.Meets body behind (MaybeParsed.outcome (identifier expr true name (s.move c))) p.value
      p.rest := by
  obtain ⟨arguments, harguments, h⟩ := bind_eq_ok h
  dsimp only at h
  split at h
  · obtain rfl := Except.ok.inj h
    cases awaits.takes
  · obtain ⟨call, hcall, rfl⟩ := map_eq_ok h
    obtain rfl := attach_of_awaits hcall awaits
    have hp : arguments.rest.size = s.size := hp
    have found := moves_arguments he c arguments (Nat.le_of_eq hp.symm) harguments (ho.fits hp)
    left
    intro q hq
    obtain ⟨r, hr, rfl⟩ := map_eq_ok hq
    obtain ⟨arguments', harguments', hr⟩ := bind_eq_ok hr
    obtain rfl := Except.ok.inj (found.symm.trans harguments')
    have sees : (s.move arguments.rest).sees .kwDo := by
      rw [Cursor.sees, ho.starts _ hp]
      rfl
    dsimp only at hr
    split at hr
    · rename_i alone
      change (arguments.value.isNone &&
        !(true && (s.move arguments.rest).sees .kwDo)) = true at alone
      rw [sees, Bool.true_and, Bool.not_true, Bool.and_false] at alone
      cases alone
    · obtain ⟨u, hu, rfl⟩ := map_eq_ok hr
      obtain ⟨value, rest⟩ := ho.attaches _ _ u hp hu
      exact Prod.ext value rest

theorem meets_member (left : Tree) (name : Token) {p : MaybeParsed c Tree}
    (h : member expr true left name c = .ok p) (hp : p.rest.size = s.size)
    (awaits : p.value.AwaitsBlock) :
    s.Meets body behind (MaybeParsed.outcome (member expr true left name (s.move c))) p.value
      p.rest := by
  obtain ⟨arguments, harguments, h⟩ := bind_eq_ok h
  dsimp only at h
  split at h
  · obtain rfl := Except.ok.inj h
    cases awaits.takes
  · rename_i called
    obtain ⟨call, hcall, rfl⟩ := map_eq_ok h
    obtain rfl := attach_of_awaits hcall awaits
    have hp : arguments.rest.size = s.size := hp
    have found := moves_arguments he c arguments (Nat.le_of_eq hp.symm) harguments (ho.fits hp)
    refine .inl ?_
    intro q hq
    obtain ⟨r, hr, rfl⟩ := map_eq_ok hq
    obtain ⟨arguments', harguments', hr⟩ := bind_eq_ok hr
    obtain rfl := Except.ok.inj (found.symm.trans harguments')
    dsimp only at hr
    split at hr
    · rename_i field
      exact absurd field called
    · obtain ⟨u, hu, rfl⟩ := map_eq_ok hr
      obtain ⟨value, rest⟩ := ho.attaches _ _ u hp hu
      exact Prod.ext value rest

theorem meets_dotted (left : Tree) {p : Parsed c Tree} (h : dotted expr true left c = .ok p)
    (hp : p.rest.size = s.size) (awaits : p.value.AwaitsBlock) :
    s.Meets body behind (Parsed.outcome (dotted expr true left (s.move c))) p.value p.rest := by
  have hs : s.size ≤ p.rest.size := Nat.le_of_eq hp.symm
  unfold dotted at h ⊢
  split at h
  · cases h
  · rename_i token htoken
    have inside := inside_of_next htoken hs
    rw [s.next_move htoken inside]
    dsimp only [moved]
    split at h
    · obtain rfl := Except.ok.inj h
      exact .inr rfl
    · obtain ⟨entries, hentries, h⟩ := bind_eq_ok h
      obtain rfl := Except.ok.inj h
      have inner := (moves_items he rfl false).andThen hentries hs trivial inside
      exact meets_of_moved hs (bind_of_ok inner rfl)
    · exact meets_of_moved hs ((moves_anonCall he left).andThen h hs trivial inside)
    · split at h
      · rename_i named
        rw [if_pos named]
        refine meets_andMaybe inside h ?_
        intro q hq value rest
        exact meets_member he ho left token.value hq (rest ▸ hp) (value ▸ awaits)
      · cases h

/-- One suffix up to the seam. -/
theorem meets_suffix (left : Tree) {p : Parsed c Tree}
    (h : suffix? expr true left c = .ok (some p)) (hp : p.rest.size = s.size)
    (awaits : p.value.AwaitsBlock) :
    ∃ found, suffix? expr true left (s.move c) = found.map some ∧
      s.Meets body behind (Parsed.outcome found) p.value p.rest := by
  have hs : s.size ≤ p.rest.size := Nat.le_of_eq hp.symm
  unfold suffix? at h ⊢
  split at h
  · cases h
  · rename_i token htoken
    have inside := inside_of_next htoken hs
    rw [s.next_move htoken inside]
    dsimp only [moved]
    split at h
    · refine ⟨_, rfl, ?_⟩
      obtain ⟨q, hq, rfl⟩ := map_eq_ok (eq_ok_of_map_some h)
      rw [Parsed.outcome_andThen]
      exact meets_dotted he ho left hq hp awaits
    · split at h
      · cases h
      · rename_i touches
        refine ⟨_, if_neg touches, meets_of_moved hs ?_⟩
        exact (moves_access he left).andThen (eq_ok_of_map_some h) hs trivial inside
    · split at h
      · cases h
      · rename_i touches
        refine ⟨_, if_neg touches, meets_of_moved hs ?_⟩
        exact (moves_anonCall he left).andThen (eq_ok_of_map_some h) hs trivial inside
    · cases h

theorem meets_suffixes (left : Tree) {p : MaybeParsed c Tree}
    (h : suffixes expr true left c = .ok p) (hp : p.rest.size = s.size)
    (awaits : p.value.AwaitsBlock) :
    s.Meets body behind (MaybeParsed.outcome (suffixes expr true left (s.move c))) p.value
      p.rest := by
  unfold suffixes at h
  fun_induction iterate (suffix? expr true) left c with
  | case1 left c e _ => cases h
  | case2 left c _ =>
    obtain rfl := Except.ok.inj h
    have stops : stopsAt false (s.move c).peek.kind := ho.stops hp
    rw [suffixes_of_stops stops]
    exact .inr rfl
  | case3 left c q hq ih =>
    obtain ⟨r, hr, rfl⟩ := map_eq_ok h
    have hp : r.rest.size = s.size := hp
    by_cases last : q.rest.size = s.size
    · rcases suffixes_cases hr with ⟨value, rest⟩ | two
      · obtain ⟨found, hfound, meets⟩ := meets_suffix he ho left hq last (value ▸ awaits)
        rw [outcome_suffixes hfound]
        change s.Meets body behind _ r.value r.rest
        rw [value, rest]
        exact meets_of_stops ho (fun call d stops => suffixes_of_stops stops expr true call) last
          meets
      · omega
    · have two : s.size + 2 ≤ q.rest.size := by
        rcases suffixes_cases hr with ⟨-, rest⟩ | two
        · exact absurd (rest ▸ hp) last
        · omega
      have inside : s.size ≤ q.rest.size := by omega
      have carried : suffix? expr true left (s.move c) =
          Except.map some (.ok (s.moved q inside)) :=
        (moves_suffix he id left).goes c q inside hq (fits_of_two two)
      rw [outcome_suffixes carried]
      change s.Meets body behind (Parsed.outcome ((s.moved q inside).andMaybe _)) r.value r.rest
      rw [Parsed.outcome_andMaybe]
      exact ih hr hp awaits

theorem meets_primary {p : Parsed c Tree} (h : primary expr true c = .ok p)
    (hp : p.rest.size = s.size) (awaits : p.value.AwaitsBlock) :
    s.Meets body behind (Parsed.outcome (primary expr true (s.move c))) p.value p.rest := by
  have hs : s.size ≤ p.rest.size := Nat.le_of_eq hp.symm
  unfold primary at h ⊢
  split at h
  · cases h
  · rename_i first hfirst
    have inside := inside_of_next hfirst hs
    rw [s.next_move hfirst inside]
    revert h
    dsimp only [moved]
    cases first.value.kind with
    | identifier =>
      intro h
      refine meets_andMaybe inside h ?_
      intro q hq value rest
      exact meets_identifier he ho first.value hq (rest ▸ hp) (value ▸ awaits)
    | interpStart =>
      exact fun h => meets_of_moved hs ((moves_interpolated he _).andThen h hs trivial inside)
    | lparen =>
      exact fun h => meets_of_moved hs ((moves_parenthesised he _).andThen h hs trivial inside)
    | lbracket | lbrace | binOpen =>
      exact fun h => meets_of_moved hs
        ((moves_container he _ rfl _).andThen h hs trivial inside)
    | percent =>
      exact fun h => meets_of_moved hs ((moves_mapOrStruct he _).andThen h hs trivial inside)
    | kwFn => exact fun h => meets_of_moved hs ((moves_fn he _).andThen h hs trivial inside)
    | keywordKey =>
      intro h
      obtain ⟨first, -, h⟩ := bind_eq_ok h
      obtain ⟨more, -, h⟩ := bind_eq_ok h
      obtain rfl := Except.ok.inj h
      cases awaits.takes
    | «alias» | moduleSelf | atom | kwTrue | kwFalse | kwNil | integer | char | float | string
    | charlist | sigil =>
      intro h
      obtain rfl := Except.ok.inj h
      exact .inr rfl
    | _ =>
      intro h
      cases h

/-- A module attribute is no call, unless suffixes follow it. -/
theorem meets_moduleAttribute (start : Span) {p : Parsed c Tree}
    (h : moduleAttribute expr true start c = .ok p) (hp : p.rest.size = s.size)
    (awaits : p.value.AwaitsBlock) :
    s.Meets body behind (Parsed.outcome (moduleAttribute expr true start (s.move c))) p.value
      p.rest := by
  have hs : s.size ≤ p.rest.size := Nat.le_of_eq hp.symm
  obtain ⟨name, hname, h⟩ := bind_eq_ok h
  dsimp only at h
  split at h
  · obtain ⟨value, -, h⟩ := bind_eq_ok h
    obtain rfl := Except.ok.inj h
    cases awaits.takes
  · rename_i starts
    have inside : s.size ≤ name.rest.size := Nat.le_trans hs (Parsed.size_andMaybe h)
    have named := moves_expect _ _ c name inside hname trivial
    have between : s.Fits false false name.rest := by
      obtain ⟨q, hq, rfl⟩ := map_eq_ok h
      exact ho.fits_of_suffixes hq hp
    have starts' : ¬ startsArgument (s.move name.rest) = true := by
      rw [startsArgument_move_of_fits between (Bool.eq_false_iff.mpr starts)]
      exact Bool.false_ne_true
    unfold moduleAttribute
    rw [named]
    change s.Meets body behind (Parsed.outcome (if startsArgument (s.move name.rest) then _ else _))
      _ _
    rw [if_neg starts']
    refine meets_andMaybe inside h ?_
    intro q hq value rest
    exact meets_suffixes he ho _ hq (rest ▸ hp) (value ▸ awaits)

/-- A capture is no call, unless it is of a numbered argument and suffixes follow it. -/
theorem meets_capture (start : Span) {p : Parsed c Tree} (h : capture expr true start c = .ok p)
    (hp : p.rest.size = s.size) (awaits : p.value.AwaitsBlock) :
    s.Meets body behind (Parsed.outcome (capture expr true start (s.move c))) p.value p.rest := by
  have hs : s.size ≤ p.rest.size := Nat.le_of_eq hp.symm
  unfold capture at h ⊢
  dsimp only at h ⊢
  split at h
  · rename_i number hnumber
    have inside : s.size ≤ number.rest.size := Nat.le_trans hs (Parsed.size_andMaybe h)
    rw [touching_move hnumber inside]
    refine meets_andMaybe inside h ?_
    intro q hq value rest
    exact meets_suffixes he ho _ hq (rest ▸ hp) (value ▸ awaits)
  · split at h
    · obtain ⟨q, hq, rfl⟩ := map_eq_ok h
      obtain ⟨slash, -, hq⟩ := bind_eq_ok hq
      obtain ⟨arity, -, hq⟩ := bind_eq_ok hq
      obtain rfl := Except.ok.inj hq
      cases awaits.takes
    · obtain ⟨value, -, rfl⟩ := map_eq_ok h
      cases awaits.takes

theorem meets_operand {p : Parsed c Tree} (h : operand expr true c = .ok p)
    (hp : p.rest.size = s.size) (awaits : p.value.AwaitsBlock) :
    s.Meets body behind (Parsed.outcome (operand expr true (s.move c))) p.value p.rest := by
  have hs : s.size ≤ p.rest.size := Nat.le_of_eq hp.symm
  obtain ⟨first, hfirst⟩ := exists_next_of_operand h
  have inside := inside_of_next hfirst hs
  refine operand_by_rule hfirst (s.next_move hfirst inside) rfl h
    (Q := fun found => s.Meets body behind (Parsed.outcome found) p.value p.rest) ?_ ?_ ?_ ?_ ?_
  · intro h
    rw [Parsed.outcome_andThen]
    obtain ⟨q, hq, rfl⟩ := map_eq_ok h
    exact meets_moduleAttribute he ho _ hq hp awaits
  · intro h
    rw [Parsed.outcome_andThen]
    obtain ⟨q, hq, rfl⟩ := map_eq_ok h
    exact meets_capture he ho _ hq hp awaits
  · rintro rfl
    cases awaits.takes
  · rintro name value - rfl
    cases awaits.takes
  · intro left hleft h
    obtain ⟨q, hq, rfl⟩ := map_eq_ok h
    have hp : q.rest.size = s.size := hp
    rcases suffixes_cases hq with ⟨value, rest⟩ | two
    · have meets := meets_primary he ho hleft (rest ▸ hp) (value ▸ awaits)
      change s.Meets body behind _ q.value q.rest
      rw [value, rest]
      exact meets_of_stops ho (fun call d stops => suffixes_of_stops stops expr true call)
        (rest ▸ hp) meets
    · have between : s.Fits true true left.rest := fits_of_two (by omega)
      have start := moves_primary he id c left (by omega) hleft between
      rw [start]
      change s.Meets body behind (Parsed.outcome ((s.moved left _).andMaybe _)) _ _
      rw [Parsed.outcome_andMaybe]
      exact meets_suffixes he ho _ hq hp awaits

theorem meets_expression (level : Nat) {p : Parsed c Tree}
    (h : expression expr level true c = .ok p) (hp : p.rest.size = s.size)
    (awaits : p.value.AwaitsBlock) :
    s.Meets body behind (Parsed.outcome (expression expr level true (s.move c))) p.value
      p.rest := by
  obtain ⟨left, hleft, h⟩ := bind_eq_ok h
  obtain ⟨q, hq, rfl⟩ := map_eq_ok h
  obtain ⟨value, rest⟩ := climb_of_takesBlock hq awaits.takes
  have meets := meets_operand he ho hleft (rest ▸ hp) (value ▸ awaits)
  change s.Meets body behind _ q.value q.rest
  rw [value, rest]
  exact meets_of_stops ho (fun call d stops => climb_of_stops stops expr level true call)
    (rest ▸ hp) meets

end Reads

end Grammar
end CallAtlas
