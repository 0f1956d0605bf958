import CallAtlas.Proofs.Grammar.Regions

/-! # Regions of trees and syntax errors

The grammar makes no place of its own: the region of a node starts where one token or tree starts
and ends where another one ends, and an error is about the region of a token or of what was read. So
each rule stays in a text if the reader of expressions inside it does.
-/
namespace CallAtlas.Grammar

variable {s : Source}

/-! ### Lines -/

/-- The trees and the regions of a line are in a text. -/
def Line.IsIn (s : Source) : Line → Prop
  | .statement t => t.IsIn s
  | .clause head span arrow => head.IsIn s ∧ span.IsIn s ∧ arrow.IsIn s

theorem isIn_clauseLine {start : Span} {patterns : List Tree} {arrow : Token} (hs : start.IsIn s)
    (hp : AllIn s patterns) (ha : arrow.span.IsIn s) : (clauseLine start patterns arrow).IsIn s :=
  ⟨Tree.isIn_iff.mpr ⟨hs, hp⟩, hs.to ha, ha⟩

theorem isIn_assembled {ls : List Line} (h : ∀ l ∈ ls, l.IsIn s) :
    AllIn s (assembled ls).1 ∧ AllIn s (assembled ls).2 := by
  induction ls with
  | nil => exact ⟨nofun, nofun⟩
  | cons l ls ih =>
    obtain ⟨first, more⟩ := List.forall_mem_cons.mp h
    obtain ⟨statements, clauses⟩ := ih more
    cases l with
    | statement t => exact ⟨List.forall_mem_cons.mpr ⟨first, statements⟩, clauses⟩
    | clause head span arrow =>
      obtain ⟨hhead, hspan, harrow⟩ := first
      have body : Tree.IsIn s { form := .block, span := arrow, children := (assembled ls).1 } :=
        Tree.isIn_iff.mpr ⟨harrow, statements⟩
      have clause := Tree.isIn_two (t := { form := .clause, span, children := [head, _] }) hspan rfl
        hhead body
      exact ⟨nofun, List.forall_mem_cons.mpr ⟨clause, clauses⟩⟩

theorem isIn_assemble {ls : List Line} (h : ∀ l ∈ ls, l.IsIn s) : AllIn s (assemble ls) := by
  rw [assemble_eq]
  exact List.forall_mem_append.mpr (isIn_assembled h)

/-! ### Operators and captures -/

theorem Cursor.IsIn.operator {c : Cursor} (h : c.IsIn s) {p : Parsed c Operator}
    (hp : c.operator? = some p) : p.Lands s fun _ => True := by
  unfold Cursor.operator? at hp
  split at hp
  · obtain ⟨q, hq, rfl⟩ := Option.map_eq_some_iff.mp hp
    exact ⟨(h.next hq).1, trivial⟩
  · obtain ⟨first, hfirst, hp⟩ := Option.bind_eq_some_iff.mp hp
    obtain ⟨second, hsecond, hp⟩ := Option.bind_eq_some_iff.mp hp
    obtain rfl := Option.some.inj hp
    exact ⟨((h.take hfirst).1.take hsecond).1, trivial⟩

theorem isIn_unary {start : Span} {operand : Tree} (hs : start.IsIn s) (name : Bytes)
    (h : operand.IsIn s) : (unary start name operand).IsIn s :=
  Tree.isIn_one (hs.to h.span) rfl h

theorem stays_operatorCapture {start : Span} {op : Token} (hs : start.IsIn s)
    (ho : op.span.IsIn s) : Stays s (operatorCapture start op) (Tree.IsIn s) := by
  intro c hc
  refine (stays_expect _ _ c hc).bind fun slash hslash => ?_
  refine ((stays_expect _ _).andThen hslash).bind fun arity harity => ?_
  have named := isIn_leaf ho .var op.lexeme
  have counted := isIn_leaf harity.2 .integer arity.value.value
  exact ⟨harity.1, isIn_unary hs _ (Tree.isIn_two (ho.to harity.2) rfl named counted)⟩

section Parts

variable {expr : Expr} (he : ∀ level blocks, Stays s (expr level blocks) (Tree.IsIn s))

include he

/-! ### Arguments and elements -/

theorem stays_keywordPair (blocks : Bool) : Stays s (keywordPair expr blocks) (Tree.IsIn s) := by
  intro c hc
  refine (stays_expect _ _ c hc).bind fun key hkey => ?_
  refine ((he 0 blocks).andThen hkey).bind fun value hvalue => ?_
  have atom : Tree.IsIn s { form := .atom, span := key.value.span, name := key.value.value } :=
    Tree.isIn_none hkey.2 rfl
  exact ⟨hvalue.1, Tree.isIn_two (hkey.2.to hvalue.2.span) rfl atom hvalue.2⟩

theorem stays_keywordList (blocks : Bool) : Stays s (keywordList expr blocks) (Tree.IsIn s) := by
  intro c hc
  have next : OptionStays s (nextPair expr blocks) (Tree.IsIn s) := fun c hc =>
    (stays_keywordPair he blocks).behind (lands_ite (fun _ => hc.take) lands_none)
  refine (stays_keywordPair he blocks c hc).bind fun first hfirst => ?_
  refine (next.many.andMaybe hfirst).bind fun more hmore => ?_
  refine ⟨hmore.1, Tree.isIn_iff.mpr ⟨hc.peek.to hmore.1.previous, ?_⟩⟩
  exact List.forall_mem_cons.mpr ⟨hfirst.2, hmore.2⟩

theorem stays_item (folds : Bool) : Stays s (item expr folds) (Tree.IsIn s) := by
  intro c hc
  unfold item
  split
  · split
    · exact stays_keywordList he true c hc
    · exact stays_keywordPair he true c hc
  · exact he 0 true c hc

theorem stays_nextItem (closer : Kind) (folds : Bool) :
    OptionStays s (nextItem expr closer folds) (Tree.IsIn s) := by
  intro c hc
  unfold nextItem
  split
  · rename_i comma hcomma
    split
    · exact leads_none
    · exact ((stays_item he folds).loosely.andThen (hc.takeLoose hcomma)).toOption
  · exact leads_none

theorem stays_items (closer : Kind) (folds : Bool) :
    Stays s (items expr closer folds) (AllIn s) := by
  intro c hc
  unfold items
  split
  · rename_i closer hcloser
    exact ⟨(hc.takeLoose hcloser).1, nofun⟩
  · refine ((stays_item he folds).loosely c hc).bind fun first hfirst => ?_
    refine ((stays_nextItem he closer folds).many.andMaybe hfirst).bind fun more hmore => ?_
    refine ((stays_closing closer).andThen hmore).bind fun last hlast => ?_
    exact ⟨hlast.1, List.forall_mem_cons.mpr ⟨hfirst.2, hmore.2⟩⟩

theorem stays_nextArgument (blocks : Bool) :
    OptionStays s (nextArgument expr blocks) (Tree.IsIn s) := fun _ hc =>
  (he 0 blocks).behind (lands_ite lands_none fun _ => hc.take)

theorem stays_moreArguments (blocks : Bool) :
    MaybeStays s (moreArguments expr blocks) (AllIn s) := by
  intro c hc
  refine ((stays_nextArgument he blocks).many c hc).bind fun plain hplain => ?_
  split
  · exact hplain
  · rename_i comma hcomma
    have landed := hplain.1.take hcomma
    refine ((stays_keywordList he blocks).andThen landed).bind fun pairs hpairs => ?_
    exact ⟨hpairs.1,
      List.forall_mem_append.mpr ⟨hplain.2, List.forall_mem_singleton.mpr hpairs.2⟩⟩

theorem stays_openArguments : Stays s (openArguments expr) (AllIn s) := by
  intro c hc
  unfold openArguments
  split
  · refine (stays_keywordList he false c hc).map fun list hlist => ?_
    exact ⟨hlist.1, List.forall_mem_singleton.mpr hlist.2⟩
  · refine (he 0 false c hc).bind fun first hfirst => ?_
    refine ((stays_moreArguments he false).andMaybe hfirst).bind fun more hmore => ?_
    exact ⟨hmore.1, List.forall_mem_cons.mpr ⟨hfirst.2, hmore.2⟩⟩

theorem stays_arguments : MaybeStays s (arguments? expr) fun found =>
    AllIn s ((found.map (·.values)).getD []) := by
  intro c hc
  unfold arguments?
  split
  · rename_i opening hopening
    have landed := lands_ite lands_none (fun _ => hc.take) opening hopening
    refine ((stays_items he .rparen true).andThen landed).bind fun values hvalues => ?_
    exact hvalues
  · split
    · refine (stays_openArguments he c hc).bind fun values hvalues => ?_
      exact hvalues
    · exact ⟨hc, nofun⟩

/-! ### Blocks -/

theorem stays_line : Stays s (line expr) (Line.IsIn s) := by
  intro c hc
  have start := hc.peek
  unfold line
  split
  · rename_i arrow harrow
    have landed := hc.take harrow
    exact ⟨landed.1, isIn_clauseLine start nofun landed.2⟩
  · refine (he 0 true c hc).bind fun first hfirst => ?_
    refine ((stays_moreArguments he true).andMaybe hfirst).bind fun more hmore => ?_
    split
    · rename_i arrow harrow
      have landed := hmore.1.take harrow
      have patterns := List.forall_mem_cons.mpr ⟨hfirst.2, hmore.2⟩
      exact ⟨landed.1, isIn_clauseLine start patterns landed.2⟩
    · -- the error about several values on a line is told of its start
      split
      · exact start
      · split
        · exact ⟨hmore.1, hfirst.2⟩
        · exact leads_fail hmore.1 _ _

theorem stays_nextLine : OptionStays s (nextLine expr) (Line.IsIn s) := by
  intro c hc
  unfold nextLine
  split
  · exact leads_none
  · exact ((stays_line he).loosely c hc).toOption

theorem stays_block : MaybeStays s (block expr) (Tree.IsIn s) := by
  intro c hc
  refine ((stays_nextLine he).many c hc).bind fun lines hlines => ?_
  have behind := hlines.1.skipNewlines
  refine ⟨behind, Tree.isIn_iff.mpr ⟨?_, isIn_assemble hlines.2⟩⟩
  dsimp only [MaybeParsed.map]
  split
  · exact hc.peek
  · exact hc.peek.to behind.previous

theorem stays_doSection (name : Bytes) {span : Span} (hs : span.IsIn s) :
    MaybeStays s (doSection expr name span) (Tree.IsIn s) := by
  intro c hc
  refine (stays_block he c hc).bind fun body hbody => ?_
  have key : Tree.IsIn s { form := .atom, span, name } := Tree.isIn_none hs rfl
  exact ⟨hbody.1, Tree.isIn_two hs rfl key hbody.2⟩

theorem stays_nextSection : OptionStays s (nextSection expr) (Tree.IsIn s) := by
  intro c hc
  unfold nextSection
  split
  · rename_i word hword
    have landed := hc.takeIf hword
    exact ((stays_doSection he _ landed.2).andMaybe landed).toOption
  · exact leads_none

theorem stays_doBlock {opening : Token} (ho : opening.span.IsIn s) :
    Stays s (doBlock expr opening) (Tree.IsIn s) := by
  intro c hc
  refine (stays_doSection he _ ho c hc).bind fun first hfirst => ?_
  refine ((stays_nextSection he).many.behindMaybe hfirst).bind fun more hmore => ?_
  refine ((stays_expect _ _).behindMaybe hmore).bind fun last hlast => ?_
  refine ⟨hlast.1, Tree.isIn_iff.mpr ⟨ho.to hlast.2, ?_⟩⟩
  exact List.forall_mem_cons.mpr ⟨hfirst.2, hmore.2⟩

theorem stays_attach (blocks : Bool) {call : Tree} (h : call.IsIn s) :
    MaybeStays s (attach expr blocks call) (Tree.IsIn s) := by
  intro c hc
  unfold attach
  split
  · rename_i opening hopening
    have landed := lands_ite (fun _ => hc.take) lands_none opening hopening
    refine ((stays_doBlock he landed.2).andThen landed).bind fun body hbody => ?_
    exact ⟨hbody.1, h.append hbody.2⟩
  · exact ⟨hc, h⟩

theorem stays_fn {opening : Token} (ho : opening.span.IsIn s) :
    Stays s (fn expr opening) (Tree.IsIn s) := by
  intro c hc
  refine (stays_block he c hc).bind fun body hbody => ?_
  refine ((stays_expect _ _).behindMaybe hbody).bind fun last hlast => ?_
  have span := ho.to hlast.2
  dsimp only
  -- an error is about a statement among the clauses, or about the whole function
  split
  · rename_i child hchild
    exact (hbody.2.children child (List.mem_of_find?_eq_some hchild)).span
  · split
    · exact span
    · exact ⟨hlast.1, Tree.isIn_iff.mpr ⟨span, hbody.2.children⟩⟩

/-! ### Literals and containers -/

theorem stays_container (form : Form) (closer : Kind) {start : Span} (hs : start.IsIn s) :
    Stays s (container expr form closer start) (Tree.IsIn s) := by
  intro c hc
  refine (stays_items he _ _ c hc).bind fun found hfound => ?_
  exact ⟨hfound.1, Tree.isIn_iff.mpr ⟨hs.to hfound.1.previous, hfound.2⟩⟩

theorem stays_mapOrStruct {start : Span} (hs : start.IsIn s) :
    Stays s (mapOrStruct expr start) (Tree.IsIn s) := by
  intro c hc
  unfold mapOrStruct
  split
  · rename_i brace hbrace
    exact (stays_container he _ _ hs).andThen (hc.take hbrace)
  · split
    · rename_i head first hhead hfirst
      have landed := hc.next hfirst
      have named := OptionStays.iterate stays_segment (isIn_structHead hc.peek hhead)
      refine (named.andMaybe landed).bind fun name hname => ?_
      refine ((stays_expect _ _).andThen hname).bind fun brace hbrace => ?_
      refine ((stays_container he _ _ hbrace.2).andThen hbrace).bind fun fields hfields => ?_
      exact ⟨hfields.1, Tree.isIn_two (hs.to hfields.2.span) rfl hname.2 hfields.2⟩
    · exact leads_fail hc _ _

theorem stays_embedded : MaybeStays s (embedded expr) (AllIn s) := by
  intro c hc
  unfold embedded
  split
  · exact ⟨hc.skipNewlines, nofun⟩
  · refine ((he 0 true).loosely c hc).bind fun value hvalue => ?_
    exact ⟨hvalue.1.skipNewlines, List.forall_mem_singleton.mpr hvalue.2⟩

theorem stays_nextFragment : OptionStays s (nextFragment expr) (AllIn s ·.2) := by
  intro c hc
  unfold nextFragment
  split
  · rename_i fragment hfragment
    refine ((stays_embedded he).andMaybe (hc.take hfragment)).bind fun values hvalues => ?_
    intro p hp
    obtain rfl := Option.some.inj hp
    exact hvalues
  · exact leads_none

theorem stays_fragments : Stays s (fragments expr) (AllIn s ·.2) := by
  intro c hc
  refine (stays_embedded he c hc).bind fun first hfirst => ?_
  refine ((stays_nextFragment he).many.behindMaybe hfirst).bind fun more hmore => ?_
  refine ((stays_expect _ _).behindMaybe hmore).bind fun last hlast => ?_
  refine ⟨hlast.1, List.forall_mem_append.mpr ⟨hfirst.2, ?_⟩⟩
  intro t ht
  obtain ⟨part, hpart, ht⟩ := List.mem_flatMap.mp ht
  exact hmore.2 part hpart t ht

theorem stays_interpolated {opening : Token} (ho : opening.span.IsIn s) :
    Stays s (interpolated expr opening) (Tree.IsIn s) := by
  intro c hc
  refine (stays_fragments he c hc).bind fun parts hparts => ?_
  have span := ho.to hparts.1.previous
  have body (form : Form) (name : Bytes) : Tree.IsIn s
      { form, span := opening.span.to parts.rest.previous.span, name, children := parts.value.2
        interpolated := true } := Tree.isIn_iff.mpr ⟨span, hparts.2⟩
  refine ⟨hparts.1, ?_⟩
  dsimp only [Parsed.map]
  split
  · exact Tree.isIn_one span rfl (body _ _)
  · exact body _ _

/-! ### Parentheses -/

theorem stays_commaSeparated : Stays s (commaSeparated expr) (AllIn s) := by
  intro c hc
  have next : OptionStays s (fun c => behind (c.take? .comma) (loosely (expr 0 true)))
      (Tree.IsIn s) := fun c hc => (he 0 true).loosely.behind fun _ => hc.take
  refine (he 0 true c hc).bind fun first hfirst => ?_
  refine (next.many.andMaybe hfirst).bind fun more hmore => ?_
  exact ⟨hmore.1, List.forall_mem_cons.mpr ⟨hfirst.2, hmore.2⟩⟩

theorem stays_parenthesisedClause {start : Span} {patterns : List Tree} (hs : start.IsIn s)
    (hp : AllIn s patterns) : Stays s (parenthesisedClause expr start patterns) (Tree.IsIn s) := by
  intro c hc
  refine (he 0 true c hc).bind fun result hresult => ?_
  refine ((stays_expect _ _).loosely.andThen hresult).bind fun last hlast => ?_
  have span := hs.to hlast.2
  have head : Tree.IsIn s { form := .block, span := start, children := patterns } :=
    Tree.isIn_iff.mpr ⟨hs, hp⟩
  have body : Tree.IsIn s
      { form := .block, span := result.value.span, children := [result.value] } :=
    Tree.isIn_one hresult.2.span rfl hresult.2
  exact ⟨hlast.1, Tree.isIn_one span rfl (Tree.isIn_two span rfl head body)⟩

theorem stays_nextStatement : OptionStays s (nextStatement expr) (Tree.IsIn s) := by
  intro c hc
  unfold nextStatement
  split
  · exact leads_none
  split
  · exact leads_fail hc.skipNewlines _ _
  · exact ((he 0 true).loosely c hc).toOption

theorem stays_moreStatements : Stays s (moreStatements expr) (AllIn s) := by
  intro c hc
  refine ((stays_nextStatement he).many c hc).bind fun found hfound => ?_
  refine ((stays_expect _ _).loosely.behindMaybe hfound).bind fun last hlast => ?_
  exact ⟨hlast.1, hfound.2⟩

theorem stays_parenthesised {start : Span} (hs : start.IsIn s) :
    Stays s (parenthesised expr start) (Tree.IsIn s) := by
  intro c hc
  unfold parenthesised
  split
  · rename_i last hlast
    have landed := hc.takeLoose hlast
    exact ⟨landed.1, Tree.isIn_none (hs.to landed.2) rfl⟩
  · refine ((stays_commaSeparated he).loosely c hc).bind fun first hfirst => ?_
    split
    · rename_i arrow harrow
      have behind : (first.followedBy arrow).Lands s fun _ => True :=
        ⟨(hfirst.1.take harrow).1, trivial⟩
      exact (stays_parenthesisedClause he hs hfirst.2).andThen behind
    · split
      · rename_i single hsingle
        have value : single.IsIn s := hfirst.2 single (by simp [hsingle])
        refine ((stays_moreStatements he).andThen hfirst).bind fun more hmore => ?_
        refine ⟨hmore.1, ?_⟩
        dsimp only [Parsed.map]
        split
        · exact value
        · exact Tree.isIn_iff.mpr ⟨hs.to hmore.1.previous,
            List.forall_mem_cons.mpr ⟨value, hmore.2⟩⟩
      · exact leads_fail hfirst.1 _ _

/-! ### Operators -/

theorem stays_rightOperand (blocks : Bool) (op : Operator) :
    Stays s (rightOperand expr blocks op) (Tree.IsIn s) := by
  intro c hc
  unfold rightOperand
  split
  · exact stays_keywordList he blocks c hc
  · exact he op.operandLevel blocks c hc

theorem stays_application (level : Nat) (blocks : Bool) (left : Tree) (hl : left.IsIn s) :
    OptionStays s (application? expr level blocks left) (Tree.IsIn s) := by
  intro c hc
  unfold application?
  split
  · exact leads_none
  · rename_i op hop
    split
    · exact leads_none
    · refine ((stays_rightOperand he blocks _).andThen (hc.operator hop)).bind
        fun right hright => ?_
      intro p hp
      obtain rfl := Option.some.inj hp
      exact ⟨hright.1, Tree.isIn_two (hl.span.to hright.2.span) rfl hl hright.2⟩

theorem stays_climb (level : Nat) (blocks : Bool) {left : Tree} (hl : left.IsIn s) :
    MaybeStays s (climb expr level blocks left) (Tree.IsIn s) :=
  OptionStays.iterate (stays_application he level blocks) hl

/-! ### Suffixes -/

theorem stays_anonCall {function : Tree} (hf : function.IsIn s) :
    Stays s (anonCall expr function) (Tree.IsIn s) := by
  intro c hc
  refine (stays_items he _ _ c hc).bind fun arguments harguments => ?_
  exact ⟨harguments.1, Tree.isIn_iff.mpr ⟨hf.span.to harguments.1.previous,
    List.forall_mem_cons.mpr ⟨hf, harguments.2⟩⟩⟩

theorem stays_member (blocks : Bool) {left : Tree} {name : Token} (hl : left.IsIn s)
    (hn : name.span.IsIn s) : MaybeStays s (member expr blocks left name) (Tree.IsIn s) := by
  intro c hc
  refine (stays_arguments he c hc).bind fun arguments harguments => ?_
  dsimp only
  split
  · exact ⟨harguments.1, Tree.isIn_one (hl.span.to hn) rfl hl⟩
  · refine (stays_attach he blocks ?_).behindMaybe harguments
    exact Tree.isIn_iff.mpr ⟨hl.span.to harguments.1.previous,
      List.forall_mem_cons.mpr ⟨hl, harguments.2⟩⟩

theorem stays_dotted (blocks : Bool) {left : Tree} (hl : left.IsIn s) :
    Stays s (dotted expr blocks left) (Tree.IsIn s) := by
  intro c hc
  unfold dotted
  split
  · exact leads_fail hc _ _
  · rename_i token htoken
    have landed := hc.next htoken
    split
    · exact ⟨landed.1, isIn_extend hl landed.2⟩
    · refine ((stays_items he _ _).andThen landed).bind fun entries hentries => ?_
      exact ⟨hentries.1, Tree.isIn_iff.mpr ⟨hl.span.to hentries.1.previous,
        List.forall_mem_cons.mpr ⟨hl, hentries.2⟩⟩⟩
    · exact (stays_anonCall he hl).andThen landed
    · split
      · exact (stays_member he blocks hl landed.2).andMaybe landed
      · exact leads_fail hc _ _

theorem stays_access {left : Tree} (hl : left.IsIn s) :
    Stays s (access expr left) (Tree.IsIn s) := by
  intro c hc
  refine ((he 0 true).loosely c hc).bind fun key hkey => ?_
  refine ((stays_expect _ _).loosely.andThen hkey).bind fun last hlast => ?_
  exact ⟨hlast.1, Tree.isIn_two (hl.span.to hlast.2) rfl hl hkey.2⟩

theorem stays_suffix (blocks : Bool) (left : Tree) (hl : left.IsIn s) :
    OptionStays s (suffix? expr blocks left) (Tree.IsIn s) := by
  intro c hc
  unfold suffix?
  split
  · exact leads_none
  · rename_i token htoken
    have landed := hc.next htoken
    split
    · exact ((stays_dotted he blocks hl).andThen landed).toOption
    · split
      · exact leads_none
      · exact ((stays_access he hl).andThen landed).toOption
    · split
      · exact leads_none
      · exact ((stays_anonCall he hl).andThen landed).toOption
    · exact leads_none

theorem stays_suffixes (blocks : Bool) {left : Tree} (hl : left.IsIn s) :
    MaybeStays s (suffixes expr blocks left) (Tree.IsIn s) :=
  OptionStays.iterate (stays_suffix he blocks) hl

/-! ### Expressions -/

theorem stays_identifier (blocks : Bool) {name : Token} (hn : name.span.IsIn s) :
    MaybeStays s (identifier expr blocks name) (Tree.IsIn s) := by
  intro c hc
  refine (stays_arguments he c hc).bind fun arguments harguments => ?_
  dsimp only
  split
  · exact ⟨harguments.1, isIn_leaf hn _ _⟩
  · refine (stays_attach he blocks ?_).behindMaybe harguments
    exact Tree.isIn_iff.mpr ⟨hn.to harguments.1.previous, harguments.2⟩

theorem stays_primary (blocks : Bool) : Stays s (primary expr blocks) (Tree.IsIn s) := by
  intro c hc
  unfold primary
  split
  · exact leads_fail hc _ _
  · rename_i first hfirst
    have landed := hc.next hfirst
    have token := landed.2
    have single (form : Form) (name : Bytes) := isIn_leaf token form name
    dsimp only
    split
    · exact (stays_identifier he blocks token).andMaybe landed
    · exact ⟨landed.1, isIn_reference token⟩
    · exact ⟨landed.1, single _ _⟩
    · exact ⟨landed.1, single _ _⟩
    · exact ⟨landed.1, single _ _⟩
    · exact ⟨landed.1, single _ _⟩
    · exact ⟨landed.1, single _ _⟩
    · exact ⟨landed.1, single _ _⟩
    · exact ⟨landed.1, single _ _⟩
    · exact ⟨landed.1, single _ _⟩
    · exact ⟨landed.1, isIn_plainText token⟩
    · exact ⟨landed.1, isIn_plainText token⟩
    · exact ⟨landed.1, isIn_plainText token⟩
    · exact (stays_interpolated he token).andThen landed
    · exact (stays_parenthesised he token).andThen landed
    · exact (stays_container he _ _ token).andThen landed
    · exact (stays_container he _ _ token).andThen landed
    · exact (stays_container he _ _ token).andThen landed
    · exact (stays_mapOrStruct he token).andThen landed
    · exact (stays_fn he token).andThen landed
    · exact stays_keywordList he blocks c hc
    · exact leads_fail hc _ _
    · exact leads_fail hc _ _

theorem stays_moduleAttribute (blocks : Bool) {start : Span} (hs : start.IsIn s) :
    Stays s (moduleAttribute expr blocks start) (Tree.IsIn s) := by
  intro c hc
  refine (stays_expect _ _ c hc).bind fun name hname => ?_
  have named : Tree.IsIn s
      { form := .attribute, span := start.to name.value.span, name := name.value.value } :=
    Tree.isIn_none (hs.to hname.2) rfl
  dsimp only
  split
  · refine ((he 0 blocks).andThen hname).bind fun value hvalue => ?_
    exact ⟨hvalue.1, named.append hvalue.2⟩
  · exact (stays_suffixes he blocks named).andMaybe hname

theorem stays_capture (blocks : Bool) {start : Span} (hs : start.IsIn s) :
    Stays s (capture expr blocks start) (Tree.IsIn s) := by
  intro c hc
  unfold capture
  dsimp only
  split
  · rename_i number hnumber
    have landed := lands_ite lands_none (fun _ => hc.take) number hnumber
    exact (stays_suffixes he blocks (isIn_unary hs _ (isIn_leaf landed.2 _ _))).andMaybe landed
  · split
    · rename_i op hop
      have landed := lands_ite (fun _ => hc.next) lands_none op hop
      exact (stays_operatorCapture hs landed.2).andThen landed
    · exact (he _ blocks c hc).map fun p hp => ⟨hp.1, isIn_unary hs _ hp.2⟩

theorem stays_operand (blocks : Bool) : Stays s (operand expr blocks) (Tree.IsIn s) := by
  intro c hc
  unfold operand
  split
  · exact leads_fail hc _ _
  · rename_i first hfirst
    have landed := hc.next hfirst
    dsimp only
    split
    · exact (stays_moduleAttribute he blocks landed.2).andThen landed
    split
    · exact (stays_capture he blocks landed.2).andThen landed
    split
    · exact ⟨landed.1, isIn_leaf landed.2 _ _⟩
    split
    · refine ((he _ blocks).andThen landed).bind fun value hvalue => ?_
      exact ⟨hvalue.1, isIn_unary landed.2 _ hvalue.2⟩
    · refine (stays_primary he blocks c hc).bind fun left hleft => ?_
      exact (stays_suffixes he blocks hleft.2).andMaybe hleft

theorem stays_expression (level : Nat) (blocks : Bool) :
    Stays s (expression expr level blocks) (Tree.IsIn s) := by
  intro c hc
  refine (stays_operand he blocks c hc).bind fun left hleft => ?_
  exact (stays_climb he level blocks hleft.2).andMaybe hleft

end Parts

theorem stays_expressionAt (depth level : Nat) (blocks : Bool) :
    Stays s (expressionAt depth level blocks) (Tree.IsIn s) := by
  induction depth generalizing level blocks with
  | zero =>
    intro c hc
    exact leads_fail hc _ _
  | succ depth ih => exact stays_expression ih level blocks

end CallAtlas.Grammar
