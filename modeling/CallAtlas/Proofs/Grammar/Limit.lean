import CallAtlas.Proofs.Grammar.Chains
import CallAtlas.Proofs.Grammar.Soundness

/-! # The limit on nesting

The depth of expressions is limited where one expression is read inside another. Between two such
places a rule of the grammar adds at most eight levels of nesting; the most are those of a call with
a `do` block whose clauses have pairs among their patterns. So the limit bounds the nesting of every
tree. It does not bound the height, because it does not see the loops that put operators and
suffixes behind a term: what they add is a chain.
-/
namespace CallAtlas

namespace Grammar

open CallAtlas.Tree

/-! ### What a read gives -/

section Gives

variable {α β : Type} {c : Cursor} {P : β → Prop}

/-- Whatever is read with `read` satisfies `P`. -/
def Gives (read : Reader α) (P : α → Prop) : Prop := ∀ c p, read c = .ok p → P p.value

/-- The same for reads that may take no token. -/
def MaybeGives (read : MaybeReader α) (P : α → Prop) : Prop := ∀ c p, read c = .ok p → P p.value

/-- The same for reads of what may not be there. -/
def OptionGives (read : OptionReader α) (P : α → Prop) : Prop :=
  ∀ c p, read c = .ok (some p) → P p.value

theorem Gives.andThen {read : Reader β} (h : Gives read P) {p : Parsed c α} {q : Parsed c β}
    (hq : p.andThen read = .ok q) : P q.value := by
  obtain ⟨r, hr, rfl⟩ := map_eq_ok hq
  exact h p.rest r hr

theorem Gives.behindMaybe {read : Reader β} (h : Gives read P) {p : MaybeParsed c α}
    {q : Parsed c β} (hq : p.andThen read = .ok q) : P q.value := by
  obtain ⟨r, hr, rfl⟩ := map_eq_ok hq
  exact h p.rest r hr

theorem MaybeGives.andMaybe {read : MaybeReader β} (h : MaybeGives read P) {p : Parsed c α}
    {q : Parsed c β} (hq : p.andMaybe read = .ok q) : P q.value := by
  obtain ⟨r, hr, rfl⟩ := map_eq_ok hq
  exact h p.rest r hr

theorem MaybeGives.behindMaybe {read : MaybeReader β} (h : MaybeGives read P)
    {p : MaybeParsed c α} {q : MaybeParsed c β} (hq : p.andMaybe read = .ok q) : P q.value := by
  obtain ⟨r, hr, rfl⟩ := map_eq_ok hq
  exact h p.rest r hr

theorem Gives.loosely {read : Reader β} (h : Gives read P) : Gives (Grammar.loosely read) P :=
  fun _ _ hp => h.behindMaybe hp

theorem Gives.behind {read : Reader β} (h : Gives read P)
    (opening : (c : Cursor) → Option (Parsed c Token)) :
    OptionGives (fun c => Grammar.behind (opening c) read) P := by
  intro c p hp
  dsimp only [Grammar.behind] at hp
  split at hp
  · exact h.andThen (eq_ok_of_map_some hp)
  · cases hp

theorem OptionGives.many {read : OptionReader β} (h : OptionGives read P) :
    MaybeGives (Grammar.many read) fun vs => ∀ v ∈ vs, P v := by
  intro c
  fun_induction Grammar.many read c with
  | case1 c e _ =>
    intro p hp
    cases hp
  | case2 c _ =>
    intro p hp
    cases hp
    simp [Cursor.stay]
  | case3 c p hr e _ _ =>
    intro q hq
    cases hq
  | case4 c p hr q hq ih =>
    intro r hr'
    cases hr'
    exact List.forall_mem_cons.mpr ⟨h c p hr, ih q hq⟩

theorem OptionGives.iterate {read : β → OptionReader β} (h : ∀ v, P v → OptionGives (read v) P)
    {v : β} (start : P v) : MaybeGives (Grammar.iterate read v) P := by
  intro c
  fun_induction Grammar.iterate read v c with
  | case1 v c e _ =>
    intro p hp
    cases hp
  | case2 v c _ =>
    intro p hp
    cases hp
    exact start
  | case3 v c p hr ih =>
    intro q hq
    obtain ⟨r, hr', rfl⟩ := map_eq_ok hq
    exact ih (h v start c p hr) r hr'

end Gives

/-! ### Trees of single tokens -/

theorem nesting_leaf (form : Form) (t : Token) (name : Bytes) : (leaf form t name).nesting ≤ 1 :=
  nesting_le_one rfl

theorem nesting_reference (t : Token) : (reference t).nesting ≤ 1 :=
  nesting_le_behind rfl rfl (nesting_leaf _ _ _) (by simp)

theorem nesting_plainText (t : Token) : (plainText t).nesting ≤ 2 := by
  have text {form : Form} {name : Bytes} : (leaf form t name).nesting ≤ 1 := nesting_leaf _ _ _
  unfold plainText
  split
  · exact Nat.le_succ_of_le text
  · exact nesting_le_succ (List.forall_mem_singleton.mpr text)
  · exact Nat.le_succ_of_le text

theorem nesting_extend {left : Tree} {m : Nat} (t : Token) (h : left.nesting ≤ m + 2) :
    (extend left t).nesting ≤ m + 2 := by
  have part : (leaf .aliasSegment t t.value).nesting ≤ m + 1 :=
    Nat.le_trans (nesting_leaf _ _ _) (Nat.le_add_left 1 m)
  unfold extend
  dsimp only
  split
  · exact nesting_append h part
  · exact nesting_le_behind rfl rfl h (List.forall_mem_singleton.mpr part)

theorem nesting_structHead {t : Token} {head : Tree} (h : structHead? t = some head) :
    head.nesting ≤ 2 := by
  unfold structHead? at h
  split at h
  · cases h
    exact Nat.le_succ_of_le (nesting_reference t)
  · cases h
    exact Nat.le_succ_of_le (nesting_leaf _ _ _)
  · cases h
    exact Nat.le_succ_of_le (nesting_leaf _ _ _)
  · cases h
    exact Nat.le_succ_of_le (nesting_leaf _ _ _)
  · cases h

theorem nesting_unary {operand : Tree} {m : Nat} (start : Span) (name : Bytes)
    (h : operand.nesting ≤ m) : (unary start name operand).nesting ≤ m + 1 :=
  nesting_le_succ (List.forall_mem_singleton.mpr h)

/-- A pair of a key, which has no children, and a value. -/
theorem nesting_pair {key value : Tree} {span : Span} {m : Nat} (hk : key.children = [])
    (hv : value.nesting ≤ m) :
    Tree.nesting { form := .pair, span, children := [key, value] } ≤ m + 1 :=
  nesting_le_behind rfl rfl (Nat.le_trans (nesting_le_one hk) (Nat.le_add_left 1 m))
    (List.forall_mem_singleton.mpr hv)

/-! ### Lines -/

/-- The nesting of a line of expressions that are nested at most `n` levels. -/
def Line.Within (n : Nat) : Line → Prop
  | .statement t => t.nesting ≤ n
  | .clause head _ _ => head.nesting ≤ n + 3

theorem nesting_assembled {ls : List Line} {n : Nat} (h : ∀ l ∈ ls, l.Within n) :
    (∀ t ∈ (assembled ls).1, t.nesting ≤ n) ∧ ∀ t ∈ (assembled ls).2, t.nesting ≤ n + 4 := by
  induction ls with
  | nil => simp [assembled]
  | cons l ls ih =>
    obtain ⟨first, more⟩ := List.forall_mem_cons.mp h
    obtain ⟨statements, clauses⟩ := ih more
    cases l with
    | statement t => exact ⟨List.forall_mem_cons.mpr ⟨first, statements⟩, clauses⟩
    | clause head span arrow =>
      refine ⟨by simp [assembled, addLine], List.forall_mem_cons.mpr ⟨?_, clauses⟩⟩
      refine nesting_le_succ (List.forall_mem_cons.mpr ⟨first, List.forall_mem_singleton.mpr ?_⟩)
      exact nesting_le_succ fun t ht => Nat.le_add_right_of_le (statements t ht)

theorem nesting_assemble {ls : List Line} {n : Nat} (h : ∀ l ∈ ls, l.Within n) :
    ∀ t ∈ assemble ls, t.nesting ≤ n + 4 := by
  obtain ⟨statements, clauses⟩ := nesting_assembled h
  rw [assemble_eq]
  refine List.forall_mem_append.mpr ⟨?_, clauses⟩
  intro t ht
  exact Nat.le_add_right_of_le (statements t ht)

section Parts

variable {expr : Expr} {n : Nat} (he : ∀ level blocks, Gives (expr level blocks) (·.nesting ≤ n))

include he

/-! ### Arguments and elements -/

theorem gives_keywordPair (blocks : Bool) :
    Gives (keywordPair expr blocks) (·.nesting ≤ n + 1) := by
  intro c p h
  obtain ⟨key, -, h⟩ := bind_eq_ok h
  obtain ⟨value, hvalue, h⟩ := bind_eq_ok h
  obtain rfl := Except.ok.inj h
  have inside : value.value.nesting ≤ n := (he 0 blocks).andThen hvalue
  exact nesting_pair rfl inside

theorem gives_keywordList (blocks : Bool) :
    Gives (keywordList expr blocks) (·.nesting ≤ n + 2) := by
  intro c p h
  obtain ⟨first, hfirst, h⟩ := bind_eq_ok h
  obtain ⟨more, hmore, h⟩ := bind_eq_ok h
  obtain rfl := Except.ok.inj h
  have pair := gives_keywordPair he blocks c first hfirst
  have next : OptionGives (nextPair expr blocks) (·.nesting ≤ n + 1) :=
    (gives_keywordPair he blocks).behind _
  exact nesting_le_succ (List.forall_mem_cons.mpr ⟨pair, next.many.andMaybe hmore⟩)

theorem gives_item (folds : Bool) : Gives (item expr folds) (·.nesting ≤ n + 2) := by
  intro c p h
  unfold item at h
  split at h
  · split at h
    · exact gives_keywordList he true c p h
    · exact Nat.le_succ_of_le (gives_keywordPair he true c p h)
  · exact Nat.le_add_right_of_le (he 0 true c p h)

theorem gives_nextItem (closer : Kind) (folds : Bool) :
    OptionGives (nextItem expr closer folds) (·.nesting ≤ n + 2) := by
  intro c p h
  unfold nextItem at h
  split at h
  · split at h
    · cases h
    · exact (gives_item he folds).loosely.andThen (eq_ok_of_map_some h)
  · cases h

theorem gives_items (closer : Kind) (folds : Bool) :
    Gives (items expr closer folds) fun vs => ∀ v ∈ vs, v.nesting ≤ n + 2 := by
  intro c p h
  unfold items at h
  split at h
  · obtain rfl := Except.ok.inj h
    simp
  · obtain ⟨first, hfirst, h⟩ := bind_eq_ok h
    obtain ⟨more, hmore, h⟩ := bind_eq_ok h
    obtain ⟨last, -, h⟩ := bind_eq_ok h
    obtain rfl := Except.ok.inj h
    have entry := (gives_item he folds).loosely c first hfirst
    have entries := (gives_nextItem he closer folds).many.andMaybe hmore
    exact List.forall_mem_cons.mpr ⟨entry, entries⟩

theorem gives_moreArguments (blocks : Bool) :
    MaybeGives (moreArguments expr blocks) fun vs => ∀ v ∈ vs, v.nesting ≤ n + 2 := by
  intro c p h
  obtain ⟨plain, hplain, h⟩ := bind_eq_ok h
  have next : OptionGives (nextArgument expr blocks) (·.nesting ≤ n) := (he 0 blocks).behind _
  have arguments : ∀ v ∈ plain.value, v.nesting ≤ n + 2 := fun v hv =>
    Nat.le_add_right_of_le (next.many c plain hplain v hv)
  split at h
  · obtain rfl := Except.ok.inj h
    exact arguments
  · obtain ⟨pairs, hpairs, h⟩ := bind_eq_ok h
    obtain rfl := Except.ok.inj h
    have list := (gives_keywordList he blocks).andThen hpairs
    exact List.forall_mem_append.mpr ⟨arguments, List.forall_mem_singleton.mpr list⟩

theorem gives_openArguments :
    Gives (openArguments expr) fun vs => ∀ v ∈ vs, v.nesting ≤ n + 2 := by
  intro c p h
  unfold openArguments at h
  split at h
  · obtain ⟨list, hlist, rfl⟩ := map_eq_ok h
    exact List.forall_mem_singleton.mpr (gives_keywordList he false c list hlist)
  · obtain ⟨first, hfirst, h⟩ := bind_eq_ok h
    obtain ⟨more, hmore, h⟩ := bind_eq_ok h
    obtain rfl := Except.ok.inj h
    have argument : first.value.nesting ≤ n + 2 :=
      Nat.le_add_right_of_le (he 0 false c first hfirst)
    have arguments := (gives_moreArguments he false).andMaybe hmore
    exact List.forall_mem_cons.mpr ⟨argument, arguments⟩

theorem gives_arguments : MaybeGives (arguments? expr) fun found =>
    ∀ v ∈ (found.map (·.values)).getD [], v.nesting ≤ n + 2 := by
  intro c p h
  unfold arguments? at h
  split at h
  · obtain ⟨values, hvalues, h⟩ := bind_eq_ok h
    obtain rfl := Except.ok.inj h
    exact (gives_items he .rparen true).andThen hvalues
  · split at h
    · obtain ⟨values, hvalues, h⟩ := bind_eq_ok h
      obtain rfl := Except.ok.inj h
      exact gives_openArguments he c values hvalues
    · obtain rfl := Except.ok.inj h
      simp [Cursor.stay]

/-! ### Blocks -/

theorem gives_line : Gives (line expr) (Line.Within n) := by
  intro c p h
  have head {start : Span} {patterns : List Tree} {arrow : Token}
      (hp : ∀ v ∈ patterns, v.nesting ≤ n + 2) : (clauseLine start patterns arrow).Within n :=
    nesting_le_succ hp
  unfold line at h
  dsimp only at h
  split at h
  · obtain rfl := Except.ok.inj h
    exact head (by simp)
  · obtain ⟨first, hfirst, h⟩ := bind_eq_ok h
    obtain ⟨more, hmore, h⟩ := bind_eq_ok h
    have pattern := he 0 true c first hfirst
    have patterns := (gives_moreArguments he true).andMaybe hmore
    split at h
    · obtain rfl := Except.ok.inj h
      exact head (List.forall_mem_cons.mpr ⟨Nat.le_add_right_of_le pattern, patterns⟩)
    · split at h
      · cases h
      · split at h
        · obtain rfl := Except.ok.inj h
          exact pattern
        · cases h

/-- The children of a block are statements and clauses. -/
theorem gives_block :
    MaybeGives (block expr) fun t => ∀ child ∈ t.children, child.nesting ≤ n + 4 := by
  intro c p h
  obtain ⟨lines, hlines, h⟩ := bind_eq_ok h
  obtain rfl := Except.ok.inj h
  have next : OptionGives (nextLine expr) (Line.Within n) := by
    intro c p h
    unfold nextLine at h
    split at h
    · cases h
    · exact (gives_line he).loosely c p (eq_ok_of_map_some h)
  exact nesting_assemble (next.many c lines hlines)

theorem gives_doSection (name : Bytes) (span : Span) :
    MaybeGives (doSection expr name span) (·.nesting ≤ n + 6) := by
  intro c p h
  obtain ⟨body, hbody, h⟩ := bind_eq_ok h
  obtain rfl := Except.ok.inj h
  exact nesting_pair rfl (nesting_le_succ (gives_block he c body hbody))

theorem gives_doBlock (opening : Token) : Gives (doBlock expr opening) (·.nesting ≤ n + 7) := by
  intro c p h
  obtain ⟨first, hfirst, h⟩ := bind_eq_ok h
  obtain ⟨more, hmore, h⟩ := bind_eq_ok h
  obtain ⟨last, -, h⟩ := bind_eq_ok h
  obtain rfl := Except.ok.inj h
  have next : OptionGives (nextSection expr) (·.nesting ≤ n + 6) := by
    intro c p h
    unfold nextSection at h
    split at h
    · exact (gives_doSection he _ _).andMaybe (eq_ok_of_map_some h)
    · cases h
  have body := gives_doSection he _ _ c first hfirst
  have sections := next.many.behindMaybe hmore
  exact nesting_le_succ (List.forall_mem_cons.mpr ⟨body, sections⟩)

theorem gives_attach (blocks : Bool) {call : Tree} (h : call.nesting ≤ n + 8) :
    MaybeGives (attach expr blocks call) (·.nesting ≤ n + 8) := by
  intro c p hp
  unfold attach at hp
  split at hp
  · obtain ⟨body, hbody, hp⟩ := bind_eq_ok hp
    obtain rfl := Except.ok.inj hp
    exact nesting_append h ((gives_doBlock he _).andThen hbody)
  · obtain rfl := Except.ok.inj hp
    exact h

theorem gives_fn (opening : Token) : Gives (fn expr opening) (·.nesting ≤ n + 5) := by
  intro c p h
  obtain ⟨body, hbody, h⟩ := bind_eq_ok h
  obtain ⟨last, -, h⟩ := bind_eq_ok h
  dsimp only at h
  split at h
  · cases h
  · split at h
    · cases h
    · obtain rfl := Except.ok.inj h
      exact nesting_le_succ (gives_block he c body hbody)

/-! ### Literals and containers -/

theorem gives_container (form : Form) (closer : Kind) (start : Span) :
    Gives (container expr form closer start) (·.nesting ≤ n + 3) := by
  intro c p h
  obtain ⟨found, hfound, h⟩ := bind_eq_ok h
  obtain rfl := Except.ok.inj h
  exact nesting_le_succ (gives_items he _ _ c found hfound)

theorem gives_mapOrStruct (start : Span) : Gives (mapOrStruct expr start) (·.nesting ≤ n + 4) := by
  intro c p h
  have segment (name : Tree) (hn : name.nesting ≤ 2) :
      OptionGives (segment? name) (·.nesting ≤ 2) := by
    intro c p h
    obtain ⟨dot, -, h⟩ := Option.bind_eq_some_iff.mp (Except.ok.inj h)
    obtain ⟨segment, -, h⟩ := Option.bind_eq_some_iff.mp h
    obtain rfl := Option.some.inj h
    exact nesting_extend _ hn
  unfold mapOrStruct at h
  split at h
  · exact Nat.le_succ_of_le ((gives_container he _ _ _).andThen h)
  · split at h
    · rename_i head first hhead _
      obtain ⟨name, hname, h⟩ := bind_eq_ok h
      obtain ⟨brace, -, h⟩ := bind_eq_ok h
      obtain ⟨fields, hfields, h⟩ := bind_eq_ok h
      obtain rfl := Except.ok.inj h
      have named := (OptionGives.iterate segment (nesting_structHead hhead)).andMaybe hname
      have body := (gives_container he _ _ _).andThen hfields
      refine nesting_le_succ (List.forall_mem_cons.mpr ⟨?_, List.forall_mem_singleton.mpr body⟩)
      exact Nat.le_trans named (Nat.le_add_left 2 (n + 1))
    · cases h

theorem gives_embedded : MaybeGives (embedded expr) fun vs => ∀ v ∈ vs, v.nesting ≤ n := by
  intro c p h
  unfold embedded at h
  split at h
  · obtain rfl := Except.ok.inj h
    simp
  · obtain ⟨value, hvalue, h⟩ := bind_eq_ok h
    obtain rfl := Except.ok.inj h
    exact List.forall_mem_singleton.mpr ((he 0 true).loosely c value hvalue)

theorem gives_fragments : Gives (fragments expr) fun parts => ∀ v ∈ parts.2, v.nesting ≤ n := by
  intro c p h
  obtain ⟨first, hfirst, h⟩ := bind_eq_ok h
  obtain ⟨more, hmore, h⟩ := bind_eq_ok h
  obtain ⟨last, -, h⟩ := bind_eq_ok h
  obtain rfl := Except.ok.inj h
  have next : OptionGives (nextFragment expr) fun part => ∀ v ∈ part.2, v.nesting ≤ n := by
    intro c p h
    unfold nextFragment at h
    split at h
    · obtain ⟨values, hvalues, h⟩ := bind_eq_ok h
      obtain rfl := Option.some.inj (Except.ok.inj h)
      exact (gives_embedded he).andMaybe hvalues
    · cases h
  have others := next.many.behindMaybe hmore
  refine List.forall_mem_append.mpr ⟨gives_embedded he c first hfirst, ?_⟩
  intro v hv
  obtain ⟨part, hpart, hv⟩ := List.mem_flatMap.mp hv
  exact others part hpart v hv

theorem gives_interpolated (opening : Token) :
    Gives (interpolated expr opening) (·.nesting ≤ n + 2) := by
  intro c p h
  obtain ⟨parts, hparts, h⟩ := bind_eq_ok h
  obtain rfl := Except.ok.inj h
  have body {form : Form} {span : Span} {name : Bytes} :
      Tree.nesting ⟨form, span, name, parts.value.2, false, true⟩ ≤ n + 1 :=
    nesting_le_succ (gives_fragments he c parts hparts)
  rw [Parsed.value_map]
  split
  · exact nesting_le_succ (List.forall_mem_singleton.mpr body)
  · exact Nat.le_succ_of_le body

theorem gives_commaSeparated : Gives (commaSeparated expr) fun vs => ∀ v ∈ vs, v.nesting ≤ n := by
  intro c p h
  obtain ⟨first, hfirst, h⟩ := bind_eq_ok h
  obtain ⟨more, hmore, h⟩ := bind_eq_ok h
  obtain rfl := Except.ok.inj h
  have next := (he 0 true).loosely.behind fun c => c.take? .comma
  exact List.forall_mem_cons.mpr ⟨he 0 true c first hfirst, next.many.andMaybe hmore⟩

theorem gives_parenthesisedClause (start : Span) {patterns : List Tree}
    (hp : ∀ v ∈ patterns, v.nesting ≤ n) :
    Gives (parenthesisedClause expr start patterns) (·.nesting ≤ n + 3) := by
  intro c p h
  obtain ⟨result, hresult, h⟩ := bind_eq_ok h
  obtain ⟨last, -, h⟩ := bind_eq_ok h
  obtain rfl := Except.ok.inj h
  have body : ∀ v ∈ [result.value], v.nesting ≤ n :=
    List.forall_mem_singleton.mpr (he 0 true c result hresult)
  refine nesting_le_succ (List.forall_mem_singleton.mpr (nesting_le_succ ?_))
  exact List.forall_mem_cons.mpr
    ⟨nesting_le_succ hp, List.forall_mem_singleton.mpr (nesting_le_succ body)⟩

theorem gives_moreStatements :
    Gives (moreStatements expr) fun vs => ∀ v ∈ vs, v.nesting ≤ n := by
  intro c p h
  obtain ⟨found, hfound, h⟩ := bind_eq_ok h
  obtain ⟨last, -, h⟩ := bind_eq_ok h
  obtain rfl := Except.ok.inj h
  have next : OptionGives (nextStatement expr) (·.nesting ≤ n) := by
    intro c p h
    unfold nextStatement at h
    split at h
    · cases h
    · split at h
      · cases h
      · exact (he 0 true).loosely c p (eq_ok_of_map_some h)
  exact next.many c found hfound

theorem gives_parenthesised (start : Span) :
    Gives (parenthesised expr start) (·.nesting ≤ n + 3) := by
  intro c p h
  unfold parenthesised at h
  split at h
  · obtain rfl := Except.ok.inj h
    exact nesting_le_succ (by simp)
  · obtain ⟨first, hfirst, h⟩ := bind_eq_ok h
    have found := (gives_commaSeparated he).loosely c first hfirst
    split at h
    · exact (gives_parenthesisedClause he start found).andThen h
    · split at h
      · rename_i single hsingle
        obtain ⟨more, hmore, h⟩ := bind_eq_ok h
        obtain rfl := Except.ok.inj h
        rw [hsingle] at found
        have statement := List.forall_mem_singleton.mp found
        have statements := (gives_moreStatements he).andThen hmore
        rw [Parsed.value_map]
        split
        · exact Nat.le_add_right_of_le statement
        · refine Nat.le_add_right_of_le (k := 2) (nesting_le_succ ?_)
          exact List.forall_mem_cons.mpr ⟨statement, statements⟩
      · cases h

/-! ### What follows a term -/

theorem gives_anonCall {function : Tree} (h : function.nesting ≤ n + 8) :
    Gives (anonCall expr function) (·.nesting ≤ n + 8) := by
  intro c p hp
  obtain ⟨arguments, harguments, hp⟩ := bind_eq_ok hp
  obtain rfl := Except.ok.inj hp
  have values := gives_items he .rparen true c arguments harguments
  exact nesting_le_behind rfl rfl h fun v hv => Nat.le_trans (values v hv) (by omega)

theorem gives_member (blocks : Bool) {left : Tree} (h : left.nesting ≤ n + 8) (name : Token) :
    MaybeGives (member expr blocks left name) (·.nesting ≤ n + 8) := by
  intro c p hp
  obtain ⟨arguments, harguments, hp⟩ := bind_eq_ok hp
  have values := gives_arguments he c arguments harguments
  dsimp only at hp
  split at hp
  · obtain rfl := Except.ok.inj hp
    exact nesting_le_behind rfl rfl h (by simp)
  · refine (gives_attach he blocks ?_).behindMaybe hp
    exact nesting_le_behind rfl rfl h fun v hv => Nat.le_trans (values v hv) (by omega)

theorem gives_dotted (blocks : Bool) {left : Tree} (h : left.nesting ≤ n + 8) :
    Gives (dotted expr blocks left) (·.nesting ≤ n + 8) := by
  intro c p hp
  unfold dotted at hp
  split at hp
  · cases hp
  · split at hp
    · obtain rfl := Except.ok.inj hp
      exact nesting_extend _ h
    · obtain ⟨entries, hentries, hp⟩ := bind_eq_ok hp
      obtain rfl := Except.ok.inj hp
      have values := (gives_items he .rbrace false).andThen hentries
      exact nesting_le_behind rfl rfl h fun v hv => Nat.le_trans (values v hv) (by omega)
    · exact (gives_anonCall he h).andThen hp
    · split at hp
      · exact (gives_member he blocks h _).andMaybe hp
      · cases hp

theorem gives_access {left : Tree} (h : left.nesting ≤ n + 8) :
    Gives (access expr left) (·.nesting ≤ n + 8) := by
  intro c p hp
  obtain ⟨key, hkey, hp⟩ := bind_eq_ok hp
  obtain ⟨last, -, hp⟩ := bind_eq_ok hp
  obtain rfl := Except.ok.inj hp
  have inside := (he 0 true).loosely c key hkey
  exact nesting_le_behind rfl rfl h (List.forall_mem_singleton.mpr (Nat.le_add_right_of_le inside))

theorem gives_suffix (blocks : Bool) (left : Tree) (h : left.nesting ≤ n + 8) :
    OptionGives (suffix? expr blocks left) (·.nesting ≤ n + 8) := by
  intro c p hp
  unfold suffix? at hp
  split at hp
  · cases hp
  · split at hp
    · exact (gives_dotted he blocks h).andThen (eq_ok_of_map_some hp)
    · split at hp
      · cases hp
      · exact (gives_access he h).andThen (eq_ok_of_map_some hp)
    · split at hp
      · cases hp
      · exact (gives_anonCall he h).andThen (eq_ok_of_map_some hp)
    · cases hp

/-- The nesting does not grow with the number of suffixes. -/
theorem gives_suffixes (blocks : Bool) {left : Tree} (h : left.nesting ≤ n + 8) :
    MaybeGives (suffixes expr blocks left) (·.nesting ≤ n + 8) :=
  OptionGives.iterate (gives_suffix he blocks) h

theorem gives_application (level : Nat) (blocks : Bool) (left : Tree) (h : left.nesting ≤ n + 8) :
    OptionGives (application? expr level blocks left) (·.nesting ≤ n + 8) := by
  intro c p hp
  unfold application? at hp
  split at hp
  · cases hp
  · rename_i op _
    split at hp
    · cases hp
    · obtain ⟨right, hright, hp⟩ := bind_eq_ok hp
      obtain rfl := Option.some.inj (Except.ok.inj hp)
      have operand : Gives (rightOperand expr blocks op.value) (·.nesting ≤ n + 2) := by
        intro c p h
        unfold rightOperand at h
        split at h
        · exact gives_keywordList he blocks c p h
        · exact Nat.le_add_right_of_le (he _ blocks c p h)
      have inside := operand.andThen hright
      refine nesting_le_behind ?_ rfl h
        (List.forall_mem_singleton.mpr (Nat.le_trans inside (by omega)))
      simp only [Parsed.value_map, Operator.apply]
      split <;> rfl

/-- The nesting does not grow with the number of operators. -/
theorem gives_climb (level : Nat) (blocks : Bool) {left : Tree} (h : left.nesting ≤ n + 8) :
    MaybeGives (climb expr level blocks left) (·.nesting ≤ n + 8) :=
  OptionGives.iterate (gives_application he level blocks) h

/-! ### Expressions -/

theorem gives_identifier (blocks : Bool) (name : Token) :
    MaybeGives (identifier expr blocks name) (·.nesting ≤ n + 8) := by
  intro c p h
  obtain ⟨arguments, harguments, h⟩ := bind_eq_ok h
  have values := gives_arguments he c arguments harguments
  dsimp only at h
  split at h
  · obtain rfl := Except.ok.inj h
    exact Nat.le_trans (nesting_leaf _ _ _) (by omega)
  · refine (gives_attach he blocks ?_).behindMaybe h
    exact nesting_le_succ fun v hv => Nat.le_trans (values v hv) (by omega)

theorem gives_primary (blocks : Bool) : Gives (primary expr blocks) (·.nesting ≤ n + 8) := by
  intro c p h
  unfold primary at h
  split at h
  · cases h
  · rename_i first _
    have single (form : Form) (name : Bytes) : (leaf form first.value name).nesting ≤ n + 8 :=
      Nat.le_trans (nesting_leaf _ _ _) (by omega)
    dsimp only at h
    split at h
    case h_1 => exact (gives_identifier he blocks _).andMaybe h
    case h_2 =>
      cases h
      exact Nat.le_trans (nesting_reference _) (by omega)
    case h_11 | h_12 | h_13 =>
      cases h
      exact Nat.le_trans (nesting_plainText _) (by omega)
    case h_14 => exact Nat.le_trans ((gives_interpolated he _).andThen h) (by omega)
    case h_15 => exact Nat.le_trans ((gives_parenthesised he _).andThen h) (by omega)
    case h_16 | h_17 | h_18 => exact Nat.le_trans ((gives_container he _ _ _).andThen h) (by omega)
    case h_19 => exact Nat.le_trans ((gives_mapOrStruct he _).andThen h) (by omega)
    case h_20 => exact Nat.le_trans ((gives_fn he _).andThen h) (by omega)
    case h_21 => exact Nat.le_trans (gives_keywordList he blocks c p h) (by omega)
    case h_22 | h_23 => cases h
    all_goals
      cases h
      exact single _ _

theorem gives_moduleAttribute (blocks : Bool) (start : Span) :
    Gives (moduleAttribute expr blocks start) (·.nesting ≤ n + 8) := by
  intro c p h
  obtain ⟨name, -, h⟩ := bind_eq_ok h
  have named {span : Span} {m : Nat} :
      Tree.nesting { form := .attribute, span, name := name.value.value } ≤ m + 1 :=
    Nat.le_trans (nesting_le_one rfl) (Nat.le_add_left 1 m)
  dsimp only at h
  split at h
  · obtain ⟨value, hvalue, h⟩ := bind_eq_ok h
    obtain rfl := Except.ok.inj h
    have inside := (he 0 blocks).andThen hvalue
    exact nesting_append named (Nat.le_add_right_of_le inside)
  · exact (gives_suffixes he blocks named).andMaybe h

theorem gives_capture (blocks : Bool) (start : Span) :
    Gives (capture expr blocks start) (·.nesting ≤ n + 8) := by
  intro c p h
  unfold capture at h
  dsimp only at h
  split at h
  · refine (gives_suffixes he blocks ?_).andMaybe h
    exact Nat.le_trans (nesting_unary _ _ (nesting_leaf _ _ _)) (by omega)
  · split at h
    · obtain ⟨q, hq, rfl⟩ := map_eq_ok h
      obtain ⟨slash, -, hq⟩ := bind_eq_ok hq
      obtain ⟨arity, -, hq⟩ := bind_eq_ok hq
      obtain rfl := Except.ok.inj hq
      have applied {span : Span} {name : Bytes} {left right : Tree} (hl : left.nesting ≤ 1)
          (hr : right.nesting ≤ 1) :
          Tree.nesting { form := .binaryOp, span, name, children := [left, right] } ≤ 2 :=
        nesting_le_behind rfl rfl (Nat.le_succ_of_le hl) (List.forall_mem_singleton.mpr hr)
      exact Nat.le_trans (nesting_unary _ _ (applied (nesting_leaf _ _ _) (nesting_leaf _ _ _)))
        (by omega)
    · obtain ⟨value, hvalue, rfl⟩ := map_eq_ok h
      exact Nat.le_trans (nesting_unary _ _ (he _ blocks c value hvalue)) (by omega)

theorem gives_operand (blocks : Bool) : Gives (operand expr blocks) (·.nesting ≤ n + 8) := by
  intro c p h
  unfold operand at h
  split at h
  · cases h
  · dsimp only at h
    split at h
    · exact (gives_moduleAttribute he blocks _).andThen h
    · split at h
      · exact (gives_capture he blocks _).andThen h
      · split at h
        · obtain rfl := Except.ok.inj h
          exact Nat.le_trans (nesting_leaf _ _ _) (by omega)
        · split at h
          · obtain ⟨value, hvalue, h⟩ := bind_eq_ok h
            obtain rfl := Except.ok.inj h
            have inside := (he _ blocks).andThen hvalue
            exact Nat.le_trans (nesting_unary _ _ inside) (by omega)
          · obtain ⟨left, hleft, h⟩ := bind_eq_ok h
            exact (gives_suffixes he blocks (gives_primary he blocks c left hleft)).andMaybe h

theorem gives_expression (level : Nat) (blocks : Bool) :
    Gives (expression expr level blocks) (·.nesting ≤ n + 8) := by
  intro c p h
  obtain ⟨left, hleft, h⟩ := bind_eq_ok h
  exact (gives_climb he level blocks (gives_operand he blocks c left hleft)).andMaybe h

end Parts

theorem gives_expressionAt (depth level : Nat) (blocks : Bool) :
    Gives (expressionAt depth level blocks) (·.nesting ≤ 8 * depth) := by
  induction depth generalizing level blocks with
  | zero =>
    intro c p h
    cases h
  | succ depth ih => exact gives_expression ih level blocks

theorem nesting_parseTokens {ts : List Token} {t : Tree} (h : parseTokens ts = .ok t) :
    t.nesting ≤ 8 * maxNesting + 5 := by
  obtain ⟨file, hfile, h⟩ := bind_eq_ok h
  have children := gives_block (gives_expressionAt maxNesting) _ file hfile
  dsimp only at h
  split at h
  · obtain rfl := Except.ok.inj h
    exact nesting_le_succ children
  · cases h

end Grammar

open Grammar in
/-- The limit bounds the nesting of the tree of a source. Its height is at least the length of each
of its chains, and it is bounded by the limit and the longest of them. -/
theorem parsed_height_bounded {s : Source} {t : Tree} (h : parse s = .ok t) :
    t.nesting ≤ 8 * maxNesting + 5 ∧ (∀ node ∈ t.nodes, node.chain < t.height) ∧
      ∀ n, (∀ node ∈ t.nodes, node.chain ≤ n) → t.height ≤ (8 * maxNesting + 5) * (n + 1) := by
  have nested := nesting_parseTokens (parseTokens_of_parse h).2
  refine ⟨nested, ?_, ?_⟩
  · intro node hnode
    exact Nat.lt_of_lt_of_le node.chain_lt_height (Tree.height_le_of_mem_nodes t hnode)
  · intro n short
    calc t.height
      _ ≤ t.nesting * (n + 1) := Tree.height_le_nesting_mul short
      _ ≤ (8 * maxNesting + 5) * (n + 1) := Nat.mul_le_mul_right _ nested

/-- A chain in a pair, among the patterns of a clause of a `do` block. -/
def clauseSample : Source :=
  ⟨Source.defaultName, text "case x do\n  a, k: b.c.d.e -> 1 + 2 + 3\nend"⟩

open Grammar in
theorem clauseSample_bounded : ∃ t, parse clauseSample = .ok t ∧ t.nesting = 10 ∧
    t.height = 13 ∧ t.height ≤ (8 * maxNesting + 5) * (3 + 1) := by
  have found : (parse clauseSample).toOption.any fun t =>
      t.nesting = 10 && t.height = 13 && t.nodes.all (·.chain ≤ 3) := by
    decide +kernel
  cases ht : parse clauseSample with
  | error e => simp [ht, Except.toOption] at found
  | ok t =>
    simp only [ht, Except.toOption, Option.any_some, Bool.and_eq_true, decide_eq_true_eq,
      List.all_eq_true] at found
    obtain ⟨⟨nested, high⟩, short⟩ := found
    exact ⟨t, rfl, nested, high, (parsed_height_bounded ht).2.2 3 short⟩

/-- Without a bound on the chains there is none on the height. -/
theorem parsed_height_unbounded :
    ¬ ∃ bound, ∀ s t, Grammar.parse s = .ok t → t.height ≤ bound := by
  rintro ⟨bound, h⟩
  obtain ⟨t, parsed, high⟩ := Grammar.parse_memberSource bound
  have low := h _ t parsed
  omega

end CallAtlas
