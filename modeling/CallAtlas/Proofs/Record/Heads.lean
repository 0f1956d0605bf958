import CallAtlas.Proofs.Record.Sites
import Mathlib.Data.List.Forall2

/-! # Heads of nested definitions

The head of a definition looks like a call. At module level the walk takes it for the name and the
parameters of a function. Of a definition inside the body of a function it leaves out the word only,
and goes into the head as into any other expression. Here a head is exchanged for the tuple of its
parameters: that takes away one call, if the walk comes to the head, and changes nothing else.
-/
namespace CallAtlas

open CallAtlas.Tree

/-- The tuple of the parameters of a head. -/
def Tree.parameters (head : Tree) : Tree :=
  { form := .tuple, span := head.span, children := head.children }

/-! ### References that are alike -/

/-- Trees that are the same as module references and as options of directives: they differ at most
inside calls, and there only if the call is not one of `unquote`. -/
inductive Alike : Tree → Tree → Prop
  | hidden {t u : Tree} (form : t.form = .call) (form' : u.form = .call) (name : u.name = t.name)
      (other : t.name ≠ text "unquote") : Alike t u
  | node {t u : Tree} (form : u.form = t.form) (name : u.name = t.name)
      (children : List.Forall₂ Alike t.children u.children) : Alike t u

namespace Alike

theorem refl (t : Tree) : Alike t t := by
  induction t using induction_children with
  | node t ih => exact .node rfl rfl (List.forall₂_same.mpr ih)

theorem modify {ts : List Tree} {i : Nat} {child : Tree} {f : Tree → Tree}
    (hc : ts[i]? = some child) (h : Alike child (f child)) :
    List.Forall₂ Alike ts (ts.modify i f) := by
  obtain ⟨before, after, rfl, rfl⟩ := exists_split hc
  rw [modify_length]
  exact List.rel_append (List.forall₂_same.mpr fun t _ => refl t)
    (.cons h (List.forall₂_same.mpr fun t _ => refl t))

variable {t u : Tree}

theorem form_eq (h : Alike t u) : u.form = t.form := by
  cases h with
  | hidden form form' _ _ => rw [form, form']
  | node form _ _ => exact form

theorem name_eq (h : Alike t u) : u.name = t.name := by
  cases h with
  | hidden _ _ name _ => exact name
  | node _ name _ => exact name

/-- Alike trees that are no calls have alike children. -/
theorem children (h : Alike t u) (plain : t.form ≠ .call) :
    List.Forall₂ Alike t.children u.children := by
  cases h with
  | hidden form _ _ _ => exact absurd form plain
  | node _ _ children => exact children

theorem segmentNames_eq {ts us : List Tree} (h : List.Forall₂ Alike ts us) :
    segmentNames? us = segmentNames? ts := by
  induction h with
  | nil => rfl
  | cons first _ ih => simp only [segmentNames?, first.form_eq, first.name_eq, ih]

theorem literalSegments_eq (h : Alike t u) : literalSegments? u = literalSegments? t := by
  unfold literalSegments?
  rw [h.form_eq]
  by_cases form : t.form = .aliases
  · have inside := h.children (by simp [form])
    have empty : u.children.isEmpty = t.children.isEmpty := by
      generalize t.children = ts at inside
      generalize u.children = us at inside
      cases inside <;> rfl
    rw [segmentNames_eq inside, empty]
  · simp [form]

theorem resolve_eq (current : ModuleName) (aliases : AliasTable) (h : Alike t u) :
    resolve current aliases u = resolve current aliases t := by
  induction t using induction_children generalizing u with
  | node t ih =>
    cases h with
    | hidden form form' name other =>
      rw [resolve_call form other, resolve_call form' (name ▸ other)]
    | node form name children =>
      obtain ⟨form₁, span₁, name₁, children₁, parens₁, interpolated₁⟩ := t
      obtain ⟨form₂, span₂, name₂, children₂, parens₂, interpolated₂⟩ := u
      obtain rfl : form₂ = form₁ := form
      obtain rfl : name₂ = name₁ := name
      cases form₂ with
      | aliases =>
        cases children with
        | nil => rfl
        | cons head more =>
          simp only [resolve, segmentNames_eq more, head.form_eq, head.name_eq,
            ih _ List.mem_cons_self head]
      | call =>
        cases children with
        | nil => rfl
        | cons argument more =>
          cases more with
          | nil => simp only [resolve, ih _ List.mem_cons_self argument]
          | cons _ _ => rfl
      | _ => rfl

theorem optionName_eq (h : Alike t u) : Checked.optionName? u = Checked.optionName? t := by
  unfold Checked.optionName?
  rw [h.form_eq]
  by_cases form : t.form = .pair
  · have inside := h.children (by simp [form])
    generalize t.children = ts at inside
    generalize u.children = us at inside
    rw [form]
    cases inside with
    | nil => rfl
    | cons key more =>
      cases more with
      | nil => rfl
      | cons value _ => simp only [key.name_eq, value.literalSegments_eq]
  · simp [form]

theorem shortName_eq (h : Alike t u) : AliasTable.shortName? u = AliasTable.shortName? t := by
  have short (options : Tree) : AliasTable.shortName? options =
    if options.form = .list then options.children.findSome? Checked.optionName? else none := rfl
  rw [short, short, h.form_eq]
  split
  · rename_i form
    have inside := h.children (by simp [form])
    generalize t.children = ts at inside
    generalize u.children = us at inside
    induction inside with
    | nil => rfl
    | cons first _ ih => rw [List.findSome?_cons, List.findSome?_cons, first.optionName_eq, ih]
  · rfl

theorem addEntries_eq (aliases : AliasTable) (base : ModuleName) {ts us : List Tree}
    (h : List.Forall₂ Alike ts us) :
    aliases.addEntries base us = aliases.addEntries base ts := by
  unfold AliasTable.addEntries
  induction h generalizing aliases with
  | nil => rfl
  | cons first _ ih => rw [List.foldl_cons, List.foldl_cons, first.literalSegments_eq, ih]

theorem getLast_rel {ts us : List Tree} (h : List.Forall₂ Alike ts us) :
    Option.Rel Alike ts.getLast? us.getLast? := by
  induction h with
  | nil => exact .none
  | cons first more ih =>
    cases more with
    | nil => exact .some first
    | cons second more =>
      rw [List.getLast?_cons_cons, List.getLast?_cons_cons]
      exact ih

theorem update_eq (aliases : AliasTable) (current : ModuleName) {options options' : Option Tree}
    (h : Alike t u) (ho : Option.Rel Alike options options') :
    aliases.update current u options' = aliases.update current t options := by
  have named : options'.bind AliasTable.shortName? = options.bind AliasTable.shortName? := by
    cases ho with
    | some h => exact h.shortName_eq
    | none => rfl
  unfold AliasTable.update
  rw [h.form_eq, named, h.resolve_eq]
  by_cases call : t.form = .call
  · simp only [call]
  · have inside := h.children call
    generalize t.children = ts at inside
    generalize u.children = us at inside
    cases t.form with
    | multiAlias =>
      cases inside with
      | nil => rfl
      | cons base entries => simp only [base.resolve_eq, addEntries_eq _ _ entries]
    | aliases =>
      have ends := getLast_rel inside
      dsimp only
      generalize ts.getLast? = last at ends ⊢
      generalize us.getLast? = last' at ends ⊢
      cases ends with
      | none => rfl
      | some last =>
        cases resolve current aliases t with
        | unknown => rfl
        | erlang atom => rfl
        | elixir head more => simp [ModuleName.isErlang, last.form_eq, last.name_eq]
    | _ => rfl

/-- What is done inside a tree leaves it alike if it leaves the node alike that it is done to. -/
theorem modifyAt {n : Tree} {f : Tree → Tree} {p : Place} (hn : t.at? p = some n)
    (h : Alike n (f n)) : Alike t (t.modifyAt f p) := by
  induction p generalizing t with
  | nil =>
    cases hn
    exact h
  | cons i p ih =>
    obtain ⟨child, hc, hn⟩ := Option.bind_eq_some_iff.mp hn
    exact .node rfl rfl (modify hc (ih hn))

end Alike

/-! ### Events that are read alike -/

namespace Event

/-- Lists of events that every reading takes in alike. -/
def SameReading (events events' : List Event) : Prop :=
  ∀ (module : ModuleName) (r : Reading),
    events'.foldl (Reading.step module) r = events.foldl (Reading.step module) r

theorem SameReading.refl (events : List Event) : SameReading events events := fun _ _ => rfl

theorem SameReading.append {events events' more more' : List Event} (h : SameReading events events')
    (hm : SameReading more more') : SameReading (events ++ more) (events' ++ more') := by
  intro module r
  rw [List.foldl_append, List.foldl_append, h, hm]

theorem sameReading_directive (kind : DirectiveKind) {ts us : List Tree}
    (h : List.Forall₂ Alike ts us) :
    SameReading (directive? kind ts).toList (directive? kind us).toList := by
  cases h with
  | nil => exact .refl _
  | @cons target target' more more' alike rest =>
    intro module r
    have options : Option.Rel Alike more.head? more'.head? := by
      cases rest with
      | nil => exact .none
      | cons first _ => exact .some first
    simp only [directive?, Option.toList_some, List.foldl_cons, List.foldl_nil, Reading.step,
      alike.resolve_eq, alike.update_eq _ _ options]

/-- Nodes with alike children say the same. -/
theorem sameReading_inBody {t u : Tree} (form : u.form = t.form) (name : u.name = t.name)
    (children : List.Forall₂ Alike t.children u.children) :
    SameReading (inBody? t).toList (inBody? u).toList := by
  unfold inBody?
  rw [form, name]
  cases t.form with
  | call =>
    dsimp only
    split
    · exact .refl _
    · cases DirectiveKind.parse? t.name with
      | some kind => exact sameReading_directive kind children
      | none =>
        rw [children.length_eq]
        exact .refl _
  | remoteCall =>
    generalize t.children = ts at children
    generalize u.children = us at children
    cases children with
    | nil => exact .refl _
    | cons receiver arguments =>
      intro module r
      simp [Reading.step, receiver.resolve_eq, arguments.length_eq]
  | _ => exact .refl _

/-- What is done to a node in the body of a function is done to its events, if the walk comes to it,
and to no others. -/
theorem ofBody_modify {t n : Tree} {f : Tree → Tree} {p : Place} (hn : t.at? p = some n)
    (h : Alike n (f n)) :
    if t.reaches entersInBody p then
      ∃ before before' after, SameReading before before' ∧
        ofBody t = before ++ ofBody n ++ after ∧
        ofBody (t.modifyAt f p) = before' ++ ofBody (f n) ++ after
    else SameReading (ofBody t) (ofBody (t.modifyAt f p)) := by
  induction p generalizing t with
  | nil =>
    obtain rfl : t = n := Option.some.inj hn
    exact ⟨[], [], [], .refl _, by simp, by simp [modifyAt]⟩
  | cons i p ih =>
    obtain ⟨child, hc, found⟩ := Option.bind_eq_some_iff.mp hn
    -- The event of a node above the place may hold the tree that is changed, but a reading asks for
    -- references and options only.
    have own : SameReading (inBody? t).toList (inBody? (t.modifyAt f (i :: p))).toList :=
      sameReading_inBody rfl rfl (Alike.modify hc (Alike.modifyAt found h))
    obtain ⟨left, right, children, rfl⟩ := exists_split hc
    have children' : (t.modifyAt f (left.length :: p)).children =
        left ++ child.modifyAt f p :: right := by
      rw [modifyAt, children, modify_length]
    have whole := ofBody_eq t
    have whole' := ofBody_eq (t.modifyAt f (left.length :: p))
    have same : entersInBody (t.modifyAt f (left.length :: p)) = entersInBody t := rfl
    rw [same] at whole'
    rw [reaches, hc, Option.any_some]
    cases entered : entersInBody t with
    | false =>
      rw [entered] at whole whole'
      simpa [whole, whole'] using own
    | true =>
      rw [entered, if_pos rfl, children, List.flatMap_append, List.flatMap_cons] at whole
      rw [entered, if_pos rfl, children', List.flatMap_append, List.flatMap_cons] at whole'
      have inside := ih found
      rw [Bool.true_and]
      split
      · rename_i reached
        rw [if_pos reached] at inside
        obtain ⟨before, before', after, alike, hb, hb'⟩ := inside
        refine ⟨(inBody? t).toList ++ (left.flatMap ofBody ++ before),
          (inBody? (t.modifyAt f (left.length :: p))).toList ++ (left.flatMap ofBody ++ before'),
          after ++ right.flatMap ofBody, own.append ((SameReading.refl _).append alike), ?_, ?_⟩
        · rw [whole, hb]
          simp only [List.append_assoc]
        · rw [whole', hb']
          simp only [List.append_assoc]
      · rename_i missed
        rw [if_neg missed] at inside
        rw [whole, whole']
        exact own.append ((SameReading.refl _).append (inside.append (.refl _)))

/-! ### The events of a head -/

theorem of_definitionWord {w : Bytes} (h : w ∈ definitionWords) :
    w ∉ leftOut ∧ DirectiveKind.parse? w = none ∧ w ≠ text "unquote" := by
  have all : ∀ w ∈ definitionWords,
      w ∉ leftOut ∧ DirectiveKind.parse? w = none ∧ w ≠ text "unquote" := by
    decide
  exact all w h

theorem ofBody_word {t : Tree} (form : t.form = .call) (word : t.name ∈ definitionWords) :
    entersInBody t ∧ ofBody t = t.children.flatMap ofBody := by
  obtain ⟨kept, plain, -⟩ := of_definitionWord word
  have enters : entersInBody t := by simp [entersInBody, form, kept, plain]
  refine ⟨enters, ?_⟩
  rw [ofBody_eq, if_pos enters]
  simp [inBody?, form, kept, plain, word]

/-- The walk goes through the guards of a head as through any operator. -/
theorem ofBody_unguarded (f : Tree → Tree) (head : Tree) :
    head.reaches entersInBody (unguardedPlace head) ∧
      ∃ after, ofBody head = ofBody (unguarded head) ++ after ∧
        ofBody (head.modifyAt f (unguardedPlace head)) = ofBody (f (unguarded head)) ++ after := by
  induction head using head_induction with
  | guarded span head guard parens interpolated ih =>
    obtain ⟨reached, after, whole, whole'⟩ := ih
    have operator (children : List Tree) :
        ofBody ⟨.binaryOp, span, text "when", children, parens, interpolated⟩ =
          children.flatMap ofBody := by
      rw [ofBody_eq]
      rfl
    refine ⟨?_, after ++ ofBody guard, ?_, ?_⟩
    · simpa [unguardedPlace, reaches, entersInBody] using reached
    · rw [operator, unguarded, if_pos rfl]
      simp [whole]
    · rw [unguardedPlace, if_pos rfl, modifyAt, operator, unguarded, if_pos rfl]
      simp [whole']
  | bare t same place =>
    rw [place, same]
    exact ⟨rfl, [], by simp, by simp [modifyAt]⟩

/-- A nested definition begins with the events of its head, whatever is put in place of the head. -/
theorem ofBody_definition (f : Tree → Tree) {n head : Tree} {rest : List Tree}
    (defines : definesFunction n) (children : n.children = head :: rest) :
    n.reaches entersInBody (0 :: unguardedPlace head) ∧
      Alike n (n.modifyAt f (0 :: unguardedPlace head)) ∧
      ∃ after, ofBody n = ofBody (unguarded head) ++ after ∧
        ofBody (n.modifyAt f (0 :: unguardedPlace head)) =
          ofBody (f (unguarded head)) ++ after := by
  obtain ⟨form, word⟩ : n.form = .call ∧ n.name ∈ definitionWords := by
    simpa [definesFunction] using defines
  obtain ⟨reached, after, whole, whole'⟩ := ofBody_unguarded f head
  refine ⟨?_, .hidden form form rfl (of_definitionWord word).2.2,
    after ++ rest.flatMap ofBody, ?_, ?_⟩
  · simp [reaches, (ofBody_word form word).1, children, reached]
  · rw [(ofBody_word form word).2, children, List.flatMap_cons, whole, List.append_assoc]
  · have changed : (n.modifyAt f (0 :: unguardedPlace head)).children =
        head.modifyAt f (unguardedPlace head) :: rest := by
      rw [modifyAt, children]
      rfl
    rw [(ofBody_word (by exact form) (by exact word)).2, changed, List.flatMap_cons, whole',
      List.append_assoc]

/-- A head says that it calls itself, unless it is named like a definition. -/
theorem ofBody_head {h : Tree} (form : h.form = .call) (plain : h.isSetApart = false) :
    ofBody h = (if h.name ∈ definitionWords then []
        else [.sameModuleCall h.name (UInt32.ofNat h.children.length)]) ++
      ofBody h.parameters := by
  obtain ⟨kept, other⟩ : h.name ∉ leftOut ∧ DirectiveKind.parse? h.name = none := by
    simpa [isSetApart, form] using plain
  have enters : entersInBody h := by simp [entersInBody, form, kept, other]
  have tuple : ofBody h.parameters = h.children.flatMap ofBody := by
    rw [ofBody_eq]
    rfl
  rw [ofBody_eq, if_pos enters, tuple]
  simp only [inBody?, form, kept, other, if_false]
  split <;> rfl

/-- The head of a definition that is nested in the body of a function is exchanged for the tuple of
its parameters. -/
theorem ofBody_modify_head {b h : Tree} {p : Place} (hp : p ∈ headPlaces b)
    (hh : b.at? p = some h) (form : h.form = .call) (plain : h.isSetApart = false) :
    if b.reaches entersInBody p ∧ h.name ∉ definitionWords then
      ∃ before before' after, SameReading before before' ∧
        ofBody b =
          before ++ .sameModuleCall h.name (UInt32.ofNat h.children.length) :: after ∧
        ofBody (b.modifyAt parameters p) = before' ++ after
    else SameReading (ofBody b) (ofBody (b.modifyAt parameters p)) := by
  obtain ⟨q, n, head, rest, hn, defines, children, rfl⟩ := mem_headPlaces hp
  obtain ⟨reached, alike, following, whole, whole'⟩ := ofBody_definition parameters defines children
  obtain rfl : unguarded head = h := by
    rw [at_append, hn, Option.bind_some, at?, children] at hh
    exact Option.some.inj ((at_unguardedPlace head).symm.trans hh)
  have step := ofBody_modify hn alike
  rw [reaches_append _ hn, reached, Bool.and_true, modifyAt_append]
  rw [whole, whole', ofBody_head form plain] at step
  by_cases walked : b.reaches entersInBody q
  · rw [if_pos walked] at step
    obtain ⟨before, before', after, same, hb, hb'⟩ := step
    -- A head that is named like a definition is taken for one, and no call of it is noted.
    by_cases word : (unguarded head).name ∈ definitionWords
    · rw [if_neg (fun both => both.2 word), hb, hb', if_pos word, List.nil_append]
      exact (same.append (.refl _)).append (.refl _)
    · rw [if_pos ⟨walked, word⟩]
      rw [if_neg word] at hb
      refine ⟨before, before', ofBody (unguarded head).parameters ++ following ++ after, same,
        ?_, ?_⟩
      · rw [hb]
        simp
      · rw [hb', List.append_assoc]
  · rw [if_neg walked] at step
    rw [if_neg fun both => walked both.1]
    exact step

end Event

/-! ### Bodies of a module's functions -/

/-- What is done to a body leaves the first argument of the definition, unless that is the one that
holds the bodies. -/
theorem head_modify {t b : Tree} {q : Place} (h : (q, b) ∈ bodyPlaces t) (f : Tree → Tree) :
    (t.modifyAt f q).children.head? = t.children.head? ∨
      ∃ u u' : Tree, t.children.head? = some u ∧ (t.modifyAt f q).children.head? = some u' ∧
        u'.form = u.form ∧ (u.form = .doBlock ∨ u.form = .list) := by
  obtain ⟨front, last, last', children, children', form, holds⟩ := (modify_body h f).2
  rw [children, children']
  cases front with
  | nil => exact .inr ⟨last, last', rfl, rfl, form, by simpa using holds⟩
  | cons first front => exact .inl rfl

theorem definedName_modify (enclosing : ModuleName) {d b : Tree} {q : Place}
    (h : (q, b) ∈ bodyPlaces d) (f : Tree → Tree) :
    definedName enclosing (d.modifyAt f q) = definedName enclosing d := by
  have unresolved {u : Tree} (hu : u.form = .doBlock ∨ u.form = .list) :
      resolve enclosing [] u = .unknown := by
    obtain ⟨form, span, name, children, parens, interpolated⟩ := u
    obtain rfl | rfl := hu <;> rfl
  unfold definedName
  obtain same | ⟨u, u', hu, hu', form, holds⟩ := head_modify h f
  · rw [same]
  · rw [hu, hu', Option.map_some, Option.map_some, unresolved holds, unresolved (form ▸ holds)]

theorem definedFunction_modify {t b : Tree} {q : Place} (h : (q, b) ∈ bodyPlaces t)
    (f : Tree → Tree) : definedFunction? (t.modifyAt f q) = definedFunction? t := by
  have undefined {u : Tree} (hu : u.form = .doBlock ∨ u.form = .list) :
      definedBy? (unguarded u) = none := by
    obtain ⟨form, span, name, children, parens, interpolated⟩ := u
    obtain rfl | rfl := hu <;> rfl
  have defines : definesFunction (t.modifyAt f q) = definesFunction t := by
    obtain ⟨front, last, k, pair, -, rfl, -⟩ := mem_bodyPlaces h
    rfl
  unfold definedFunction?
  rw [defines]
  obtain same | ⟨u, u', hu, hu', form, holds⟩ := head_modify h f
  · rw [same]
  · rw [hu, hu', Option.bind_some, Option.bind_some, undefined holds, undefined (form ▸ holds)]

theorem Event.atModuleLevel_defined {t : Tree} {g : Signature} (h : definedFunction? t = some g) :
    t.form = .call ∧ atModuleLevel t = .definition g :: (bodies t).flatMap ofBody := by
  unfold definedFunction? at h
  split at h
  · rename_i defines
    obtain ⟨form, word⟩ : t.form = .call ∧ t.name ∈ definitionWords := by
      simpa [definesFunction] using defines
    refine ⟨form, ?_⟩
    simp only [atModuleLevel, form, word, if_true, ofDefinition, h]
  · cases h

/-- What is done to a body of a function is done to the events of that body only, before which the
function has been entered. The name of the module stays. -/
theorem ofModule_modify_body {d b : Tree} {g : Signature} {q : Place}
    (h : (g, q, b) ∈ functionBodies d) (f : Tree → Tree) :
    (∀ enclosing, definedName enclosing (d.modifyAt f q) = definedName enclosing d) ∧
    ∃ before after,
      (∀ module r, (before.foldl (Reading.step module) r).enclosing = some g) ∧
      Event.ofModule d = before ++ Event.ofBody b ++ after ∧
      Event.ofModule (d.modifyAt f q) = before ++ Event.ofBody (f b) ++ after := by
  obtain ⟨⟨q₁, t⟩, ht, hg⟩ := List.mem_flatMap.mp h
  obtain ⟨g, hdefined, hb⟩ := List.mem_flatMap.mp hg
  obtain ⟨⟨q₂, b⟩, hbody, same⟩ := List.mem_map.mp hb
  obtain ⟨rfl, rest⟩ := Prod.mk.inj same
  obtain ⟨rfl, rfl⟩ := Prod.mk.inj rest
  have defined : definedFunction? t = some g := Option.mem_toList.mp hdefined
  obtain ⟨form, level⟩ := Event.atModuleLevel_defined defined
  obtain ⟨form', level'⟩ := Event.atModuleLevel_defined
    ((definedFunction_modify hbody f).trans defined)
  obtain ⟨left, right, all, all'⟩ := (modify_body hbody f).1
  rw [modifyAt_append]
  constructor
  · obtain ⟨p₁, s, p₂, hs, -, -, rfl⟩ := mem_moduleForms ht
    intro enclosing
    rw [modifyAt_append]
    exact definedName_modify enclosing hs _
  · obtain ⟨before, after, whole, whole'⟩ := Event.ofModule_modify (modifyAt f q₂) ht
      (by simp [form]) (by simp [form'])
    refine ⟨before ++ .definition g :: left.flatMap Event.ofBody,
      right.flatMap Event.ofBody ++ after, ?_, ?_, ?_⟩
    · intro module r
      rw [List.foldl_append, List.foldl_cons]
      exact (Reading.site_foldl module rfl (Event.isDefinition_bodies left)).1
    · rw [whole, level, all]
      simp
    · rw [whole', level', all']
      simp

/-! ### Records -/

namespace Reading

theorem call_calls (module : ModuleName) (r : Reading) (kind : CallKind) (callee : FunctionName) :
    ∃ added, ∀ calls, call module { r with calls } kind callee =
      { r.call module kind callee with calls := calls ++ added } :=
  ⟨(r.enclosing.map fun f => Call.mk kind ⟨module, f.name, f.arity⟩ callee).toList, fun _ => rfl⟩

/-- What an event adds to the calls does not depend on the calls before it. -/
theorem step_calls (module : ModuleName) (r : Reading) (e : Event) :
    ∃ added, ∀ calls,
      step module { r with calls } e = { r.step module e with calls := calls ++ added } := by
  cases e with
  | definition f => exact ⟨[], fun calls => by simp [step]⟩
  | directive kind target options => exact ⟨[], fun calls => by simp [step]⟩
  | sameModuleCall name arity => exact call_calls module r .sameModule _
  | remoteCall receiver name arity =>
    exact call_calls module r .remote ⟨resolve module r.aliases receiver, name, arity⟩

theorem foldl_calls (module : ModuleName) (r : Reading) (events : List Event) :
    ∃ added, ∀ calls, events.foldl (step module) { r with calls } =
      { events.foldl (step module) r with calls := calls ++ added } := by
  induction events generalizing r with
  | nil => exact ⟨[], fun calls => by simp⟩
  | cons e events ih =>
    obtain ⟨first, hfirst⟩ := step_calls module r e
    obtain ⟨more, hmore⟩ := ih (r.step module e)
    refine ⟨first ++ more, fun calls => ?_⟩
    rw [List.foldl_cons, hfirst, hmore, List.append_assoc, List.foldl_cons]

/-- A call of a function is taken out of what is read. -/
theorem foldl_without_call (module : ModuleName) {r : Reading} {g : Signature}
    (enclosing : r.enclosing = some g) (name : Bytes) (arity : UInt32) (events : List Event) :
    let c : Call := ⟨.sameModule, ⟨module, g.name, g.arity⟩, ⟨module, name, arity⟩⟩
    let whole := (Event.sameModuleCall name arity :: events).foldl (step module) r
    let without := events.foldl (step module) r
    without = { whole with calls := without.calls } ∧
      ∃ before after, whole.calls = before ++ c :: after ∧ without.calls = before ++ after := by
  intro c whole without
  obtain ⟨added, hadded⟩ := foldl_calls module r events
  have first : r.step module (.sameModuleCall name arity) = { r with calls := r.calls ++ [c] } := by
    simp [step, call, enclosing, c]
  have hwhole : whole = { without with calls := r.calls ++ [c] ++ added } := by
    rw [← hadded, ← first]
    rfl
  have hwithout : without.calls = r.calls ++ added := congrArg Reading.calls (hadded r.calls)
  refine ⟨by rw [hwhole], r.calls, added, ?_, hwithout⟩
  rw [hwhole]
  simp

end Reading

/-- Definitions that are read alike but for their calls have the same record but for its calls. -/
theorem record_ofModule_calls {module : ModuleName} {d d' : Tree}
    (h : Reading.ofEvents module (Event.ofModule d') =
      { Reading.ofEvents module (Event.ofModule d) with
        calls := (Reading.ofEvents module (Event.ofModule d')).calls })
    (file : Bytes) :
    (Survey.ofModule module d').record file =
      { (Survey.ofModule module d).record file with
        calls := (Reading.ofEvents module (Event.ofModule d')).calls } := by
  have left := Survey.agrees_ofModule module d
  have right := Survey.agrees_ofModule module d'
  have functions :
      (Survey.ofModule module d').functions = (Survey.ofModule module d).functions := by
    refine right.increasing.eq_of_mem_iff left.increasing fun f => ?_
    rw [right.mem_functions, left.mem_functions, h]
  have directives : (Survey.ofModule module d').directives.reverse =
      (Survey.ofModule module d).directives.reverse := by
    rw [right.directives, left.directives, h]
  unfold Survey.record
  rw [left.module, right.module, right.calls, functions, directives]

section NestedHead

variable {d b h : Tree} {g : Signature} {q p : Place}

theorem reading_nested_head (hb : (g, q, b) ∈ functionBodies d) (hp : p ∈ headPlaces b)
    (hh : b.at? p = some h) (form : h.form = .call) (plain : h.isSetApart = false)
    (module : ModuleName) :
    let reading := Reading.ofEvents module (Event.ofModule d)
    let reading' := Reading.ofEvents module (Event.ofModule (d.modifyAt parameters (q ++ p)))
    let c : Call := ⟨.sameModule, ⟨module, g.name, g.arity⟩,
      ⟨module, h.name, UInt32.ofNat h.children.length⟩⟩
    if b.reaches Event.entersInBody p ∧ h.name ∉ definitionWords then
      reading' = { reading with calls := reading'.calls } ∧
        ∃ before after, reading.calls = before ++ c :: after ∧ reading'.calls = before ++ after
    else reading' = reading := by
  intro reading reading' c
  obtain ⟨-, before, after, entered, whole, whole'⟩ :=
    ofModule_modify_body hb (modifyAt parameters p)
  rw [← modifyAt_append] at whole'
  have body := Event.ofBody_modify_head hp hh form plain
  split
  · rename_i walked
    rw [if_pos walked] at body
    obtain ⟨inner, inner', rest, same, hinner, hinner'⟩ := body
    -- What is read up to the head is the same with and without it, and so is what is read behind
    -- it but for the calls that are there already.
    let start := (before ++ inner).foldl (Reading.step module) {}
    have inside : start.enclosing = some g := by
      have none : ∀ e ∈ inner, e.isDefinition = false := by
        intro e he
        refine Event.isDefinition_ofBody (b := b) ?_
        rw [hinner]
        exact List.mem_append_left _ he
      rw [show start = _ from List.foldl_append]
      exact (Reading.site_foldl module (entered module {}) none).1
    have hreading : reading = (.sameModuleCall h.name (UInt32.ofNat h.children.length) ::
        (rest ++ after)).foldl (Reading.step module) start := by
      rw [← List.foldl_append]
      simp [reading, Reading.ofEvents, whole, hinner]
    have hreading' : reading' = (rest ++ after).foldl (Reading.step module) start := by
      have alike := (Event.SameReading.refl before).append same
      rw [show start = _ from (alike module {}).symm, ← List.foldl_append]
      simp [reading', Reading.ofEvents, whole', hinner']
    rw [hreading, hreading']
    exact Reading.foldl_without_call module inside _ _ _
  · rename_i missed
    rw [if_neg missed] at body
    have same : Event.SameReading (Event.ofModule d)
        (Event.ofModule (d.modifyAt parameters (q ++ p))) := by
      rw [whole, whole']
      exact ((Event.SameReading.refl before).append body).append (.refl after)
    exact same module {}

/-- A head `f(a, b)` of a definition that is nested in the body of a function is exchanged for the
tuple of its parameters. If the walk comes to the head, and the head is not itself named like a
definition, then one call is missing from the record, that of `f` with two arguments by the function
around the definition, and everything else is the same. Otherwise the record is the same. -/
theorem nested_head_counted (hb : (g, q, b) ∈ functionBodies d) (hp : p ∈ headPlaces b)
    (hh : b.at? p = some h) (form : h.form = .call) (plain : h.isSetApart = false) (file : Bytes)
    (enclosing : ModuleName) :
    let r := (extract file enclosing d).value
    let r' := (extract file enclosing (d.modifyAt parameters (q ++ p))).value
    let c : Call := ⟨.sameModule, ⟨r.name, g.name, g.arity⟩,
      ⟨r.name, h.name, UInt32.ofNat h.children.length⟩⟩
    if b.reaches Event.entersInBody p ∧ h.name ∉ definitionWords then
      r' = { r with calls := r'.calls } ∧
        ∃ before after, r.calls = before ++ c :: after ∧ r'.calls = before ++ after
    else r' = r := by
  intro r r' c
  have renamed := (ofModule_modify_body hb (modifyAt parameters p)).1 enclosing
  rw [← modifyAt_append] at renamed
  have hr' : r' = (Survey.ofModule (definedName enclosing d)
      (d.modifyAt parameters (q ++ p))).record file := by
    rw [← renamed]
    rfl
  have named : r.name = definedName enclosing d := name_record file _ d
  have read := reading_nested_head hb hp hh form plain (definedName enclosing d)
  split
  · rename_i walked
    rw [if_pos walked] at read
    obtain ⟨same, before, after, whole, without⟩ := read
    have record := record_ofModule_calls same file
    rw [← hr'] at record
    have calls : r.calls = _ := (Survey.agrees_ofModule (definedName enclosing d) d).calls
    refine ⟨?_, before, after, ?_, ?_⟩
    · rw [record]
      rfl
    · rw [calls, whole]
      simp only [c, named]
    · rw [record, without]
  · rename_i missed
    rw [if_neg missed] at read
    rw [hr']
    exact record_ofModule_eq read file

end NestedHead

/-- A macro that defines a function with a guard where it is used. -/
def quotingSource : Source :=
  ⟨text "a.ex", text
    ("defmodule A do\n  defmacro __using__(_) do\n    quote do\n" ++
      "      def g(x, y) when x > 1, do: h(x)\n    end\n  end\nend\n")⟩

/-- The walk comes to the head of the definition of `g`, behind its guard. -/
theorem exists_head_quotingSource :
    ∃ root d, Grammar.parse quotingSource = .ok root ∧ d ∈ root.nodes ∧
      ∃ g q b p h, (g, q, b) ∈ functionBodies d ∧ p ∈ headPlaces b ∧ b.at? p = some h ∧
        h.form = .call ∧ h.isSetApart = false ∧ b.reaches Event.entersInBody p ∧
        h.name ∉ definitionWords ∧
        (extract quotingSource.name .unknown d).value.calls.map (·.callee.name) =
          [text "g", text "h"] ∧
        (extract quotingSource.name .unknown
          (d.modifyAt parameters (q ++ p))).value.calls.map (·.callee.name) = [text "h"] := by
  have found : (Grammar.parse quotingSource).toOption.any fun root => root.nodes.any fun d =>
      (functionBodies d).any fun f => (headPlaces f.2.2).any fun p => (f.2.2.at? p).any fun h =>
        h.form = .call ∧ h.isSetApart = false ∧ f.2.2.reaches Event.entersInBody p ∧
        h.name ∉ definitionWords ∧
        (extract quotingSource.name .unknown d).value.calls.map (·.callee.name) =
          [text "g", text "h"] ∧
        (extract quotingSource.name .unknown
          (d.modifyAt parameters (f.2.1 ++ p))).value.calls.map (·.callee.name) = [text "h"] := by
    decide +kernel
  obtain ⟨root, parsed, found⟩ := exists_ok_of_any found
  simp only [List.any_eq_true, decide_eq_true_iff, Option.any_eq_true] at found
  obtain ⟨d, mem, ⟨g, q, b⟩, hb, p, hp, h, hh, holds⟩ := found
  exact ⟨root, d, parsed, mem, g, q, b, p, h, hb, hp, hh, holds⟩

/-- The record has calls of `g` and `h`, and that of `g` goes with the head. -/
theorem quotingSource_head_counted :
    ∃ root d, Grammar.parse quotingSource = .ok root ∧ d ∈ root.nodes ∧
      ∃ q p, let r := (extract quotingSource.name .unknown d).value
        let r' := (extract quotingSource.name .unknown (d.modifyAt parameters (q ++ p))).value
        r.calls.map (·.callee.name) = [text "g", text "h"] ∧
        r' = { r with calls := r'.calls } ∧
        ∃ before c after, r.calls = before ++ c :: after ∧ r'.calls = before ++ after := by
  obtain ⟨root, d, parsed, mem, g, q, b, p, h, hb, hp, hh, form, plain, walked, other, calls, -⟩ :=
    exists_head_quotingSource
  have counted := nested_head_counted hb hp hh form plain quotingSource.name .unknown
  rw [if_pos ⟨walked, other⟩] at counted
  obtain ⟨same, before, after, whole, without⟩ := counted
  exact ⟨root, d, parsed, mem, q, p, calls, same, before, _, after, whole, without⟩

/-- So the calls are not the same without the head. -/
theorem quotingSource_head_matters :
    ∃ root d, Grammar.parse quotingSource = .ok root ∧ d ∈ root.nodes ∧
      ∃ g q b p h, (g, q, b) ∈ functionBodies d ∧ p ∈ headPlaces b ∧ b.at? p = some h ∧
        h.form = .call ∧
        (extract quotingSource.name .unknown (d.modifyAt parameters (q ++ p))).value.calls ≠
          (extract quotingSource.name .unknown d).value.calls := by
  obtain ⟨root, d, parsed, mem, g, q, b, p, h, hb, hp, hh, form, -, -, -, calls, calls'⟩ :=
    exists_head_quotingSource
  refine ⟨root, d, parsed, mem, g, q, b, p, h, hb, hp, hh, form, fun same => ?_⟩
  rw [same, calls] at calls'
  exact absurd calls' (by decide)

end CallAtlas
