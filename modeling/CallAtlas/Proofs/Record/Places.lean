import CallAtlas.Proofs.Record.Isolation
import Mathlib.Data.List.Basic

/-! # Places in a module

A node of a tree is found by its place, the numbers of the children on the way to it. Here are the
places of what the walk over a module goes by: the forms at module level, the functions that are
defined there and their bodies, and in the bodies the heads of nested definitions.
-/
namespace CallAtlas

/-- The numbers of the children on the way to a node. -/
abbrev Place := List Nat

section Lists

variable {α β : Type}

theorem flatMap_zipIdx (f : α → List β) (l : List α) :
    (l.zipIdx.flatMap fun c => f c.1) = l.flatMap f := by
  rw [← List.flatMap_map Prod.fst f, List.zipIdx_map_fst]

/-- The entry that is modified stands between entries that are not. -/
theorem modify_length (before : List α) (a : α) (after : List α) (f : α → α) :
    (before ++ a :: after).modify before.length f = before ++ f a :: after := by
  induction before with
  | nil => rfl
  | cons x before ih =>
    rw [List.cons_append, List.length_cons, List.modify_succ_cons, ih, List.cons_append]

theorem exists_split {l : List α} {i : Nat} {a : α} (h : l[i]? = some a) :
    ∃ before after, l = before ++ a :: after ∧ i = before.length := by
  obtain ⟨hi, rfl⟩ := List.getElem?_eq_some_iff.mp h
  refine ⟨l.take i, l.drop (i + 1), ?_, ?_⟩
  · rw [List.getElem_cons_drop, List.take_append_drop]
  · rw [List.length_take, Nat.min_eq_left (Nat.le_of_lt hi)]

end Lists

namespace Tree

/-- What holds of a tree whenever it holds of its children holds of all trees. -/
@[elab_as_elim]
theorem induction_children {motive : Tree → Prop}
    (node : ∀ t : Tree, (∀ child ∈ t.children, motive child) → motive t) : ∀ t, motive t
  | ⟨form, span, name, children, parens, interpolated⟩ =>
    node _ fun child _ => induction_children node child
termination_by t => sizeOf t
decreasing_by
  rename_i hc
  have small : sizeOf child < sizeOf children := List.sizeOf_lt_of_mem hc
  simp only [mk.sizeOf_spec]
  omega

/-! ### Nodes and their places -/

def at? : Place → Tree → Option Tree
  | [], t => some t
  | i :: p, t => t.children[i]?.bind (at? p)

/-- The tree with something done to the node at a place. -/
def modifyAt (f : Tree → Tree) : Place → Tree → Tree
  | [], t => f t
  | i :: p, t => { t with children := t.children.modify i (modifyAt f p) }

mutual

/-- The nodes of a tree with their places, each before its children. -/
def placed : Tree → List (Place × Tree)
  | ⟨form, span, name, children, parens, interpolated⟩ =>
    ([], ⟨form, span, name, children, parens, interpolated⟩) :: placedFrom 0 children

/-- The same for children, of which the first has the number `i`. -/
def placedFrom (i : Nat) : List Tree → List (Place × Tree)
  | [] => []
  | t :: ts => (placed t).map (fun n => (i :: n.1, n.2)) ++ placedFrom (i + 1) ts

end

/-- Whether a walk that goes into the nodes that satisfy `enters` comes to a place. -/
def reaches (enters : Tree → Bool) : Place → Tree → Bool
  | [], _ => true
  | i :: p, t => enters t && t.children[i]?.any (reaches enters p)

/-- Whether a place lies inside a node that satisfies `P`, the node at the place itself apart. -/
def within (P : Tree → Bool) : Place → Tree → Bool
  | [], _ => false
  | i :: p, t => P t || t.children[i]?.any (within P p)

theorem placedFrom_eq (i : Nat) (ts : List Tree) :
    placedFrom i ts =
      (ts.zipIdx i).flatMap fun c => c.1.placed.map fun n => (c.2 :: n.1, n.2) := by
  induction ts generalizing i with
  | nil => rfl
  | cons t ts ih => rw [placedFrom, ih, List.zipIdx_cons, List.flatMap_cons]

theorem placed_eq (t : Tree) :
    t.placed =
      ([], t) :: t.children.zipIdx.flatMap fun c => c.1.placed.map fun n => (c.2 :: n.1, n.2) := by
  cases t
  rw [placed, placedFrom_eq]

theorem mem_placed {t : Tree} {p : Place} {n : Tree} : (p, n) ∈ t.placed ↔ t.at? p = some n := by
  induction p generalizing t with
  | nil =>
    rw [placed_eq, at?]
    simp [eq_comm]
  | cons i p ih =>
    rw [placed_eq, at?]
    simp only [List.mem_cons, Prod.mk.injEq, reduceCtorEq, false_and, false_or, List.mem_flatMap,
      List.mem_map, Option.bind_eq_some_iff]
    constructor
    · rintro ⟨⟨c, j⟩, hc, ⟨q, m⟩, hm, same, rfl⟩
      obtain ⟨rfl, rfl⟩ := List.cons.inj same
      exact ⟨c, List.mem_zipIdx_iff_getElem?.mp hc, ih.mp hm⟩
    · rintro ⟨c, hc, hm⟩
      exact ⟨(c, i), List.mem_zipIdx_iff_getElem?.mpr hc, (p, n), ih.mpr hm, rfl, rfl⟩

/-- A walk meets the nodes at the places that it comes to, in order. -/
theorem met_eq_filter (enters : Tree → Bool) (t : Tree) :
    t.met enters = (t.placed.filter fun n => t.reaches enters n.1).map Prod.snd := by
  induction t using induction_children with
  | node t ih =>
    -- The places in a child are those of the child behind its number, all of them reached or none.
    have inside : ∀ c ∈ t.children.zipIdx,
        (((c.1.placed.map fun n => (c.2 :: n.1, n.2)).filter fun n => t.reaches enters n.1).map
          Prod.snd) = if enters t then c.1.met enters else [] := by
      rintro ⟨c, i⟩ hc
      have child := List.mem_zipIdx_iff_getElem?.mp hc
      rw [List.filter_map, List.map_map, ih c (List.mem_of_getElem? child)]
      cases entered : enters t <;> simp [Function.comp_def, reaches, child, entered]
    rw [met_eq, placed_eq, List.filter_cons_of_pos rfl, List.map_cons, List.filter_flatMap,
      List.map_flatMap, List.flatMap_congr inside]
    split
    · rw [flatMap_zipIdx]
    · simp

/-- A walk comes to the nodes that are inside no node that it does not go into. -/
theorem reaches_eq (enters : Tree → Bool) {t n : Tree} {p : Place} (h : t.at? p = some n) :
    t.reaches enters p = !t.within (fun m => !enters m) p := by
  induction p generalizing t with
  | nil => rfl
  | cons i p ih =>
    obtain ⟨c, hc, hn⟩ := Option.bind_eq_some_iff.mp h
    simp [reaches, within, hc, ih hn]

theorem at_append (p q : Place) (t : Tree) : t.at? (p ++ q) = (t.at? p).bind (at? q) := by
  induction p generalizing t with
  | nil => rfl
  | cons i p ih =>
    rw [List.cons_append, at?, at?, Option.bind_assoc]
    simp only [funext ih]

theorem reaches_append (enters : Tree → Bool) {t n : Tree} {p : Place} (h : t.at? p = some n)
    (q : Place) : t.reaches enters (p ++ q) = (t.reaches enters p && n.reaches enters q) := by
  induction p generalizing t with
  | nil =>
    cases h
    rfl
  | cons i p ih =>
    obtain ⟨c, hc, hn⟩ := Option.bind_eq_some_iff.mp h
    simp [reaches, hc, ih hn, Bool.and_assoc]

theorem modifyAt_append (f : Tree → Tree) (p q : Place) (t : Tree) :
    t.modifyAt f (p ++ q) = t.modifyAt (modifyAt f q) p := by
  induction p generalizing t with
  | nil => rfl
  | cons i p ih =>
    rw [List.cons_append, modifyAt, modifyAt]
    simp only [funext ih]

end Tree

open CallAtlas.Tree

/-! ### Bodies -/

/-- The body in a section of a `do` block or in a pair at the end of arguments. -/
def sectionBody? (pair : Tree) : Option Tree :=
  match pair.form, pair.children with
  | .pair, [key, body] => if key.form = .atom then some body else none
  | _, _ => none

/-- The bodies of a definition with their places. -/
def bodyPlaces (t : Tree) : List (Place × Tree) :=
  match t.children.getLast? with
  | none => []
  | some last =>
    if last.form = .doBlock || last.form = .list then
      last.children.zipIdx.filterMap fun c =>
        (sectionBody? c.1).map fun body => ([t.children.length - 1, c.2, 1], body)
    else []

theorem map_snd_bodyPlaces (t : Tree) : (bodyPlaces t).map Prod.snd = bodies t := by
  unfold bodyPlaces bodies
  cases t.children.getLast? with
  | none => rfl
  | some last =>
    dsimp only
    split
    · rw [List.map_filterMap]
      calc last.children.zipIdx.filterMap (fun c => _)
        _ = last.children.zipIdx.filterMap (sectionBody? ∘ Prod.fst) := by
          congr 1
          funext c
          cases h : sectionBody? c.1 <;> simp [h]
        _ = (last.children.zipIdx.map Prod.fst).filterMap sectionBody? := List.filterMap_map.symm
        _ = last.children.filterMap sectionBody? := by rw [List.zipIdx_map_fst]
    · rfl

/-- Where a body stands in a definition. -/
theorem mem_bodyPlaces {t b : Tree} {q : Place} (h : (q, b) ∈ bodyPlaces t) :
    ∃ front last k pair, t.children = front ++ [last] ∧ q = [front.length, k, 1] ∧
      (last.form = .doBlock || last.form = .list) ∧ last.children[k]? = some pair ∧
      sectionBody? pair = some b := by
  unfold bodyPlaces at h
  split at h
  · cases h
  · rename_i last hlast
    split at h
    · rename_i holds
      obtain ⟨⟨pair, k⟩, hpair, hb⟩ := List.mem_filterMap.mp h
      obtain ⟨body, hbody, same⟩ := Option.map_eq_some_iff.mp hb
      obtain ⟨rfl, rfl⟩ := Prod.mk.inj same
      obtain ⟨front, hfront⟩ := List.getLast?_eq_some_iff.mp hlast
      refine ⟨front, last, k, pair, hfront, ?_, holds, List.mem_zipIdx_iff_getElem?.mp hpair, hbody⟩
      simp [hfront]
    · cases h

theorem sectionBody_modify {pair b : Tree} (h : sectionBody? pair = some b) (f : Tree → Tree) :
    sectionBody? (pair.modifyAt f [1]) = some (f b) := by
  unfold sectionBody? at h
  split at h
  · rename_i key body form children
    split at h
    · rename_i atom
      cases h
      simp [sectionBody?, modifyAt, form, children, atom]
    · cases h
  · cases h

/-- What is done to a body is done to one of the bodies of the definition and to none of its
arguments but the last. -/
theorem modify_body {t b : Tree} {q : Place} (h : (q, b) ∈ bodyPlaces t) (f : Tree → Tree) :
    (∃ before after, bodies t = before ++ b :: after ∧
      bodies (t.modifyAt f q) = before ++ f b :: after) ∧
    ∃ front last last', t.children = front ++ [last] ∧
      (t.modifyAt f q).children = front ++ [last'] ∧ last'.form = last.form ∧
      (last.form = .doBlock || last.form = .list) := by
  obtain ⟨front, last, k, pair, children, rfl, holds, hpair, hb⟩ := mem_bodyPlaces h
  obtain ⟨before, after, sections, rfl⟩ := exists_split hpair
  let last' : Tree := { last with children := before ++ pair.modifyAt f [1] :: after }
  have children' : (t.modifyAt f [front.length, before.length, 1]).children = front ++ [last'] := by
    rw [modifyAt, children, modify_length, modifyAt, sections, modify_length]
  refine ⟨?_, front, last, last', children, children', rfl, holds⟩
  have all (last : Tree) (holds : last.form = .doBlock || last.form = .list) (t : Tree)
      (children : t.children = front ++ [last]) :
      bodies t = last.children.filterMap sectionBody? := by
    unfold bodies
    rw [children, List.getLast?_concat]
    exact if_pos holds
  refine ⟨before.filterMap sectionBody?, after.filterMap sectionBody?, ?_, ?_⟩
  · rw [all last holds t children, sections, List.filterMap_append, List.filterMap_cons_some hb]
  · rw [all last' holds _ children', List.filterMap_append,
      List.filterMap_cons_some (sectionBody_modify hb f)]

/-! ### Forms at module level and function bodies -/

/-- The forms at module level, with their places. -/
def moduleForms (d : Tree) : List (Place × Tree) :=
  (bodyPlaces d).flatMap fun s =>
    (s.2.placed.filter fun n => s.2.reaches (·.form = .block) n.1).map fun n => (s.1 ++ n.1, n.2)

theorem mem_moduleForms {d t : Tree} {q : Place} (h : (q, t) ∈ moduleForms d) :
    ∃ q₁ s q₂, (q₁, s) ∈ bodyPlaces d ∧ s.at? q₂ = some t ∧ s.reaches (·.form = .block) q₂ ∧
      q = q₁ ++ q₂ := by
  obtain ⟨⟨q₁, s⟩, hs, ht⟩ := List.mem_flatMap.mp h
  obtain ⟨⟨q₂, t⟩, hn, same⟩ := List.mem_map.mp ht
  obtain ⟨rfl, rfl⟩ := Prod.mk.inj same
  obtain ⟨placed, reached⟩ := List.mem_filter.mp hn
  exact ⟨q₁, s, q₂, hs, mem_placed.mp placed, reached, rfl⟩

def definesFunction (t : Tree) : Bool := t.form == .call && definitionWords.contains t.name

/-- The function that a form at module level defines, unless its name is computed. -/
def definedFunction? (t : Tree) : Option Signature :=
  if definesFunction t then t.children.head?.bind fun head => definedBy? (unguarded head) else none

/-- The functions that a module defines, each with the place of one of its bodies and that body. -/
def functionBodies (d : Tree) : List (Signature × Place × Tree) :=
  (moduleForms d).flatMap fun n =>
    (definedFunction? n.2).toList.flatMap fun f =>
      (bodyPlaces n.2).map fun b => (f, n.1 ++ b.1, b.2)

namespace Event

/-- The events of a module are those of its forms. -/
theorem ofModule_eq (d : Tree) :
    ofModule d = (moduleForms d).flatMap fun n => atModuleLevel n.2 := by
  have level (s : Place × Tree) : ofModuleLevel s.2 =
      ((s.2.placed.filter fun n => s.2.reaches (·.form = .block) n.1).map
        fun n => (s.1 ++ n.1, n.2)).flatMap fun n => atModuleLevel n.2 := by
    rw [ofModuleLevel, met_eq_filter, List.flatMap_map, List.flatMap_map]
  rw [ofModule, ← map_snd_bodyPlaces, List.flatMap_map, moduleForms, List.flatMap_assoc]
  simp only [level]

/-- What is done to one form at module level is done to the events of that form only. -/
theorem ofModuleLevel_modify {s t : Tree} {p : Place} (f : Tree → Tree)
    (reached : s.reaches (·.form = .block) p) (ht : s.at? p = some t) (plain : t.form ≠ .block)
    (plain' : (f t).form ≠ .block) :
    ∃ before after, ofModuleLevel s = before ++ atModuleLevel t ++ after ∧
      ofModuleLevel (s.modifyAt f p) = before ++ atModuleLevel (f t) ++ after := by
  induction p generalizing s with
  | nil =>
    obtain rfl : s = t := Option.some.inj ht
    refine ⟨[], [], ?_, ?_⟩
    · rw [ofModuleLevel_eq, if_neg plain]
      simp
    · rw [modifyAt, ofModuleLevel_eq, if_neg plain']
      simp
  | cons i p ih =>
    obtain ⟨c, hc, found⟩ := Option.bind_eq_some_iff.mp ht
    obtain ⟨block, inside⟩ : s.form = .block ∧ c.reaches (·.form = .block) p := by
      simpa [reaches, hc] using reached
    obtain ⟨left, right, children, rfl⟩ := exists_split hc
    obtain ⟨before, after, whole, whole'⟩ := ih inside found
    have level {s : Tree} (block : s.form = .block) :
        ofModuleLevel s = s.children.flatMap ofModuleLevel := by
      rw [ofModuleLevel_eq, if_pos block, atModuleLevel, block]
      rfl
    refine ⟨left.flatMap ofModuleLevel ++ before, after ++ right.flatMap ofModuleLevel, ?_, ?_⟩
    · rw [level block, children, List.flatMap_append, List.flatMap_cons, whole]
      simp
    · rw [level (by exact block), modifyAt, children, modify_length, List.flatMap_append,
        List.flatMap_cons, whole']
      simp

theorem ofModule_modify {d t : Tree} {q : Place} (f : Tree → Tree) (h : (q, t) ∈ moduleForms d)
    (plain : t.form ≠ .block) (plain' : (f t).form ≠ .block) :
    ∃ before after, ofModule d = before ++ atModuleLevel t ++ after ∧
      ofModule (d.modifyAt f q) = before ++ atModuleLevel (f t) ++ after := by
  obtain ⟨q₁, s, q₂, hs, ht, reached, rfl⟩ := mem_moduleForms h
  obtain ⟨before, after, whole, whole'⟩ := ofModuleLevel_modify f reached ht plain plain'
  obtain ⟨left, right, all, all'⟩ := (modify_body hs (modifyAt f q₂)).1
  refine ⟨left.flatMap ofModuleLevel ++ before, after ++ right.flatMap ofModuleLevel, ?_, ?_⟩
  · rw [ofModule, all, List.flatMap_append, List.flatMap_cons, whole]
    simp
  · rw [modifyAt_append, ofModule, all', List.flatMap_append, List.flatMap_cons, whole']
    simp

end Event

/-! ### Heads of nested definitions -/

/-- The place of a head behind its guards. -/
def unguardedPlace : Tree → Place
  | ⟨.binaryOp, _, name, [head, _], _, _⟩ =>
    if name = text "when" then 0 :: unguardedPlace head else []
  | _ => []

/-- A head is either guarded or bare. -/
@[elab_as_elim]
theorem head_induction {motive : Tree → Prop}
    (guarded : ∀ span head guard parens interpolated, motive head →
      motive ⟨.binaryOp, span, text "when", [head, guard], parens, interpolated⟩)
    (bare : ∀ t, unguarded t = t → unguardedPlace t = [] → motive t) (head : Tree) :
    motive head := by
  fun_induction unguarded head with
  | case1 span head guard parens interpolated ih => exact guarded span head guard _ _ ih
  | case2 span name head guard parens interpolated other =>
    refine bare _ ?_ ?_
    · rw [unguarded, if_neg other]
    · rw [unguardedPlace, if_neg other]
  | case3 t other =>
    obtain ⟨form, span, name, children, parens, interpolated⟩ := t
    cases form with
    | binaryOp =>
      obtain _ | ⟨head, _ | ⟨guard, _ | ⟨third, more⟩⟩⟩ := children
      · exact bare _ rfl rfl
      · exact bare _ rfl rfl
      · exact absurd rfl (other _ _ _ _ _ _)
      · exact bare _ rfl rfl
    | _ => exact bare _ rfl rfl

theorem at_unguardedPlace (head : Tree) :
    head.at? (unguardedPlace head) = some (unguarded head) := by
  induction head using head_induction with
  | guarded span head guard parens interpolated ih =>
    simpa [unguardedPlace, unguarded, at?] using ih
  | bare t same place => rw [place, same, at?]

/-- The places of the heads of all definitions that stand in a part of a function's body. -/
def headPlaces (b : Tree) : List Place :=
  (b.placed.filter fun n => definesFunction n.2).flatMap fun n =>
    n.2.children.head?.toList.map fun head => n.1 ++ 0 :: unguardedPlace head

theorem mem_headPlaces {b : Tree} {p : Place} (h : p ∈ headPlaces b) :
    ∃ q n head rest, b.at? q = some n ∧ definesFunction n ∧ n.children = head :: rest ∧
      p = q ++ 0 :: unguardedPlace head := by
  obtain ⟨⟨q, n⟩, hn, hp⟩ := List.mem_flatMap.mp h
  obtain ⟨placed, defines⟩ := List.mem_filter.mp hn
  obtain ⟨head, hh, rfl⟩ := List.mem_map.mp hp
  obtain ⟨rest, children⟩ := List.head?_eq_some_iff.mp (Option.mem_toList.mp hh)
  exact ⟨q, n, head, rest, mem_placed.mp placed, defines, children, rfl⟩

end CallAtlas
