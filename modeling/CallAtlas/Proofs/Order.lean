import CallAtlas.Name
import CallAtlas.Ordered
import CallAtlas.Table

/-! # The orders of names

The comparisons of byte strings, module names, signatures and functions are total orders in which
only equal values compare as equal. Each is a lexicographic combination of comparisons that are
known to be orders, seen through the parts of the value. The unknown name comes before all others,
and a name before those that continue it.

An ordered list therefore increases strictly, however its elements were put in.
-/
namespace CallAtlas

open Std

/-- A comparison seen through a function keeps its laws. -/
theorem transCmp_pullback {α β : Type} (cmp : β → β → Ordering) [TransCmp cmp] (f : α → β) :
    TransCmp fun a b => cmp (f a) (f b) where
  eq_swap {_ _} := OrientedCmp.eq_swap
  isLE_trans {_ _ _} hab hbc := TransCmp.isLE_trans hab hbc

/-- Comparing in two steps tells apart what one of the steps does. -/
theorem eq_and_eq_of_then {α β : Type} {cmp : α → α → Ordering} {cmp' : β → β → Ordering}
    [LawfulEqCmp cmp] [LawfulEqCmp cmp'] {a b : α} {x y : β}
    (h : (cmp a b).then (cmp' x y) = .eq) : a = b ∧ x = y := by
  obtain ⟨first, second⟩ := Ordering.then_eq_eq.mp h
  exact ⟨LawfulEqCmp.eq_of_compare first, LawfulEqCmp.eq_of_compare second⟩

/-- What is continued comes before what continues it. -/
theorem compareLex_append {α : Type} {cmp : α → α → Ordering} [ReflCmp cmp] {more : List α}
    (nonempty : more ≠ []) (l : List α) : List.compareLex cmp l (l ++ more) = .lt := by
  induction l with
  | nil =>
    cases more with
    | nil => exact absurd rfl nonempty
    | cons next rest => rfl
  | cons a l ih =>
    have self : cmp a a = .eq := ReflCmp.compare_self
    rw [List.cons_append, List.compareLex_cons_cons, self, ih]
    rfl

/-! ### Byte strings -/

namespace Bytes

theorem order_eq_compareLex : order = List.compareLex compare := by
  funext a b
  induction a generalizing b with
  | nil => cases b <;> rfl
  | cons x xs ih =>
    cases b with
    | nil => rfl
    | cons y ys => rw [order, ih, List.compareLex_cons_cons]

instance : TransCmp order := by
  rw [order_eq_compareLex]
  infer_instance

instance : LawfulEqCmp order where
  compare_self := order_self _
  eq_of_compare h := order_eq_iff.mp h

end Bytes

/-! ### Names -/

namespace ModuleName

/-- The order of known names. -/
def knownOrder : ModuleName → ModuleName → Ordering :=
  compareLex (fun a b => List.compareLex Bytes.order a.segments b.segments)
    (fun a b => compare a.isErlang b.isErlang)

instance : TransCmp knownOrder :=
  have := transCmp_pullback (List.compareLex Bytes.order) segments
  have := transCmp_pullback (compare : Bool → Bool → Ordering) isErlang
  inferInstanceAs (TransCmp (compareLex _ _))

/-- The unknown name stands below all others, which are compared by `knownOrder`. -/
theorem order_eq (a b : ModuleName) :
    a.order b = (compare b.isUnknown a.isUnknown).then (knownOrder a b) := by
  cases a <;> cases b <;> rfl

instance : TransCmp order :=
  have := transCmp_pullback (fun a b : Bool => compare b a) isUnknown
  have : order = compareLex (fun a b => compare b.isUnknown a.isUnknown) knownOrder :=
    funext fun a => funext (order_eq a)
  this ▸ inferInstance

theorem eq_of_order {a b : ModuleName} (h : a.order b = .eq) : a = b := by
  rw [order_eq, Ordering.then_eq_eq, knownOrder, compareLex_eq_eq] at h
  obtain ⟨hu, hs, he⟩ := h
  have hu := LawfulEqCmp.eq_of_compare hu
  have hs : a.segments = b.segments := LawfulEqCmp.eq_of_compare hs
  have he := LawfulEqCmp.eq_of_compare he
  cases a <;> cases b <;> simp_all [isUnknown, isErlang, segments]

instance : LawfulEqCmp order where
  compare_self := ReflCmp.compare_self
  eq_of_compare := eq_of_order

theorem unknown_order {n : ModuleName} (known : n ≠ .unknown) : unknown.order n = .lt := by
  cases n with
  | unknown => exact absurd rfl known
  | elixir head more => rfl
  | erlang atom => rfl

/-- A name comes before every name whose segments continue its own. Atoms are no exception, because
the segments alone tell the two apart. -/
theorem order_of_segments {n longer : ModuleName} {more : List Bytes} (nonempty : more ≠ [])
    (h : longer.segments = n.segments ++ more) : n.order longer = .lt := by
  have known : longer ≠ .unknown := by
    rintro rfl
    exact nonempty (List.append_eq_nil_iff.mp h.symm).2
  by_cases unnamed : n = .unknown
  · rw [unnamed, unknown_order known]
  have named {m : ModuleName} (hm : m ≠ .unknown) : m.isUnknown = false := by
    cases m <;> trivial
  rw [order_eq, named unnamed, named known, knownOrder, compareLex, h,
    compareLex_append nonempty]
  rfl

/-- A name that further segments cannot follow becomes the unknown one. Every other name comes before
the one that they make of it. -/
theorem order_concat {n : ModuleName} {more : List Bytes} (nonempty : more ≠ [])
    (known : n.concat more ≠ .unknown) : n.order (n.concat more) = .lt := by
  obtain ⟨next, rest, rfl⟩ := List.exists_cons_of_ne_nil nonempty
  cases n with
  | unknown => exact absurd rfl known
  | elixir head tail => exact order_of_segments nonempty rfl
  | erlang atom => exact absurd rfl known

end ModuleName

namespace Signature

instance : TransCmp order :=
  have := transCmp_pullback Bytes.order name
  have := transCmp_pullback (compare : UInt32 → UInt32 → Ordering) arity
  inferInstanceAs (TransCmp (compareLex _ _))

theorem eq_of_order {a b : Signature} (h : a.order b = .eq) : a = b := by
  have parts : a.name = b.name ∧ a.arity = b.arity := eq_and_eq_of_then h
  cases a
  cases b
  simp_all

instance : LawfulEqCmp order where
  compare_self := ReflCmp.compare_self
  eq_of_compare := eq_of_order

end Signature

namespace FunctionName

instance : TransCmp order :=
  have := transCmp_pullback ModuleName.order module
  have := transCmp_pullback Signature.order signature
  inferInstanceAs (TransCmp (compareLex _ _))

theorem eq_of_order {a b : FunctionName} (h : a.order b = .eq) : a = b := by
  have parts : a.module = b.module ∧ a.signature = b.signature := eq_and_eq_of_then h
  cases a
  cases b
  simp_all [signature]

instance : LawfulEqCmp order where
  compare_self := ReflCmp.compare_self
  eq_of_compare := eq_of_order

end FunctionName

/-! ### Ordered lists -/

namespace Ordered

variable {α : Type} {order : α → α → Ordering}

/-- Of two values one comes before the other or they are equal, and just one of these holds. What
comes before a value also comes before all that follow it. -/
structure StrictTotal (order : α → α → Ordering) : Prop where
  exactlyOne : ∀ a b,
    order a b = .lt ∧ a ≠ b ∧ order b a ≠ .lt ∨
    order a b ≠ .lt ∧ a = b ∧ order b a ≠ .lt ∨
    order a b ≠ .lt ∧ a ≠ b ∧ order b a = .lt
  trans : ∀ a b c, order a b = .lt → order b c = .lt → order a c = .lt

theorem strictTotal (order : α → α → Ordering) [TransCmp order] [LawfulEqCmp order] :
    StrictTotal order where
  exactlyOne a b := by
    have same : order a b = .eq ↔ a = b := LawfulEqCmp.compare_eq_iff_eq
    have back : order b a = (order a b).swap := OrientedCmp.eq_swap
    rw [ne_eq a, ← same, back]
    cases order a b with
    | lt => exact .inl (by decide)
    | eq => exact .inr (.inl (by decide))
    | gt => exact .inr (.inr (by decide))
  trans _ _ _ := TransCmp.lt_trans

/-- A list in which every element comes before all that follow it. -/
def Increasing (order : α → α → Ordering) (l : List α) : Prop :=
  l.Pairwise fun a b => order a b = .lt

theorem Increasing.insert [TransCmp order] [LawfulEqCmp order] {l : List α}
    (h : Increasing order l) (a : α) : Increasing order (insert order a l) := by
  induction l with
  | nil => exact List.pairwise_singleton _ _
  | cons b rest ih =>
    obtain ⟨hb, hrest⟩ := List.pairwise_cons.mp h
    rw [Ordered.insert]
    split <;> rename_i hab
    · refine List.pairwise_cons.mpr ⟨?_, h⟩
      intro x hx
      rcases List.mem_cons.mp hx with rfl | hx
      · exact hab
      · exact TransCmp.lt_trans hab (hb x hx)
    · exact h
    · refine List.pairwise_cons.mpr ⟨?_, ih hrest⟩
      intro x hx
      rcases (mem_insert (fun _ _ => LawfulEqCmp.eq_of_compare)).mp hx with rfl | hx
      · exact OrientedCmp.lt_of_gt hab
      · exact hb x hx

/-- Increasing lists with the same elements are the same. -/
theorem Increasing.eq_of_mem_iff [OrientedCmp order] {l m : List α} (hl : Increasing order l)
    (hm : Increasing order m) (h : ∀ a, a ∈ l ↔ a ∈ m) : l = m := by
  have distinct {a b : α} (hab : order a b = .lt) : a ≠ b := by
    rintro rfl
    have self : order a a = .eq := ReflCmp.compare_self
    rw [self] at hab
    cases hab
  have perm : l.Perm m := (List.perm_ext_iff_of_nodup (hl.imp distinct) (hm.imp distinct)).mpr h
  refine perm.eq_of_pairwise ?_ hl hm
  intro a b _ _ hab hba
  rw [OrientedCmp.gt_of_lt hab] at hba
  cases hba

end Ordered
end CallAtlas
