/-! # Ordered lists without repetitions

`Ordered.insert` puts an element at its place in a list that increases by a comparison, and leaves a
list alone that has an equal element already. Sets whose elements are shown in order are kept so.
-/
namespace CallAtlas.Ordered
variable {α : Type}

def insert (order : α → α → Ordering) (a : α) : List α → List α
  | [] => [a]
  | b :: rest =>
    match order a b with
    | .lt => a :: b :: rest
    | .eq => b :: rest
    | .gt => b :: insert order a rest

theorem mem_insert {order : α → α → Ordering} (eq_of_order : ∀ a b, order a b = .eq → a = b)
    {a x : α} {l : List α} : x ∈ insert order a l ↔ x = a ∨ x ∈ l := by
  induction l with
  | nil => simp [insert]
  | cons b rest ih =>
    rw [insert]
    split <;> rename_i h
    · simp
    · rw [eq_of_order a b h]
      simp
    · simp only [List.mem_cons, ih]
      constructor
      · rintro (h | h | h)
        · exact .inr (.inl h)
        · exact .inl h
        · exact .inr (.inr h)
      · rintro (h | h | h)
        · exact .inr (.inl h)
        · exact .inl h
        · exact .inr (.inr h)

end CallAtlas.Ordered
