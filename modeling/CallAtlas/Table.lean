import CallAtlas.Bytes

/-! # Tables keyed by byte strings

A table is a list of key and value pairs in increasing key order. Inserting keeps the order and
replaces the value of a key that is already there, so a table shows its keys sorted and once each.
-/
namespace CallAtlas

namespace Bytes

theorem order_eq_iff {a b : Bytes} : order a b = .eq ↔ a = b := by
  induction a generalizing b with
  | nil => cases b <;> simp [order]
  | cons x xs ih =>
    cases b with
    | nil => simp [order]
    | cons y ys => simp [order, ih, Ordering.then_eq_eq, Std.LawfulEqCmp.compare_eq_iff_eq]

end Bytes

abbrev Table (α : Type) := List (Bytes × α)

namespace Table
variable {α : Type}

/-- Looks a key up by the first entry that has it. -/
def find? (key : Bytes) : Table α → Option α
  | [] => none
  | (k, v) :: rest => if k = key then some v else find? key rest

def contains (key : Bytes) (t : Table α) : Bool := (t.find? key).isSome

/-- Sets the value of a key, keeping the keys in order. -/
def insert (key : Bytes) (value : α) : Table α → Table α
  | [] => [(key, value)]
  | (k, v) :: rest =>
    match Bytes.order key k with
    | .lt => (key, value) :: (k, v) :: rest
    | .eq => (key, value) :: rest
    | .gt => (k, v) :: insert key value rest

@[simp] theorem find?_insert_self (key : Bytes) (value : α) (t : Table α) :
    (t.insert key value).find? key = some value := by
  induction t with
  | nil => simp [insert, find?]
  | cons e rest ih =>
    obtain ⟨k, v⟩ := e
    rw [insert]
    split <;> rename_i h
    · simp [find?]
    · simp [find?]
    · have : k ≠ key := by
        intro e
        rw [e, Bytes.order_self] at h
        cases h
      simp [find?, this, ih]

theorem find?_insert_of_ne {key other : Bytes} (h : other ≠ key) (value : α) (t : Table α) :
    (t.insert key value).find? other = t.find? other := by
  induction t with
  | nil => simp [insert, find?, Ne.symm h]
  | cons e rest ih =>
    obtain ⟨k, v⟩ := e
    rw [insert]
    split <;> rename_i hk
    · simp [find?, Ne.symm h]
    · rw [Bytes.order_eq_iff] at hk
      simp [find?, ← hk, Ne.symm h]
    · simp [find?, ih]

end Table
end CallAtlas
