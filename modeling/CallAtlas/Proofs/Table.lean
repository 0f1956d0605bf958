import CallAtlas.Proofs.Order

/-! # Tables filled one entry at a time

Filling a table keeps its keys in increasing order and puts nothing in but the entries that it is
filled with. Entries whose keys increase already are taken as they are, and of several entries with
one key the last stays.
-/
namespace CallAtlas.Table

variable {α : Type}

theorem keys_insert (key : Bytes) (value : α) (t : Table α) :
    (t.insert key value).map Prod.fst = Ordered.insert Bytes.order key (t.map Prod.fst) := by
  induction t with
  | nil => rfl
  | cons e t ih =>
    obtain ⟨k, v⟩ := e
    rw [insert, List.map_cons, Ordered.insert]
    split <;> rename_i h
    · simp [h]
    · obtain rfl := Bytes.order_eq_iff.mp h
      simp [h]
    · simp [h, ih]

theorem mem_insert {key : Bytes} {value : α} {t : Table α} {e : Bytes × α}
    (h : e ∈ t.insert key value) : e = (key, value) ∨ e ∈ t := by
  induction t with
  | nil => exact .inl (List.mem_singleton.mp h)
  | cons e' t ih =>
    obtain ⟨k, v⟩ := e'
    rw [insert] at h
    split at h
    · exact List.mem_cons.mp h
    · rcases List.mem_cons.mp h with h | h
      · exact .inl h
      · exact .inr (List.mem_cons_of_mem _ h)
    · rcases List.mem_cons.mp h with h | h
      · exact .inr (h ▸ List.mem_cons_self)
      · exact (ih h).imp_right (List.mem_cons_of_mem _)

theorem mem_of_find? {key : Bytes} {value : α} {t : Table α} (h : t.find? key = some value) :
    (key, value) ∈ t := by
  induction t with
  | nil => cases h
  | cons e t ih =>
    obtain ⟨k, v⟩ := e
    rw [find?] at h
    split at h
    · rename_i hk
      cases h
      exact hk ▸ List.mem_cons_self
    · exact List.mem_cons_of_mem _ (ih h)

/-- A key behind all others goes to the end. -/
theorem insert_last {key : Bytes} (value : α) {t : Table α}
    (h : ∀ k ∈ t.map Prod.fst, Bytes.order k key = .lt) :
    t.insert key value = t ++ [(key, value)] := by
  induction t with
  | nil => rfl
  | cons e t ih =>
    obtain ⟨k, v⟩ := e
    obtain ⟨first, more⟩ := List.forall_mem_cons.mp h
    rw [insert, Std.OrientedCmp.gt_of_lt first, ih more]
    rfl

/-- The table with further entries put in, in turn. -/
def filled (t : Table α) (entries : List (Bytes × α)) : Table α :=
  entries.foldl (fun t e => Table.insert e.1 e.2 t) t

theorem increasing_filled {t : Table α} (h : Ordered.Increasing Bytes.order (t.map Prod.fst))
    (entries : List (Bytes × α)) :
    Ordered.Increasing Bytes.order ((t.filled entries).map Prod.fst) := by
  induction entries generalizing t with
  | nil => exact h
  | cons e entries ih =>
    apply ih
    rw [keys_insert]
    exact h.insert e.1

theorem mem_filled {t : Table α} {entries : List (Bytes × α)} {e : Bytes × α}
    (h : e ∈ t.filled entries) : e ∈ t ∨ e ∈ entries := by
  induction entries generalizing t with
  | nil => exact .inl h
  | cons e' entries ih =>
    rcases ih h with h | h
    · rcases mem_insert h with rfl | h
      · exact .inr List.mem_cons_self
      · exact .inl h
    · exact .inr (List.mem_cons_of_mem _ h)

theorem filled_of_increasing {t : Table α} {entries : List (Bytes × α)}
    (h : Ordered.Increasing Bytes.order ((t ++ entries).map Prod.fst)) :
    t.filled entries = t ++ entries := by
  induction entries generalizing t with
  | nil => exact (List.append_nil t).symm
  | cons e entries ih =>
    have last : ∀ k ∈ t.map Prod.fst, Bytes.order k e.1 = .lt := by
      rw [List.map_append] at h
      intro k hk
      exact (List.pairwise_append.mp h).2.2 k hk e.1 List.mem_cons_self
    have step : t.filled (e :: entries) = (t ++ [e]).filled entries := by
      rw [← insert_last e.2 last]
      rfl
    rw [step, ih (by simpa using h)]
    simp

/-- What a filled table has under a key: the last entry of that key that was put in, or else what
the table had. -/
theorem find?_filled (t : Table α) (entries : List (Bytes × α)) (key : Bytes) :
    (t.filled entries).find? key = (entries.reverse.lookup key).or (t.find? key) := by
  induction entries generalizing t with
  | nil => rfl
  | cons e entries ih =>
    obtain ⟨k, v⟩ := e
    have step : t.filled ((k, v) :: entries) = (t.insert k v).filled entries := rfl
    have first : (t.insert k v).find? key = ([(k, v)].lookup key).or (t.find? key) := by
      by_cases h : key = k
      · subst h
        simp
      · have other : (key == k) = false := beq_false_of_ne h
        simp [List.lookup_cons, find?_insert_of_ne h, other]
    rw [step, ih, first, List.reverse_cons, List.lookup_append, Option.or_assoc]

theorem mem_iff_find? {t : Table α} (h : Ordered.Increasing Bytes.order (t.map Prod.fst))
    {key : Bytes} {value : α} : (key, value) ∈ t ↔ t.find? key = some value := by
  refine ⟨?_, mem_of_find?⟩
  intro hmem
  induction t with
  | nil => cases hmem
  | cons e t ih =>
    obtain ⟨k, v⟩ := e
    obtain ⟨first, more⟩ := List.pairwise_cons.mp h
    rcases List.mem_cons.mp hmem with hmem | hmem
    · cases hmem
      simp [find?]
    · have behind : Bytes.order k key = .lt := first key (List.mem_map_of_mem hmem)
      have other : k ≠ key := by
        rintro rfl
        rw [Bytes.order_self] at behind
        cases behind
      rw [find?, if_neg other, ih more hmem]

/-- Tables with the same entries are the same. -/
theorem eq_of_mem_iff {t u : Table α} (ht : Ordered.Increasing Bytes.order (t.map Prod.fst))
    (hu : Ordered.Increasing Bytes.order (u.map Prod.fst)) (h : ∀ e, e ∈ t ↔ e ∈ u) : t = u := by
  rw [Ordered.Increasing, List.pairwise_map] at ht hu
  have := transCmp_pullback Bytes.order (Prod.fst : Bytes × α → Bytes)
  exact Ordered.Increasing.eq_of_mem_iff ht hu h

end CallAtlas.Table
