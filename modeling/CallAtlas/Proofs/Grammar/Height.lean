import CallAtlas.Proofs.Grammar.Shape

/-! # How high a tree is

A form such as a binary operator or a call behind a dot is put behind a term that has been read
already, which becomes its first child. Forms that are put one behind the other in this way make a
chain, and every one of them makes the tree one level higher. The height of a tree is bounded by the
length of its longest chain and by its nesting, which is its height if the steps along chains are
not counted.
-/
namespace CallAtlas

/-- The forms that are put behind a term, which is their first child. -/
def Form.isBehind : Form → Bool
  | .binaryOp | .pair | .remoteCall | .anonCall | .fieldAccess | .access | .multiAlias | .aliases =>
    true
  | _ => false

namespace Tree

mutual

/-- The number of nodes on the longest way from the root to a leaf, which is how deep a walk over
the tree goes. -/
def height : Tree → Nat
  | ⟨_, _, _, children, _, _⟩ => heightOf children + 1

def heightOf : List Tree → Nat
  | [] => 0
  | t :: ts => max (height t) (heightOf ts)

end

/-- The number of forms that are put one behind the other, from the root on. -/
def chain : Tree → Nat
  | ⟨form, _, _, first :: _, _, _⟩ => if form.isBehind then chain first + 1 else 0
  | _ => 0

mutual

/-- The height of a tree without the steps to the terms that forms are put behind. -/
def nesting : Tree → Nat
  | ⟨form, _, _, children, _, _⟩ => nestingOver form.isBehind children

/-- The nesting of a node over its children; `behind` tells whether it is put behind the first. -/
def nestingOver (behind : Bool) : List Tree → Nat
  | [] => 1
  | t :: ts => max (if behind then nesting t else nesting t + 1) (nestingOver false ts)

end

/-! ### Height, nesting and chains -/

theorem height_eq (t : Tree) : t.height = heightOf t.children + 1 := by
  cases t
  rw [height]

theorem nesting_eq (t : Tree) : t.nesting = nestingOver t.form.isBehind t.children := by
  cases t
  rw [nesting]

mutual

/-- No node is higher than the tree. -/
theorem height_le_of_mem_nodes {node : Tree} : (t : Tree) → node ∈ t.nodes →
    node.height ≤ t.height
  | ⟨_, _, _, children, _, _⟩, h => by
    rw [nodes] at h
    rcases List.mem_cons.mp h with rfl | h
    · exact Nat.le_refl _
    · rw [height]
      exact Nat.le_succ_of_le (height_le_of_mem_nodesOf children h)

theorem height_le_of_mem_nodesOf {node : Tree} : (ts : List Tree) → node ∈ nodesOf ts →
    node.height ≤ heightOf ts
  | [], h => by cases h
  | t :: ts, h => by
    rw [heightOf]
    rcases List.mem_append.mp h with h | h
    · exact Nat.le_trans (height_le_of_mem_nodes t h) (Nat.le_max_left _ _)
    · exact Nat.le_trans (height_le_of_mem_nodesOf ts h) (Nat.le_max_right _ _)

end

/-- A chain is a way down the tree. -/
theorem chain_lt_height (t : Tree) : t.chain < t.height := by
  fun_induction chain t with
  | case1 form _ _ first more _ _ _ ih =>
    have inside := Nat.le_max_left first.height (heightOf more)
    rw [height, heightOf]
    omega
  | case2 => simp [height]
  | case3 => simp [height_eq]

/-- One level of nesting leaves room for a chain. -/
theorem height_under {t : Tree} {n m : Nat} (short : t.chain ≤ n)
    (h : t.height + n ≤ t.nesting * (n + 1) + t.chain) (under : t.nesting + 1 ≤ m) :
    t.height + (n + 1) ≤ m * (n + 1) := by
  have room := Nat.mul_le_mul_right (n + 1) under
  rw [Nat.add_mul] at room
  omega

mutual

/-- The height counts every level of nesting with a chain of `n` forms, and in place of the one at
the root the chain that is there. -/
theorem height_le_of_chains {n : Nat} : (t : Tree) → t.NodesHold (·.chain ≤ n) →
    t.height + n ≤ t.nesting * (n + 1) + t.chain
  | ⟨_, _, _, [], _, _⟩, _ => by simp [height, heightOf, nesting, nestingOver, chain, Nat.add_comm]
  | ⟨form, span, name, first :: more, parens, interpolated⟩, h => by
    obtain ⟨inside, others⟩ := List.forall_mem_cons.mp (nodesHold_iff.mp h).2
    have below := height_le_of_chains first inside
    have beside := heightOf_le_of_chains more others
    have short : first.chain ≤ n := (nodesHold_iff.mp inside).1
    rw [height, heightOf, nesting, nestingOver, chain]
    have most := Nat.mul_le_mul_right (n + 1)
      (Nat.le_max_right (if form.isBehind then first.nesting else first.nesting + 1)
        (nestingOver false more))
    have least := Nat.le_max_left (if form.isBehind then first.nesting else first.nesting + 1)
      (nestingOver false more)
    by_cases behind : form.isBehind
    · rw [if_pos behind] at least most ⊢
      rw [if_pos behind]
      have room := Nat.mul_le_mul_right (n + 1) least
      omega
    · rw [if_neg behind] at least most ⊢
      rw [if_neg behind]
      have room := height_under short below least
      omega

theorem heightOf_le_of_chains {n : Nat} : (ts : List Tree) →
    (∀ t ∈ ts, t.NodesHold (·.chain ≤ n)) → heightOf ts + (n + 1) ≤ nestingOver false ts * (n + 1)
  | [], _ => by simp [heightOf, nestingOver]
  | t :: ts, h => by
    obtain ⟨first, others⟩ := List.forall_mem_cons.mp h
    have below := height_le_of_chains t first
    have beside := heightOf_le_of_chains ts others
    have short : t.chain ≤ n := (nodesHold_iff.mp first).1
    rw [heightOf, nestingOver, if_neg Bool.false_ne_true]
    have most := Nat.mul_le_mul_right (n + 1)
      (Nat.le_max_right (t.nesting + 1) (nestingOver false ts))
    have room := height_under short below (Nat.le_max_left (t.nesting + 1) (nestingOver false ts))
    omega

end

theorem height_le_nesting_mul {t : Tree} {n : Nat} (h : ∀ node ∈ t.nodes, node.chain ≤ n) :
    t.height ≤ t.nesting * (n + 1) := by
  have bound := height_le_of_chains t h
  have short := (nodesHold_iff.mp h).1
  omega

/-! ### Nesting of a node -/

theorem nestingOver_false_le {ts : List Tree} {m : Nat} (h : ∀ t ∈ ts, t.nesting ≤ m) :
    nestingOver false ts ≤ m + 1 := by
  induction ts with
  | nil => simp [nestingOver]
  | cons t ts ih =>
    obtain ⟨first, more⟩ := List.forall_mem_cons.mp h
    rw [nestingOver, if_neg Bool.false_ne_true]
    exact Nat.max_le.mpr ⟨Nat.succ_le_succ first, ih more⟩

theorem nestingOver_append_le {ts : List Tree} {child : Tree} {behind : Bool} {m : Nat}
    (h : nestingOver behind ts ≤ m + 1) (hc : child.nesting ≤ m) :
    nestingOver behind (ts ++ [child]) ≤ m + 1 := by
  induction ts generalizing behind with
  | nil =>
    rw [List.nil_append, nestingOver, nestingOver]
    split <;> omega
  | cons t ts ih =>
    rw [nestingOver] at h
    rw [List.cons_append, nestingOver]
    obtain ⟨first, more⟩ := Nat.max_le.mp h
    exact Nat.max_le.mpr ⟨first, ih more⟩

/-- A node adds one level to its children. -/
theorem nesting_le_succ {t : Tree} {m : Nat} (h : ∀ child ∈ t.children, child.nesting ≤ m) :
    t.nesting ≤ m + 1 := by
  rw [nesting_eq]
  cases hc : t.children with
  | nil => simp [nestingOver]
  | cons first more =>
    rw [hc] at h
    obtain ⟨hfirst, hmore⟩ := List.forall_mem_cons.mp h
    rw [nestingOver]
    refine Nat.max_le.mpr ⟨?_, nestingOver_false_le hmore⟩
    split <;> omega

/-- A node that is put behind a term adds none to it. -/
theorem nesting_le_behind {t first : Tree} {more : List Tree} {m : Nat} (form : t.form.isBehind)
    (children : t.children = first :: more) (hfirst : first.nesting ≤ m + 1)
    (hmore : ∀ child ∈ more, child.nesting ≤ m) : t.nesting ≤ m + 1 := by
  rw [nesting_eq, children, nestingOver, if_pos form]
  exact Nat.max_le.mpr ⟨hfirst, nestingOver_false_le hmore⟩

/-- A further child at the end. -/
theorem nesting_append {t child : Tree} {m : Nat} (h : t.nesting ≤ m + 1)
    (hc : child.nesting ≤ m) : (t.append child).nesting ≤ m + 1 := by
  rw [nesting_eq] at h ⊢
  exact nestingOver_append_le h hc

theorem nesting_le_one {t : Tree} (h : t.children = []) : t.nesting ≤ 1 := by
  simp [nesting_eq, h, nestingOver]

end Tree
end CallAtlas
