import CallAtlas.Proofs.Json.RoundTrip

/-! # How deep a document may nest

A text that is spelled with containers nested to any depth meets one of two fates at a given budget:
it is spelled within the budget, and then it is read, or it is refused because it nests too deep, and
for no other reason. The grammar decides which, as a value is never deeper than the budget it is
spelled with.

The text of a value in either layout is spelled with the depth of the value. So a value without
floats is read back from its text if it is at most 512 deep, and refused as too deep otherwise.
-/
namespace CallAtlas.Json

/-! ### The depth of a value -/

namespace Value

mutual

/-- How deep containers nest in a value: a scalar has none, an empty container is one. -/
def depth : Value → Nat
  | .array items => depthOfItems items + 1
  | .object members => depthOfMembers members + 1
  | _ => 0

def depthOfItems : List Value → Nat
  | [] => 0
  | v :: more => max v.depth (depthOfItems more)

def depthOfMembers : Table Value → Nat
  | [] => 0
  | (_, v) :: more => max v.depth (depthOfMembers more)

end

theorem depthOfItems_le {vs : List Value} {d : Nat} :
    depthOfItems vs ≤ d ↔ ∀ v ∈ vs, v.depth ≤ d := by
  induction vs with
  | nil => simp [depthOfItems]
  | cons v vs ih => rw [depthOfItems, Nat.max_le, ih, List.forall_mem_cons]

theorem depthOfMembers_le {ms : Table Value} {d : Nat} :
    depthOfMembers ms ≤ d ↔ ∀ m ∈ ms, m.2.depth ≤ d := by
  induction ms with
  | nil => simp [depthOfMembers]
  | cons m ms ih => rw [depthOfMembers, Nat.max_le, ih, List.forall_mem_cons]

/-- A value without floats, with the members of its objects in order of their keys. -/
inductive Exact : Value → Prop
  | null : Exact .null
  | bool {b} : Exact (.bool b)
  | integer {i} : Exact (.integer i)
  | string {s} : Exact (.string s)
  | array {vs} : (∀ v ∈ vs, Exact v) → Exact (.array vs)
  | object {ms} : Ordered.Increasing Bytes.order (ms.map Prod.fst) → (∀ m ∈ ms, Exact m.2) →
      Exact (.object ms)

theorem Exact.plain {v : Value} (h : Exact v) {d : Nat} (hd : v.depth ≤ d) : Plain d v := by
  induction h generalizing d with
  | null => exact .null
  | bool => exact .bool
  | integer => exact .integer
  | string => exact .string
  | array _ ih =>
    cases d with
    | zero => cases hd
    | succ d =>
      have items := depthOfItems_le.mp (Nat.le_of_succ_le_succ hd)
      exact .array fun v hv => ih v hv (items v hv)
  | object increasing _ ih =>
    cases d with
    | zero => cases hd
    | succ d =>
      have members := depthOfMembers_le.mp (Nat.le_of_succ_le_succ hd)
      exact .object increasing fun m hm => ih m hm (members m hm)

theorem sameItems_self {vs : List Value} (h : ∀ v ∈ vs, v.same v) : sameItems vs vs := by
  induction vs with
  | nil => rfl
  | cons v vs ih =>
    obtain ⟨first, others⟩ := List.forall_mem_cons.mp h
    rw [sameItems, first, ih others]
    rfl

theorem sameMembers_of_find? {ms t : Table Value}
    (h : ∀ m ∈ ms, t.find? m.1 = some m.2 ∧ m.2.same m.2) : sameMembers ms t := by
  induction ms with
  | nil => rfl
  | cons m ms ih =>
    obtain ⟨⟨found, same⟩, others⟩ := List.forall_mem_cons.mp h
    rw [sameMembers, found, Option.any_some, same, ih others]
    rfl

/-- A value without floats equals itself. -/
theorem Exact.same_self {v : Value} (h : Exact v) : v.same v := by
  induction h with
  | null => rfl
  | bool => simp [same]
  | integer => simp [same]
  | string => simp [same]
  | array _ ih => exact sameItems_self ih
  | @object ms increasing _ ih =>
    have members : ∀ m ∈ ms, Table.find? m.1 ms = some m.2 ∧ m.2.same m.2 := fun m hm =>
      ⟨(Table.mem_iff_find? increasing).mp hm, ih m hm⟩
    rw [same, sameMembers_of_find? members]
    simp

end Value

/-- The values that a phrase puts side by side. -/
def Phrase.values : Phrase → List Value
  | .value v | .padded v | .member _ v => [v]
  | .items vs => vs
  | .members ms => ms.map Prod.snd

theorem Collects.subset {ms t : List (Bytes × Value)} (h : Collects ms t) : t ⊆ ms := by
  intro m hm
  have table : Value.ofMembers ms = .object t := collects_iff.mp h
  rw [← Value.object.inj table] at hm
  rcases Table.mem_filled (t := []) hm with hm | hm
  · cases hm
  · exact hm

theorem depth_of_wordValues {bs : Bytes} {v : Value} (h : (bs, v) ∈ wordValues) : v.depth = 0 := by
  simp only [wordValues, List.mem_cons, List.not_mem_nil, or_false, Prod.mk.injEq] at h
  rcases h with ⟨-, rfl⟩ | ⟨-, rfl⟩ | ⟨-, rfl⟩ <;> rfl

theorem Numeral.depth_of_denotes {n : Numeral} {v : Value} (h : n.Denotes v) : v.depth = 0 := by
  cases v with
  | integer | float => rfl
  | _ => exact h.elim

/-- What is spelled is no deeper than the budget. -/
theorem Spells.depth_le {d : Nat} {bs : Bytes} {p : Phrase} (h : Spells d bs p) :
    ∀ v ∈ p.values, v.depth ≤ d := by
  induction h with
  | word hw => simp [Phrase.values, depth_of_wordValues hw]
  | number _ hv => simp [Phrase.values, Numeral.depth_of_denotes hv]
  | string _ => simp [Phrase.values, Value.depth]
  | emptyArray _ => simp [Phrase.values, Value.depth, Value.depthOfItems]
  | array _ ih =>
    simpa [Phrase.values, Value.depth, Value.depthOfItems_le] using ih
  | emptyObject _ => simp [Phrase.values, Value.depth, Value.depthOfMembers]
  | @object d _ _ t _ table ih =>
    have members : ∀ m ∈ t, m.2.depth ≤ d := fun m hm =>
      ih m.2 (List.mem_map_of_mem (table.subset hm))
    simpa [Phrase.values, Value.depth, Value.depthOfMembers_le] using members
  | padded _ _ _ ih => exact ih
  | lastItem _ ih => exact ih
  | moreItems _ _ first more => exact List.forall_mem_cons.mpr ⟨first _ (.head _), more⟩
  | member _ _ _ _ ih => exact ih
  | lastMember _ ih => exact ih
  | moreMembers _ _ first more => exact List.forall_mem_cons.mpr ⟨first _ (.head _), more⟩

/-! ### Refusals -/

/-- A read is refused because containers nest too deep. -/
def TooDeep {m : Nat} {α : Type} (read : Except Error (Read m α)) : Prop :=
  ∃ e, read = .error e ∧ e.fault = .tooDeep

theorem tooDeep_fail {m : Nat} {α : Type} (c : Cursor) :
    TooDeep (c.fail .tooDeep : Except Error (Read m α)) := ⟨_, rfl, rfl⟩

theorem TooDeep.widen {m n : Nat} {α β : Type} {read : Except Error (Read m α)}
    (h : TooDeep read) (f : α → β) (hle : m ≤ n) : TooDeep (read.map (·.widen f hle)) := by
  obtain ⟨e, rfl, hf⟩ := h
  exact ⟨e, rfl, hf⟩

/-- `read` refuses `bs` as too deep, whatever follows. Blanks before it may have been skipped
already. -/
def Refuses {α : Type} (read : (c : Cursor) → Except Error (Read c.size α)) (bs : Bytes) : Prop :=
  ∀ c rest, strip c.rest = strip (bs ++ rest) → TooDeep (read c)

section Entries

variable {α : Type} {entry : (c : Cursor) → Except Error (Read c.size α)} {close : UInt8}
  {fault : Fault} {bs others : Bytes} {a : α}

theorem Refuses.append {read : (c : Cursor) → Except Error (Read c.size α)}
    (h : Refuses read bs) (more : Bytes) : Refuses read (bs ++ more) := by
  intro c rest hc
  rw [List.append_assoc] at hc
  exact h c (more ++ rest) hc

theorem Refuses.first (h : Refuses entry bs) : Refuses (entries entry close fault) bs := by
  intro c rest hc
  obtain ⟨e, he, hf⟩ := h c rest hc
  rw [entries, he]
  exact ⟨e, rfl, hf⟩

theorem Refuses.later (h : Refuses (entries entry close fault) others)
    (hfirst : ReadsEntry entry bs a) :
    Refuses (entries entry close fault) (parted bs ',' others) := by
  intro c rest hc
  have start : strip c.rest = strip (bs ++ parted [] ',' (others ++ rest)) := by
    rw [hc]
    simp [parted]
  obtain ⟨c₁, hle, rest₁, heq⟩ := hfirst.entries_eq start
  rw [heq]
  apply TooDeep.widen
  exact h c₁ rest (by rw [rest₁])

theorem Refuses.container {blanks core : Bytes}
    (h : Refuses (entries entry close fault) (blanks ++ core)) (hb : Blank blanks)
    (hcore : StartsValue core) (hclose : close ∈ text "]\x7d") {c : Cursor} {rest : Bytes}
    (hc : c.rest = blanks ++ core ++ rest) : TooDeep (container entry close fault c) := by
  obtain ⟨heq, start⟩ := container_eq hb hcore hclose hc
  rw [heq]
  exact (h c.skipBlanks rest start).widen id _

end Entries

/-- The reader of a phrase refuses its text as too deep. -/
def IsRefused (d : Nat) (bs : Bytes) : Phrase → Prop
  | .value _ => ∀ c rest, c.rest = bs ++ rest → TooDeep (valueHere (nestedAt d) c)
  | .padded _ => Refuses (value d) bs
  | .items _ => Refuses (entries (value d) ']' .expectedItemEnd) bs
  | .member _ _ => Refuses (member (value d)) bs
  | .members _ => Refuses (entries (member (value d)) '\x7d' .expectedMemberEnd) bs

theorem isRefused_padded {d : Nat} {before bs behind : Bytes} {v : Value} (hb : Blank before)
    (hs : StartsValue bs) (h : IsRefused d bs (.value v)) :
    IsRefused d (before ++ (bs ++ behind)) (.padded v) := by
  intro c rest hc
  have start : c.skipBlanks.rest = bs ++ (behind ++ rest) := by
    rw [Cursor.rest_skipBlanks, hc]
    simp only [List.append_assoc]
    rw [strip_append hb, hs.startsSolid.strip]
  rw [value_eq]
  exact (h c.skipBlanks _ start).widen id _

theorem isRefused_member {d : Nat} {before key name between bs : Bytes} {v : Value}
    (hb : Blank before) (hk : SpellsString key name) (hbetween : Blank between)
    (h : IsRefused d bs (.padded v)) :
    IsRefused d (before ++ parted (key ++ between) ':' bs) (.member name v) := by
  intro c rest hc
  have start : strip c.rest = strip (before ++ parted (key ++ between) ':' (bs ++ rest)) := by
    rw [hc]
    simp [parted]
  obtain ⟨c₁, hle, rest₁, heq⟩ := member_eq (value d) hb hk hbetween start
  rw [heq]
  apply TooDeep.widen
  exact h c₁ rest (by rw [rest₁])

/-- Without a budget no container is read, whatever stands in it. -/
theorem isRefused_zero {b : UInt8} (hb : b ∈ text "[\x7b") (tail : Bytes) (v : Value) :
    IsRefused 0 (b :: tail) (.value v) := by
  intro c rest hc
  obtain ⟨c₁, h₁, hnext, -⟩ := Cursor.next_of_rest hc
  have brackets : ∀ b ∈ text "[\x7b", b = '[' ∨ b = '\x7b' := forall_mem_of_all (by decide)
  unfold valueHere nestedAt
  rcases brackets b hb with rfl | rfl
  · have other : ('[' : UInt8) ≠ '\x7b' := by decide
    simp only [hnext, other, if_false, if_true]
    apply tooDeep_fail
  · simp only [hnext, if_true]
    apply tooDeep_fail

theorem isRefused_array {d : Nat} {bs : Bytes} {vs : List Value}
    (h : ∀ c rest, c.rest = bs ++ rest →
      TooDeep (container (value d) ']' .expectedItemEnd c)) :
    IsRefused (d + 1) (enclosed '[' bs ']') (.value (.array vs)) := by
  intro c rest hc
  have start : c.rest = parted [] '[' (bs ++ parted [] ']' rest) := by
    rw [hc]
    simp [enclosed, parted]
  obtain ⟨c₁, hle, rest₁, heq⟩ := valueHere_bracket d start
  rw [heq]
  exact (h c₁ _ rest₁).widen Value.array _

theorem isRefused_object {d : Nat} {bs : Bytes} {t : List (Bytes × Value)}
    (h : ∀ c rest, c.rest = bs ++ rest →
      TooDeep (container (member (value d)) '\x7d' .expectedMemberEnd c)) :
    IsRefused (d + 1) (enclosed '\x7b' bs '\x7d') (.value (.object t)) := by
  intro c rest hc
  have start : c.rest = parted [] '\x7b' (bs ++ parted [] '\x7d' rest) := by
    rw [hc]
    simp [enclosed, parted]
  obtain ⟨c₁, hle, rest₁, heq⟩ := valueHere_brace d start
  rw [heq]
  exact (h c₁ _ rest₁).widen Value.ofMembers _

/-- A text that is spelled with any budget is spelled with the given one or refused as too deep. -/
theorem Spells.spells_or_isRefused {n : Nat} {bs : Bytes} {p : Phrase} (h : Spells n bs p)
    (d : Nat) : Spells d bs p ∨ IsRefused d bs p := by
  -- Of several entries the first that is refused decides, as those before it are read.
  induction h generalizing d with
  | word hw => exact .inl (.word hw)
  | number hn hv => exact .inl (.number hn hv)
  | string hs => exact .inl (.string hs)
  | emptyArray hb =>
    cases d with
    | zero => exact .inr (isRefused_zero (by decide) _ _)
    | succ d => exact .inl (.emptyArray hb)
  | array h ih =>
    cases d with
    | zero => exact .inr (isRefused_zero (by decide) _ _)
    | succ d =>
      obtain ⟨blanks, core, rfl, hb, hcore⟩ := h.startsEntry (by simp)
      rcases ih d with spelled | refused
      · exact .inl (.array spelled)
      · exact .inr (isRefused_array fun c rest => refused.container hb hcore (by decide))
  | emptyObject hb =>
    cases d with
    | zero => exact .inr (isRefused_zero (by decide) _ _)
    | succ d => exact .inl (.emptyObject hb)
  | object h table ih =>
    cases d with
    | zero => exact .inr (isRefused_zero (by decide) _ _)
    | succ d =>
      obtain ⟨blanks, core, rfl, hb, hcore⟩ := h.startsEntry (by simp)
      rcases ih d with spelled | refused
      · exact .inl (.object spelled table)
      · exact .inr (isRefused_object fun c rest => refused.container hb hcore (by decide))
  | padded hb h hbehind ih =>
    rcases ih d with spelled | refused
    · exact .inl (.padded hb spelled hbehind)
    · exact .inr (isRefused_padded hb h.startsValue refused)
  | lastItem _ ih =>
    rcases ih d with spelled | refused
    · exact .inl (.lastItem spelled)
    · exact .inr refused.first
  | moreItems _ _ first more =>
    rcases first d with spelled | refused
    · rcases more d with others | refused
      · exact .inl (.moreItems spelled others)
      · exact .inr (refused.later spelled.isRead)
    · exact .inr (refused.first.append _)
  | member hb hk hbetween _ ih =>
    rcases ih d with spelled | refused
    · exact .inl (.member hb hk hbetween spelled)
    · exact .inr (isRefused_member hb hk hbetween refused)
  | lastMember _ ih =>
    rcases ih d with spelled | refused
    · exact .inl (.lastMember spelled)
    · exact .inr refused.first
  | moreMembers _ _ first more =>
    rcases first d with spelled | refused
    · rcases more d with others | refused
      · exact .inl (.moreMembers spelled others)
      · exact .inr (refused.later spelled.isRead)
    · exact .inr (refused.first.append _)

theorem tooDeep_of_spells {n : Nat} {bs : Bytes} {v : Value} (h : Spells n bs (.padded v))
    (deep : ¬ SpellsDocument bs v) : ∃ e, parse bs = .error e ∧ e.fault = .tooDeep := by
  rcases h.spells_or_isRefused 512 with spelled | refused
  · exact absurd spelled deep
  · obtain ⟨nonempty, start⟩ := h.start
    obtain ⟨e, he, hf⟩ := refused _ [] start
    refine ⟨e, ?_, hf⟩
    unfold parse maxDepth
    simp only [nonempty, Bool.false_eq_true, if_false, he]

/-! ### Texts of values -/

namespace Value

theorem tooDeep_of_lays {w : Bytes → Bytes} {v : Value} (h : Lays w v.depth (.value v))
    (deep : 512 < v.depth) : ∃ e, parse (w []) = .error e ∧ e.fault = .tooDeep := by
  obtain ⟨bs, hw, hs⟩ := h
  have spelled : Spells v.depth (w []) (.padded v) := by
    rw [hw]
    exact .padded blank_nil hs blank_nil
  apply tooDeep_of_spells spelled
  intro document
  have shallow : v.depth ≤ 512 := document.depth_le v (.head _)
  omega

/-- A value without floats is read back from either layout if its containers nest at most 512 deep.
If they nest deeper, both texts are refused for that reason. -/
theorem read_of_written {v : Value} (h : v.Exact) (indent : Nat) :
    (v.depth ≤ 512 → ∀ t ∈ [v.compact, v.pretty indent],
      ∃ v', parse t = .ok v' ∧ v' = v ∧ v'.same v) ∧
    (512 < v.depth → ∀ t ∈ [v.compact, v.pretty indent],
      ∃ e, parse t = .error e ∧ e.fault.message = text "Maximum nesting depth exceeded") := by
  have texts {P : Bytes → Prop} :
      (∀ t ∈ [v.compact, v.pretty indent], P t) ↔ P v.compact ∧ P (v.pretty indent) := by simp
  constructor
  · intro shallow
    have plain : Plain maxDepth v := h.plain shallow
    rw [texts]
    exact ⟨⟨v, plain.parse_compact, rfl, h.same_self⟩,
      ⟨v, plain.parse_pretty indent, rfl, h.same_self⟩⟩
  · intro deep
    have plain : Plain v.depth v := h.plain (Nat.le_refl _)
    have message {t : Bytes} (refused : ∃ e, parse t = .error e ∧ e.fault = .tooDeep) :
        ∃ e, parse t = .error e ∧
          e.fault.message = text "Maximum nesting depth exceeded" := by
      obtain ⟨e, he, hf⟩ := refused
      exact ⟨e, he, by rw [hf]; rfl⟩
    rw [texts]
    exact ⟨message (tooDeep_of_lays plain.lays_write deep),
      message (tooDeep_of_lays (plain.lays_writePretty indent 0) deep)⟩

/-- Containers of both kinds, nested `n` deep. -/
def nested : Nat → Value
  | 0 => .integer Int64.minValue
  | 1 => .object []
  | n + 2 => .array [.string [0, 34, 255], .object [(text "k", nested n)]]

theorem exact_nested (n : Nat) : (nested n).Exact := by
  fun_induction nested n with
  | case1 => exact .integer
  | case2 => exact .object .nil (by simp)
  | case3 n ih =>
    have inner : (object [(text "k", nested n)]).Exact :=
      .object (List.pairwise_singleton _ _) (by simpa using ih)
    exact .array (by simp [inner, Exact.string])

theorem depth_nested (n : Nat) : (nested n).depth = n := by
  fun_induction nested n with
  | case1 => rfl
  | case2 => rfl
  | case3 n ih => simp [depth, depthOfItems, depthOfMembers, ih]

theorem nested_read_of_written :
    (∀ t ∈ [(nested 512).compact, (nested 512).pretty 3],
      ∃ v, parse t = .ok v ∧ v = nested 512 ∧ v.same (nested 512)) ∧
    ∀ t ∈ [(nested 513).compact, (nested 513).pretty 0],
      ∃ e, parse t = .error e ∧ e.fault.message = text "Maximum nesting depth exceeded" := by
  constructor
  · exact (read_of_written (exact_nested 512) 3).1 (Nat.le_of_eq (depth_nested 512))
  · exact (read_of_written (exact_nested 513) 0).2 (by rw [depth_nested]; decide)

end Value

end CallAtlas.Json
