import CallAtlas.Source
import Mathlib.Data.List.TakeWhile

/-! # Lines and columns

The line of an offset counts the line feeds before it, its column the bytes behind the last of them.
A reader that goes over a text byte by byte keeps both in step; a table of all line feeds finds them
by bisection. Where the numbers have 32 bits, both agree below that bound.
-/
namespace CallAtlas

namespace Bytes

/-- The line of an offset, from 1 on. -/
def lineAt (bs : Bytes) (k : Nat) : Nat := 1 + (bs.take k).count ('\n' : UInt8)

/-- The byte column of an offset, from 1 on. -/
def columnAt (bs : Bytes) (k : Nat) : Nat :=
  1 + ((bs.take k).reverse.takeWhile fun (b : UInt8) => b != '\n').length

variable {bs : Bytes} {j k : Nat} {b : UInt8}

theorem lineAt_succ (h : bs[k]? = some b) :
    bs.lineAt (k + 1) = if b = '\n' then bs.lineAt k + 1 else bs.lineAt k := by
  rw [lineAt, List.take_add_one, h, Option.toList_some, List.count_append, List.count_singleton]
  unfold lineAt
  split <;> simp_all [Nat.add_assoc]

theorem columnAt_succ (h : bs[k]? = some b) :
    bs.columnAt (k + 1) = if b = '\n' then 1 else bs.columnAt k + 1 := by
  rw [columnAt, List.take_add_one, h, Option.toList_some, List.reverse_append,
    List.reverse_singleton, List.singleton_append, List.takeWhile_cons]
  unfold columnAt
  split <;> simp_all
  omega

/-- One place is before another: on an earlier line, or on the same line in an earlier column. -/
def Before (p q : Nat × Nat) : Prop := p.1 < q.1 ∨ p.1 = q.1 ∧ p.2 < q.2

theorem Before.trans {p q r : Nat × Nat} (h : Before p q) (h' : Before q r) : Before p r := by
  unfold Before at *
  omega

/-- The line and the column of an offset. -/
def placeAt (bs : Bytes) (k : Nat) : Nat × Nat := (bs.lineAt k, bs.columnAt k)

theorem placeAt_before_succ (h : k < bs.length) : Before (bs.placeAt k) (bs.placeAt (k + 1)) := by
  have byte := List.getElem?_eq_getElem h
  unfold Before placeAt
  rw [lineAt_succ byte, columnAt_succ byte]
  split <;> simp

theorem placeAt_before (hj : j < k) (hk : k ≤ bs.length) :
    Before (bs.placeAt j) (bs.placeAt k) := by
  induction k with
  | zero => exact absurd hj (Nat.not_lt_zero j)
  | succ k ih =>
    have step := placeAt_before_succ hk
    rcases Nat.lt_succ_iff_lt_or_eq.mp hj with hj | rfl
    · exact (ih hj (Nat.le_of_succ_le hk)).trans step
    · exact step

theorem lineAt_pos (bs : Bytes) (k : Nat) : 0 < bs.lineAt k := Nat.le_add_right 1 _

theorem columnAt_pos (bs : Bytes) (k : Nat) : 0 < bs.columnAt k := Nat.le_add_right 1 _

theorem lineAt_add_columnAt_le (hk : k ≤ bs.length) : bs.lineAt k + bs.columnAt k ≤ k + 2 := by
  induction k with
  | zero => exact Nat.le_refl 2
  | succ k ih =>
    have byte := List.getElem?_eq_getElem hk
    have before := ih (Nat.le_of_succ_le hk)
    have column := columnAt_pos bs k
    rw [lineAt_succ byte, columnAt_succ byte]
    split <;> omega

theorem lineAt_eq_succ_iff (hk : k ≤ bs.length) :
    bs.lineAt k = k + 1 ↔ ∀ b ∈ bs.take k, b = ('\n' : UInt8) := by
  have length : (bs.take k).length = k := List.length_take_of_le hk
  have all : (bs.take k).count ('\n' : UInt8) = k ↔ ∀ b ∈ bs.take k, '\n' = b := by
    rw [← List.count_eq_length, length]
  rw [lineAt, Nat.add_comm 1, Nat.add_right_cancel_iff, all]
  simp only [eq_comm]

theorem columnAt_eq_succ_iff (hk : k ≤ bs.length) :
    bs.columnAt k = k + 1 ↔ ('\n' : UInt8) ∉ bs.take k := by
  have length : (bs.take k).reverse.length = k := by
    rw [List.length_reverse, List.length_take_of_le hk]
  have all : ((bs.take k).reverse.takeWhile fun (b : UInt8) => b != '\n').length = k ↔
      ∀ b ∈ (bs.take k).reverse, b != ('\n' : UInt8) := by
    rw [← List.takeWhile_eq_self_iff]
    constructor
    · intro same
      exact (List.takeWhile_prefix _).eq_of_length (same.trans length.symm)
    · intro same
      rw [same, length]
  rw [columnAt, Nat.add_comm 1, Nat.add_right_cancel_iff, all]
  simp only [List.mem_reverse, bne_iff_ne]
  exact ⟨fun h feed => h _ feed rfl, fun h b hb feed => h (feed ▸ hb)⟩

/-- The line or the column of an offset is too large for 32 bits. This is so at the last offset of
32 bits only, where none of the bytes before it is a line feed or all of them are. -/
def Overflows (bs : Bytes) (k : Nat) : Prop :=
  k + 1 = UInt32.size ∧
    (('\n' : UInt8) ∉ bs.take k ∨ ∀ b ∈ bs.take k, b = ('\n' : UInt8))

theorem overflows_iff (small : bs.length < UInt32.size) (hk : k ≤ bs.length) :
    bs.Overflows k ↔ bs.columnAt k = UInt32.size ∨ bs.lineAt k = UInt32.size := by
  have sum := lineAt_add_columnAt_le hk
  have line := lineAt_pos bs k
  have column := columnAt_pos bs k
  rw [Overflows, ← columnAt_eq_succ_iff hk, ← lineAt_eq_succ_iff hk]
  omega

end Bytes

/-- The line and the column of a place. -/
def Location.place (loc : Location) : Nat × Nat := (loc.line, loc.column)

/-! ### Bisection -/

theorem mem_lineFeeds {o x : Nat} {bs : Bytes} (h : x ∈ lineFeeds o bs) : o ≤ x := by
  induction bs generalizing o with
  | nil => cases h
  | cons b bs ih =>
    rw [lineFeeds] at h
    split at h
    · rcases List.mem_cons.mp h with rfl | h
      · exact Nat.le_refl _
      · exact Nat.le_of_succ_le (ih h)
    · exact Nat.le_of_succ_le (ih h)

theorem lineFeeds_increasing (o : Nat) (bs : Bytes) : (lineFeeds o bs).Pairwise (· < ·) := by
  induction bs generalizing o with
  | nil => exact .nil
  | cons b bs ih =>
    rw [lineFeeds]
    split
    · exact .cons (fun x hx => mem_lineFeeds hx) (ih (o + 1))
    · exact ih (o + 1)

/-- The line feeds before an offset. -/
theorem countP_lineFeeds (o k : Nat) (bs : Bytes) :
    (lineFeeds o bs).countP (· < o + k) = (bs.take k).count ('\n' : UInt8) := by
  induction bs generalizing o k with
  | nil => simp [lineFeeds]
  | cons b bs ih =>
    cases k with
    | zero =>
      rw [List.take_zero, List.count_nil, List.countP_eq_zero]
      intro x hx
      have := mem_lineFeeds hx
      simpa using this
    | succ k =>
      have more := ih (o + 1) k
      rw [Nat.add_right_comm, Nat.add_assoc] at more
      rw [lineFeeds, List.take_succ_cons, List.count_cons]
      split <;> simp_all

/-- The line feed of a line stands at the place of its number in the table. -/
theorem getElem?_lineFeeds {o k : Nat} {bs : Bytes} (h : bs[k]? = some ('\n' : UInt8)) :
    (lineFeeds o bs)[(bs.take k).count ('\n' : UInt8)]? = some (o + k) := by
  induction bs generalizing o k with
  | nil => simp at h
  | cons b bs ih =>
    cases k with
    | zero => simp_all [lineFeeds]
    | succ k =>
      rw [List.getElem?_cons_succ] at h
      have more := ih (o := o + 1) h
      rw [lineFeeds, List.take_succ_cons, List.count_cons]
      split <;> simp_all <;> omega

namespace LineTable

/-- Without line feeds a text has the table of the empty one. -/
theorem ofText_of_not_mem {bs : Bytes} (plain : ('\n' : UInt8) ∉ bs) : ofText bs = ofText [] := by
  have none : lineFeeds 0 bs = [] := by
    rw [← List.length_eq_zero_iff, lineFeeds_length, List.countP_eq_zero]
    intro b hb feed
    exact plain (of_decide_eq_true feed ▸ hb)
  rw [ofText, none]
  rfl

/-- Where a list is cut in two at a bound, the number of its members below the bound. -/
theorem countP_eq_of_cut {feeds : List Nat} {n offset : Nat} (le : n ≤ feeds.length)
    (low : ∀ x ∈ feeds.take n, x < offset) (high : ∀ x ∈ feeds.drop n, offset ≤ x) :
    feeds.countP (· < offset) = n := by
  have below : (feeds.take n).countP (· < offset) = (feeds.take n).length := by
    rw [List.countP_eq_length]
    simpa using low
  have above : (feeds.drop n).countP (· < offset) = 0 := by
    rw [List.countP_eq_zero]
    simpa using high
  rw [← List.take_append_drop n feeds, List.countP_append, below, above, List.length_take]
  omega

/-- In an increasing list, what stands before a member is less, and what stands behind is more. -/
theorem ordered_at {feeds : List Nat} (increasing : feeds.Pairwise (· < ·)) {n : Nat}
    (h : n < feeds.length) :
    (∀ x ∈ feeds.take n, x < feeds[n]) ∧ ∀ x ∈ feeds.drop (n + 1), feeds[n] < x := by
  rw [← List.take_append_drop n feeds, List.drop_eq_getElem_cons h, List.pairwise_append,
    List.pairwise_cons] at increasing
  obtain ⟨-, ⟨after, -⟩, across⟩ := increasing
  exact ⟨fun x hx => across x hx _ List.mem_cons_self, after⟩

/-- Bisection keeps that all feeds before the lower end are below the offset, and none from the
upper end on. -/
theorem feedsBefore_eq {feeds : List Nat} (increasing : feeds.Pairwise (· < ·)) {offset lo hi : Nat}
    (le : lo ≤ hi) (size : hi ≤ feeds.length) (low : ∀ x ∈ feeds.take lo, x < offset)
    (high : ∀ x ∈ feeds.drop hi, offset ≤ x) :
    feedsBefore ⟨feeds.toArray⟩ offset lo hi = feeds.countP (· < offset) := by
  fun_induction feedsBefore ⟨feeds.toArray⟩ offset lo hi with
  | case1 lo hi more mid below ih =>
    have inside : mid < feeds.length := by omega
    obtain ⟨before, -⟩ := ordered_at increasing inside
    have first : feeds[mid] < offset := by simpa [inside] using below
    refine ih (by omega) size ?_ high
    rw [List.take_succ_eq_append_getElem inside]
    refine List.forall_mem_append.mpr ⟨?_, List.forall_mem_singleton.mpr first⟩
    exact fun x hx => Nat.lt_trans (before x hx) first
  | case2 lo hi more mid above ih =>
    have inside : mid < feeds.length := by omega
    obtain ⟨-, after⟩ := ordered_at increasing inside
    have first : offset ≤ feeds[mid] := by simpa [inside] using above
    refine ih (by omega) (by omega) low ?_
    rw [List.drop_eq_getElem_cons inside]
    refine List.forall_mem_cons.mpr ⟨first, ?_⟩
    exact fun x hx => Nat.le_trans first (Nat.le_of_lt (after x hx))
  | case3 lo hi closed =>
    obtain rfl : lo = hi := by omega
    exact (countP_eq_of_cut size low high).symm

/-- The number of line feeds before an offset, as bisection finds it. -/
theorem feedsBefore_ofText (bs : Bytes) (k : Nat) :
    (ofText bs).feedsBefore k 0 (ofText bs).feeds.size = (bs.take k).count ('\n' : UInt8) := by
  have found : (ofText bs).feedsBefore k 0 (lineFeeds 0 bs).length =
      (lineFeeds 0 bs).countP (· < k) :=
    feedsBefore_eq (lineFeeds_increasing 0 bs) (Nat.zero_le _) (Nat.le_refl _) (by simp) (by simp)
  have count := countP_lineFeeds 0 k bs
  rw [Nat.zero_add] at count
  exact found.trans count

/-- The column of an offset is its distance from the start of its line, which lies behind the last
line feed before it. -/
theorem lineStart_add_columnAt {bs : Bytes} {k : Nat} (hk : k ≤ bs.length) :
    let before := (bs.take k).count ('\n' : UInt8)
    (if before = 0 then 0 else (ofText bs).feeds.getD (before - 1) 0 + 1) + bs.columnAt k =
      k + 1 := by
  induction k with
  | zero => rfl
  | succ k ih =>
    have byte := List.getElem?_eq_getElem hk
    have same := ih (Nat.le_of_succ_le hk)
    dsimp only at same ⊢
    rw [Bytes.columnAt_succ byte, List.take_add_one, byte, Option.toList_some, List.count_append,
      List.count_singleton]
    by_cases feed : bs[k] = ('\n' : UInt8)
    · -- a line starts behind this feed, whose number in the table is that of the feeds before it
      have place := getElem?_lineFeeds (o := 0) (byte.trans (congrArg some feed))
      simp [feed, ofText, place]
    · simp only [feed, beq_iff_eq, if_false, Nat.add_zero]
      omega

theorem location_ofText {bs : Bytes} (small : bs.length < UInt32.size) {k : Nat}
    (hk : k ≤ bs.length) :
    (ofText bs).location k =
      { line := bs.lineAt k % UInt32.size
        column := bs.columnAt k % UInt32.size
        offset := k
        length := 1 } := by
  have feeds : (bs.take k).count ('\n' : UInt8) ≤ k :=
    Nat.le_trans List.count_le_length (List.length_take_le k bs)
  have start := lineStart_add_columnAt hk
  have column := bs.columnAt_pos k
  dsimp only at start
  unfold location
  -- the feeds and the offset itself are below the bound, so only what is one more can reach it
  rw [feedsBefore_ofText, Nat.mod_eq_of_lt (Nat.lt_of_le_of_lt (Nat.le_trans feeds hk) small)]
  dsimp only
  rw [Nat.mod_eq_of_lt (Nat.lt_of_le_of_lt hk small), Bytes.lineAt, Nat.add_comm 1]
  congr 2
  omega

/-- A number up to a bound, counted modulo that bound. -/
theorem mod_of_le {a n : Nat} (le : a ≤ n) : a % n = if a = n then 0 else a := by
  split
  · rename_i same
    rw [same, Nat.mod_self]
  · exact Nat.mod_eq_of_lt (by omega)

/-- Only where the line or the column overflows is it not the counted one. -/
theorem location_eq_iff {bs : Bytes} (small : bs.length < UInt32.size) {k : Nat}
    (hk : k ≤ bs.length) :
    (ofText bs).location k =
        { line := bs.lineAt k, column := bs.columnAt k, offset := k, length := 1 } ↔
      ¬ bs.Overflows k := by
  have sum := Bytes.lineAt_add_columnAt_le hk
  have line := bs.lineAt_pos k
  have column := bs.columnAt_pos k
  rw [location_ofText small hk, Bytes.overflows_iff small hk, mod_of_le (by omega),
    mod_of_le (by omega), Location.mk.injEq]
  grind

/-- Places come in the order of their offsets, but for one that overflows, which comes first. -/
theorem place_before_iff {bs : Bytes} (small : bs.length < UInt32.size) {j k : Nat} (hj : j < k)
    (hk : k ≤ bs.length) :
    Bytes.Before ((ofText bs).location j).place ((ofText bs).location k).place ↔
      ¬ bs.Overflows k := by
  have inside : j ≤ bs.length := Nat.le_trans (Nat.le_of_lt hj) hk
  have below : ¬ bs.Overflows j := by
    rintro ⟨last, -⟩
    omega
  rw [(location_eq_iff small inside).mpr below, location_ofText small hk]
  have before := Bytes.placeAt_before hj hk
  have sum := Bytes.lineAt_add_columnAt_le hk
  have lineJ := bs.lineAt_pos j
  have lineK := bs.lineAt_pos k
  have columnK := bs.columnAt_pos k
  rw [Bytes.overflows_iff small hk, mod_of_le (by omega), mod_of_le (by omega)]
  dsimp only [Bytes.Before, Bytes.placeAt, Location.place] at before ⊢
  split <;> split <;> omega

theorem mod_ne_mod {a b n : Nat} (pos : 0 < a) (lt : a < b) (le : b ≤ n) : a % n ≠ b % n := by
  rw [mod_of_le le, mod_of_le (by omega)]
  split <;> split <;> omega

/-- Numbers of 32 bits still tell all places of a text apart. -/
theorem place_ne_of_lt {bs : Bytes} (small : bs.length < UInt32.size) {j k : Nat} (hj : j < k)
    (hk : k ≤ bs.length) :
    (bs.lineAt j % UInt32.size, bs.columnAt j % UInt32.size) ≠
      (bs.lineAt k % UInt32.size, bs.columnAt k % UInt32.size) := by
  -- the line and the column are at most `k + 2` together, so neither is above the bound
  have sum := Bytes.lineAt_add_columnAt_le hk
  have line := bs.lineAt_pos
  have column := bs.columnAt_pos
  intro same
  obtain ⟨lines, columns⟩ := Prod.mk.inj same
  rcases Bytes.placeAt_before hj hk with earlier | ⟨-, earlier⟩
  · have bound : bs.lineAt k ≤ UInt32.size := by
      have := column k
      omega
    exact mod_ne_mod (line j) earlier bound lines
  · have bound : bs.columnAt k ≤ UInt32.size := by
      have := line k
      omega
    exact mod_ne_mod (column j) earlier bound columns

end LineTable

end CallAtlas
