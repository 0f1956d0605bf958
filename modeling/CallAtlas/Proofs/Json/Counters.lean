import CallAtlas.Proofs.Json.Machine
import CallAtlas.Proofs.Source

/-! # True counters

The invariant of the machine is that its counters are true. Each step keeps it, never takes a byte
that is not there, and either goes forward in the text or on to a task of a lower rank, so every run
ends.
-/
namespace CallAtlas.Json.Machine

/-! ### The invariant -/

/-- The offset is in the text or at its end, and the line and the column are those of the offset. -/
structure Place.Counted (t : Bytes) (p : Place) : Prop where
  offset_le : p.offset ≤ t.length
  line_eq : p.line = t.lineAt p.offset
  column_eq : p.column = t.columnAt p.offset

namespace Place

variable {t : Bytes} {p : Place}

theorem counted_start (t : Bytes) : Counted t {} := ⟨Nat.zero_le _, rfl, rfl⟩

@[simp] theorem offset_past (p : Place) (b : UInt8) : (p.past b).offset = p.offset + 1 := by
  unfold past
  split <;> rfl

theorem Counted.past (h : p.Counted t) {b : UInt8} (hb : t[p.offset]? = some b) :
    (p.past b).Counted t := by
  obtain ⟨inside, -⟩ := List.getElem?_eq_some_iff.mp hb
  constructor
  · rw [offset_past]
    exact inside
  · rw [offset_past, Bytes.lineAt_succ hb, ← h.line_eq]
    unfold Place.past
    split <;> rfl
  · rw [offset_past, Bytes.columnAt_succ hb, ← h.column_eq]
    unfold Place.past
    split <;> rfl

/-- What is seen at the end is zero, so where something else is seen there is a byte. -/
theorem inside_of_peek (q : UInt8 → Bool) (zero : ¬ q 0) (h : q (p.peek t)) :
    p.offset < t.length := by
  refine Nat.lt_of_not_le fun beyond => zero ?_
  rwa [peek, List.getD_eq_getElem?_getD, List.getElem?_eq_none beyond] at h

theorem inside_of_peek_eq {b : UInt8} (solid : b ≠ 0) (h : p.peek t = b) : p.offset < t.length :=
  inside_of_peek (· == b) (by simpa using solid.symm) (by simpa using h)

theorem inside_of_not_atEnd (h : ¬ p.atEnd t) : p.offset < t.length := by
  simpa [atEnd] using h

end Place

namespace Task

/-- The number of containers that the task itself is inside of. -/
def inside : Task → Nat
  | opened _ | first _ | key _ | colon _ _ | next _ => 1
  | string role _ | escape role _ | unicode role _ _ _ =>
    match role with
    | .value => 0
    | .key _ => 1
  | _ => 0

/-- A container that has been counted may still be one too many. -/
def excess : Task → Nat
  | opened _ => 1
  | _ => 0

theorem excess_le (task : Task) : task.excess ≤ 1 := by cases task <;> simp [excess]

/-- What is known to be ahead: the bracket of a container and the rest of a word are taken without
looking at them again. -/
def Ready (rest : Bytes) : Task → Prop
  | opened _ => rest ≠ []
  | word bytes _ => bytes <+: rest ∧ ('\n' : UInt8) ∉ bytes
  | _ => True

/-- Tasks that may follow without a byte being taken have a lower rank. -/
def rank : Task → Nat
  | done _ => 0
  | opened _ | key _ | colon _ _ | next _ | string _ _ | escape _ _ => 1
  | unicode _ _ _ _ | word _ _ | exponent _ _ _ => 2
  | mark _ | sign _ => 3
  | whole _ _ | fraction _ _ => 4
  | value => 5
  | first _ => 6
  | start => 7

theorem rank_le (task : Task) : task.rank ≤ 7 := by cases task <;> simp [rank]

end Task

/-- The number of containers that are open. -/
def State.containers (s : State) : Nat := s.outer.length + s.task.inside

/-- The counters of a state are true. -/
structure State.Sound (t : Bytes) (s : State) : Prop where
  counted : s.place.Counted t
  depth_eq : s.depth = s.containers
  depth_le : s.depth ≤ maxDepth + s.task.excess
  ready : s.task.Ready (t.drop s.place.offset)

/-! ### One step -/

/-- One state is further on than another: in the text, or at the same place in rank. -/
def State.Ahead (s s' : State) : Prop :=
  s.place.offset < s'.place.offset ∨
    s.place.offset = s'.place.offset ∧ s'.task.rank < s.task.rank

/-- An error is about a place of the text. -/
def Located (t : Bytes) (e : Error) : Prop :=
  ∃ k ≤ t.length, e.line = t.lineAt k ∧ e.column = t.columnAt k

/-- What may follow a state: a sound state further on, a result, or an error about a place of the
text. -/
def Outcome.Follows (t : Bytes) (s : State) : Outcome → Prop
  | .on s' => s'.Sound t ∧ s.Ahead s'
  | .finished _ => True
  | .failed e => Located t e
  | .overrun => False

section Step

variable {t : Bytes} {s s' : State}

theorem follows_fail (h : s'.place.Counted t) (fault : Fault) : (s'.fail fault).Follows t s :=
  ⟨s'.place.offset, h.offset_le, h.line_eq, h.column_eq⟩

/-- A byte that is there can be taken. -/
theorem follows_take (h : s'.place.Counted t) (inside : s'.place.offset < t.length)
    {next : UInt8 → State → Outcome}
    (hn : ∀ b p, p.Counted t → p.offset = s'.place.offset + 1 → t[s'.place.offset]? = some b →
      (next b { s' with place := p }).Follows t s) : (s'.take t next).Follows t s := by
  have byte := List.getElem?_eq_getElem inside
  unfold State.take
  rw [byte]
  exact hn _ _ (h.past byte) (Place.offset_past _ _) byte

theorem follows_goTo {task : Task} (counted : s'.place.Counted t)
    (depth : s'.depth = s'.outer.length + task.inside) (le : s'.depth ≤ maxDepth + task.excess)
    (ready : task.Ready (t.drop s'.place.offset)) (ahead : s.Ahead { s' with task }) :
    (s'.goTo task).Follows t s :=
  ⟨⟨counted, depth, le, ready⟩, ahead⟩

theorem follows_takeTo {task : Task} (counted : s.place.Counted t)
    (inside : s.place.offset < t.length) (depth : s.depth = s.outer.length + task.inside)
    (le : s.depth ≤ maxDepth + task.excess) (ready : task.Ready (t.drop (s.place.offset + 1))) :
    (s.takeTo t task).Follows t s := by
  refine follows_take counted inside fun b p hp moved _ => ?_
  refine follows_goTo hp depth le ?_ (.inl ?_)
  · rwa [moved]
  · exact Nat.lt_of_lt_of_eq (Nat.lt_succ_self _) moved.symm

theorem follows_deliver {v : Value} (counted : s'.place.Counted t)
    (depth : s'.depth = s'.outer.length) (le : s'.depth ≤ maxDepth)
    (ahead : s.place.offset < s'.place.offset ∨
      s.place.offset = s'.place.offset ∧ 1 < s.task.rank) :
    (s'.deliver v).Follows t s := by
  obtain ⟨place, n, outer, task⟩ := s'
  cases outer with
  | nil =>
    refine follows_goTo counted depth le trivial (ahead.imp_right fun same => ⟨same.1, ?_⟩)
    exact Nat.lt_trans Nat.one_pos same.2
  | cons context outer => exact follows_goTo counted depth le trivial ahead

theorem follows_entry (container : Container) (counted : s'.place.Counted t)
    (depth : s'.depth = s'.outer.length + 1) (le : s'.depth ≤ maxDepth)
    (ahead : s.place.offset < s'.place.offset ∨
      s.place.offset = s'.place.offset ∧ 5 < s.task.rank) :
    (s'.entry container).Follows t s := by
  cases container with
  | array items => exact follows_goTo counted depth le trivial ahead
  | object members =>
    refine follows_goTo counted depth le trivial (ahead.imp_right fun same => ⟨same.1, ?_⟩)
    exact Nat.lt_trans (by decide : 1 < 5) same.2

theorem follows_leave (container : Container) (counted : s'.place.Counted t)
    (depth : s'.depth = s'.outer.length + 1) (le : s'.depth ≤ maxDepth)
    (moved : s.place.offset < s'.place.offset) : (s'.leave container).Follows t s := by
  refine follows_deliver counted ?_ ?_ (.inl moved)
  · dsimp only
    omega
  · dsimp only
    omega

theorem follows_endString (role : Role) (bytes : Bytes) (counted : s'.place.Counted t)
    (depth : s'.depth = s'.outer.length + (Task.string role bytes).inside)
    (le : s'.depth ≤ maxDepth) (moved : s.place.offset < s'.place.offset) :
    (s'.endString bytes role).Follows t s := by
  cases role with
  | value => exact follows_deliver counted depth le (.inl moved)
  | key members => exact follows_goTo counted depth le trivial (.inl moved)

end Step

theorem inside_of_close {t : Bytes} {p : Place} {container : Container}
    (h : p.peek t = container.close) : p.offset < t.length :=
  Place.inside_of_peek_eq container.close_ne_zero h

/-- A word that is found is ahead, on one line. -/
theorem prefix_of_word? {rest word : Bytes} {v : Value} (h : word? rest = some (word, v)) :
    word <+: rest ∧ ('\n' : UInt8) ∉ word := by
  have starts := List.find?_some h
  obtain ⟨w, listed, eq⟩ := List.mem_map.mp (List.mem_of_find?_eq_some h)
  have solid : ∀ w ∈ words, ('\n' : UInt8) ∉ w.1 :: w.2.1 := by decide
  obtain ⟨rfl, -⟩ := Prod.mk.inj eq
  exact ⟨List.isPrefixOf_iff_prefix.mp starts, solid w listed⟩

section Tasks

variable {t : Bytes} {place : Place} {depth : Nat} {outer : List Context}
  (counted : place.Counted t)

include counted

/-- The tasks that may have blanks before them. -/
theorem follows_pastBlanks {task : Task} {behind : Outcome}
    (eq : depth = outer.length + task.inside) (le : depth ≤ maxDepth + task.excess)
    (free : ∀ rest, task.Ready rest) (hb : behind.Follows t ⟨place, depth, outer, task⟩) :
    (if Cursor.isBlank (place.peek t) then State.takeTo ⟨place, depth, outer, task⟩ t task
      else behind).Follows t ⟨place, depth, outer, task⟩ := by
  split
  · rename_i blank
    exact follows_takeTo counted (Place.inside_of_peek Cursor.isBlank (by decide) blank) eq le
      (free _)
  · exact hb

theorem follows_value (eq : depth = outer.length) (le : depth ≤ maxDepth) :
    (step t ⟨place, depth, outer, .value⟩).Follows t ⟨place, depth, outer, .value⟩ := by
  refine follows_pastBlanks counted eq le (fun _ => trivial) ?_
  split
  · exact follows_fail counted _
  rename_i there
  have inside := Place.inside_of_not_atEnd there
  have ahead : t.drop place.offset ≠ [] := by simpa using inside
  -- a container that is one too many is refused only when it is opened
  have counts : depth + 1 = outer.length + 1 := by omega
  have bound : depth + 1 ≤ maxDepth + 1 := by omega
  split
  · exact follows_goTo counted counts bound ahead (.inr ⟨rfl, (by decide : 1 < 5)⟩)
  split
  · exact follows_goTo counted counts bound ahead (.inr ⟨rfl, (by decide : 1 < 5)⟩)
  split
  · exact follows_takeTo counted inside eq le trivial
  split
  · exact follows_takeTo counted inside eq le trivial
  split
  · exact follows_goTo counted eq le trivial (.inr ⟨rfl, (by decide : 4 < 5)⟩)
  split
  · rename_i word v found
    exact follows_goTo counted eq le (prefix_of_word? found) (.inr ⟨rfl, (by decide : 2 < 5)⟩)
  · exact follows_fail counted _

theorem follows_opened (container : Container) (eq : depth = outer.length + 1)
    (inside : place.offset < t.length) :
    (step t ⟨place, depth, outer, .opened container⟩).Follows t
      ⟨place, depth, outer, .opened container⟩ := by
  unfold step
  dsimp only
  split
  · exact follows_fail counted _
  · rename_i shallow
    exact follows_takeTo counted inside eq (Nat.le_of_not_lt shallow) trivial

theorem follows_first (container : Container) (eq : depth = outer.length + 1)
    (le : depth ≤ maxDepth) :
    (step t ⟨place, depth, outer, .first container⟩).Follows t
      ⟨place, depth, outer, .first container⟩ := by
  refine follows_pastBlanks counted eq le (fun _ => trivial) ?_
  split
  · rename_i closing
    refine follows_take counted (inside_of_close closing) fun b p hp moved _ => ?_
    exact follows_leave container hp eq le (Nat.lt_of_lt_of_eq (Nat.lt_succ_self _) moved.symm)
  · exact follows_entry container counted eq le (.inr ⟨rfl, (by decide : 5 < 6)⟩)

theorem follows_key (members : List (Bytes × Value)) (eq : depth = outer.length + 1)
    (le : depth ≤ maxDepth) :
    (step t ⟨place, depth, outer, .key members⟩).Follows t
      ⟨place, depth, outer, .key members⟩ := by
  refine follows_pastBlanks counted eq le (fun _ => trivial) ?_
  split
  · rename_i quote
    exact follows_takeTo counted (Place.inside_of_peek_eq (by decide) quote) eq le trivial
  · exact follows_fail counted _

theorem follows_colon (members : List (Bytes × Value)) (key : Bytes)
    (eq : depth = outer.length + 1) (le : depth ≤ maxDepth) :
    (step t ⟨place, depth, outer, .colon members key⟩).Follows t
      ⟨place, depth, outer, .colon members key⟩ := by
  refine follows_pastBlanks counted eq le (fun _ => trivial) ?_
  split
  · rename_i colon
    refine follows_take counted (Place.inside_of_peek_eq (by decide) colon) fun b p hp moved _ => ?_
    exact follows_goTo hp eq le trivial
      (.inl (Nat.lt_of_lt_of_eq (Nat.lt_succ_self _) moved.symm))
  · exact follows_fail counted _

theorem follows_next (container : Container) (eq : depth = outer.length + 1)
    (le : depth ≤ maxDepth) :
    (step t ⟨place, depth, outer, .next container⟩).Follows t
      ⟨place, depth, outer, .next container⟩ := by
  refine follows_pastBlanks counted eq le (fun _ => trivial) ?_
  split
  · rename_i comma
    refine follows_take counted (Place.inside_of_peek_eq (by decide) comma) fun b p hp moved _ => ?_
    exact follows_entry container hp eq le
      (.inl (Nat.lt_of_lt_of_eq (Nat.lt_succ_self _) moved.symm))
  split
  · rename_i closing
    refine follows_take counted (inside_of_close closing) fun b p hp moved _ => ?_
    exact follows_leave container hp eq le (Nat.lt_of_lt_of_eq (Nat.lt_succ_self _) moved.symm)
  · exact follows_fail counted _

/-- The tasks inside of a string: at the end of the text they fail, and else they take a byte. -/
theorem follows_inString {task : Task} (fault : Fault) {next : UInt8 → State → Outcome}
    (hn : ∀ b p, p.Counted t → place.offset < p.offset →
      (next b ⟨p, depth, outer, task⟩).Follows t ⟨place, depth, outer, task⟩) :
    (if place.atEnd t then State.fail ⟨place, depth, outer, task⟩ fault
      else State.take ⟨place, depth, outer, task⟩ t next).Follows t
        ⟨place, depth, outer, task⟩ := by
  split
  · exact follows_fail counted _
  · rename_i there
    refine follows_take counted (Place.inside_of_not_atEnd there) fun b p hp moved _ => ?_
    exact hn b p hp (Nat.lt_of_lt_of_eq (Nat.lt_succ_self _) moved.symm)

theorem follows_string (role : Role) (bytes : Bytes)
    (eq : depth = outer.length + (Task.string role bytes).inside) (le : depth ≤ maxDepth) :
    (step t ⟨place, depth, outer, .string role bytes⟩).Follows t
      ⟨place, depth, outer, .string role bytes⟩ := by
  refine follows_inString counted _ fun b p hp moved => ?_
  split
  · exact follows_endString role bytes hp eq le moved
  split
  · exact follows_fail hp _
  split
  · exact follows_goTo hp eq le trivial (.inl moved)
  · exact follows_goTo hp eq le trivial (.inl moved)

theorem follows_escape (role : Role) (bytes : Bytes)
    (eq : depth = outer.length + (Task.escape role bytes).inside) (le : depth ≤ maxDepth) :
    (step t ⟨place, depth, outer, .escape role bytes⟩).Follows t
      ⟨place, depth, outer, .escape role bytes⟩ := by
  refine follows_inString counted _ fun b p hp moved => ?_
  split
  · exact follows_goTo hp eq le trivial (.inl moved)
  split
  · exact follows_goTo hp eq le trivial (.inl moved)
  · exact follows_fail hp _

theorem follows_unicode (role : Role) (bytes : Bytes) (digits value : Nat)
    (eq : depth = outer.length + (Task.unicode role bytes digits value).inside)
    (le : depth ≤ maxDepth) :
    (step t ⟨place, depth, outer, .unicode role bytes digits value⟩).Follows t
      ⟨place, depth, outer, .unicode role bytes digits value⟩ := by
  cases digits with
  | zero => exact follows_goTo counted eq le trivial (.inr ⟨rfl, (by decide : 1 < 2)⟩)
  | succ digits =>
    refine follows_inString counted _ fun b p hp moved => ?_
    split
    · exact follows_fail hp _
    · exact follows_goTo hp eq le trivial (.inl moved)

theorem follows_word (bytes : Bytes) (v : Value) (eq : depth = outer.length) (le : depth ≤ maxDepth)
    (ready : (Task.word bytes v).Ready (t.drop place.offset)) :
    (step t ⟨place, depth, outer, .word bytes v⟩).Follows t
      ⟨place, depth, outer, .word bytes v⟩ := by
  cases bytes with
  | nil => exact follows_deliver counted eq le (.inr ⟨rfl, (by decide : 1 < 2)⟩)
  | cons b bytes =>
    obtain ⟨⟨rest, there⟩, solid⟩ := ready
    have inside : place.offset < t.length := by
      have length := congrArg List.length there
      simp only [List.length_append, List.length_cons, List.length_drop] at length
      omega
    refine follows_takeTo counted inside eq le ⟨⟨rest, ?_⟩, fun h => solid (.tail _ h)⟩
    rw [List.drop_eq_getElem_cons inside] at there
    exact (List.cons.inj there).2

/-- A digit is taken, and behind the digits, if there is one, something else is done. -/
theorem follows_digits {task : Task} (again : Bytes → Task) (run : Bytes) (fault : Fault)
    {behind : Outcome} (eq : depth = outer.length) (le : depth ≤ maxDepth)
    (same : ∀ run, (again run).inside = 0 ∧ ∀ rest, (again run).Ready rest)
    (hb : behind.Follows t ⟨place, depth, outer, task⟩) :
    (if Bytes.isDigit (place.peek t) then
        State.takeTo ⟨place, depth, outer, task⟩ t (again (run ++ [place.peek t]))
      else if run = [] then State.fail ⟨place, depth, outer, task⟩ fault
      else behind).Follows t ⟨place, depth, outer, task⟩ := by
  split
  · rename_i digit
    refine follows_takeTo counted (Place.inside_of_peek Bytes.isDigit (by decide) digit) ?_ ?_
      ((same _).2 _)
    · rw [(same _).1]
      exact eq
    · exact Nat.le_add_right_of_le le
  split
  · exact follows_fail counted _
  · exact hb

theorem follows_whole (negative : Bool) (run : Bytes) (eq : depth = outer.length)
    (le : depth ≤ maxDepth) :
    (step t ⟨place, depth, outer, .whole negative run⟩).Follows t
      ⟨place, depth, outer, .whole negative run⟩ := by
  refine follows_digits counted (.whole negative) run _ eq le (fun _ => ⟨rfl, fun _ => trivial⟩) ?_
  split
  · rename_i point
    exact follows_takeTo counted (Place.inside_of_peek_eq (by decide) point) eq le trivial
  · exact follows_goTo counted eq le trivial (.inr ⟨rfl, (by decide : 3 < 4)⟩)

theorem follows_fraction (n : Numeral) (run : Bytes) (eq : depth = outer.length)
    (le : depth ≤ maxDepth) :
    (step t ⟨place, depth, outer, .fraction n run⟩).Follows t
      ⟨place, depth, outer, .fraction n run⟩ := by
  refine follows_digits counted (.fraction n) run _ eq le (fun _ => ⟨rfl, fun _ => trivial⟩) ?_
  exact follows_goTo counted eq le trivial (.inr ⟨rfl, (by decide : 3 < 4)⟩)

theorem follows_mark (n : Numeral) (eq : depth = outer.length) (le : depth ≤ maxDepth) :
    (step t ⟨place, depth, outer, .mark n⟩).Follows t ⟨place, depth, outer, .mark n⟩ := by
  unfold step
  dsimp only
  split
  · rename_i mark
    have inside : place.offset < t.length :=
      mark.elim (Place.inside_of_peek_eq (by decide)) (Place.inside_of_peek_eq (by decide))
    exact follows_takeTo counted inside eq le trivial
  · exact follows_deliver counted eq le (.inr ⟨rfl, (by decide : 1 < 3)⟩)

theorem follows_sign (n : Numeral) (eq : depth = outer.length) (le : depth ≤ maxDepth) :
    (step t ⟨place, depth, outer, .sign n⟩).Follows t ⟨place, depth, outer, .sign n⟩ := by
  unfold step
  dsimp only
  split
  · rename_i sign
    have inside : place.offset < t.length :=
      sign.elim (Place.inside_of_peek_eq (by decide)) (Place.inside_of_peek_eq (by decide))
    exact follows_takeTo counted inside eq le trivial
  · exact follows_goTo counted eq le trivial (.inr ⟨rfl, (by decide : 2 < 3)⟩)

theorem follows_exponent (n : Numeral) (negative : Bool) (run : Bytes) (eq : depth = outer.length)
    (le : depth ≤ maxDepth) :
    (step t ⟨place, depth, outer, .exponent n negative run⟩).Follows t
      ⟨place, depth, outer, .exponent n negative run⟩ := by
  refine follows_digits counted (.exponent n negative) run _ eq le
    (fun _ => ⟨rfl, fun _ => trivial⟩) ?_
  exact follows_deliver counted eq le (.inr ⟨rfl, (by decide : 1 < 2)⟩)

theorem follows_start (eq : depth = outer.length) (le : depth ≤ maxDepth) :
    (step t ⟨place, depth, outer, .start⟩).Follows t ⟨place, depth, outer, .start⟩ := by
  refine follows_pastBlanks counted eq le (fun _ => trivial) ?_
  split
  · exact follows_fail counted _
  · exact follows_goTo counted eq le trivial (.inr ⟨rfl, (by decide : 5 < 7)⟩)

theorem follows_done (v : Value) (eq : depth = outer.length) (le : depth ≤ maxDepth) :
    (step t ⟨place, depth, outer, .done v⟩).Follows t ⟨place, depth, outer, .done v⟩ := by
  refine follows_pastBlanks counted eq le (fun _ => trivial) ?_
  split
  · trivial
  · exact follows_fail counted _

end Tasks

/-- Each step keeps the counters true, goes on, and takes no byte that is not there. -/
theorem State.Sound.follows {t : Bytes} {s : State} (h : s.Sound t) : (step t s).Follows t s := by
  obtain ⟨place, depth, outer, task⟩ := s
  obtain ⟨counted, eq, le, ready⟩ := h
  cases task with
  | start => exact follows_start counted eq le
  | value => exact follows_value counted eq le
  | opened container =>
    have inside : place.offset < t.length := by simpa [Task.Ready] using ready
    exact follows_opened counted container eq inside
  | first container => exact follows_first counted container eq le
  | key members => exact follows_key counted members eq le
  | colon members key => exact follows_colon counted members key eq le
  | next container => exact follows_next counted container eq le
  | string role bytes => exact follows_string counted role bytes eq le
  | escape role bytes => exact follows_escape counted role bytes eq le
  | unicode role bytes digits value => exact follows_unicode counted role bytes digits value eq le
  | word bytes v => exact follows_word counted bytes v eq le ready
  | whole negative run => exact follows_whole counted negative run eq le
  | fraction n run => exact follows_fraction counted n run eq le
  | mark n => exact follows_mark counted n eq le
  | sign n => exact follows_sign counted n eq le
  | exponent n negative run => exact follows_exponent counted n negative run eq le
  | done v => exact follows_done counted v eq le

/-! ### Runs -/

theorem sound_start (t : Bytes) : State.Sound t {} where
  counted := Place.counted_start t
  depth_eq := rfl
  depth_le := Nat.zero_le _
  ready := trivial

theorem Reached.sound {t : Bytes} {s : State} (h : Reached t s) : s.Sound t := by
  induction h with
  | start => exact sound_start t
  | step _ hstep ih =>
    have follows := ih.follows
    rw [hstep] at follows
    exact follows.1

/-- More than the number of steps that are left: eight for each byte, and the rank of the task. -/
def State.measure (t : Bytes) (s : State) : Nat := 8 * (t.length - s.place.offset) + s.task.rank

theorem State.Ahead.measure_lt {t : Bytes} {s s' : State} (h : s.Ahead s')
    (le : s'.place.offset ≤ t.length) : s'.measure t < s.measure t := by
  have rank := s'.task.rank_le
  unfold State.measure
  rcases h with forward | ⟨same, lower⟩
  · omega
  · omega

/-- What a run may lead to: a sound state, a result, or an error about a place of the text. -/
def Outcome.Safe (t : Bytes) : Outcome → Prop
  | .on s => s.Sound t
  | .finished _ => True
  | .failed e => Located t e
  | .overrun => False

theorem Outcome.Follows.safe {t : Bytes} {s : State} {o : Outcome} (h : o.Follows t s) :
    o.Safe t := by
  cases o with
  | on s' => exact h.1
  | finished v => trivial
  | failed e => exact h
  | overrun => exact h

theorem State.Sound.safe_run {t : Bytes} {s : State} (h : s.Sound t) (n : Nat) :
    (run t n s).Safe t := by
  induction n generalizing s with
  | zero => exact h
  | succ n ih =>
    have follows := h.follows
    rw [run]
    split
    · rename_i s' hstep
      rw [hstep] at follows
      exact ih follows.1
    · exact follows.safe

end CallAtlas.Json.Machine
