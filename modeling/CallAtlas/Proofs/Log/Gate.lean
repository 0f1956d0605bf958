import CallAtlas.Log.Filter
import CallAtlas.Proofs.Table

/-! # A gate and its filter

A gate turns most entries away by its own level before the filter is asked. This changes nothing as
long as no tag has a lower level in the filter. Making a gate and giving it a filter take the least
level of the filter, so they lead to such a gate. Setting the level does not look at the tags that
the filter lists: a listed tag with a lower level than the one that is set loses the entries between
the two, until a filter is given again.
-/
namespace CallAtlas.Log

/-! ### Levels of a filter -/

namespace Filter

variable {f : Filter}

theorem le_rank_lower {n : Nat} {a b : Level} : n ≤ (lower a b).rank ↔ n ≤ a.rank ∧ n ≤ b.rank := by
  unfold lower
  split <;> omega

theorem le_rank_minLevel {n : Nat} :
    n ≤ f.minLevel.rank ↔ n ≤ f.default.rank ∧ ∀ e ∈ f.tags, n ≤ e.2.rank := by
  obtain ⟨default, tags⟩ := f
  unfold minLevel
  dsimp only
  -- the least level so far takes the place of the default
  induction tags generalizing default with
  | nil => simp
  | cons e tags ih =>
    rw [List.foldl_cons, ih, le_rank_lower, List.forall_mem_cons, and_assoc, and_left_comm]

/-- The tags stand in increasing order, each of them once. -/
def Listed (f : Filter) : Prop := Ordered.Increasing Bytes.order (f.tags.map Prod.fst)

theorem Listed.insert (h : f.Listed) (tag : Bytes) (level : Level) :
    Listed { f with tags := f.tags.insert tag level } := by
  rw [Listed, Table.keys_insert]
  exact Ordered.Increasing.insert h tag

theorem Listed.addItem (h : f.Listed) (item : Bytes) : (f.addItem item).Listed := by
  unfold Filter.addItem
  split
  · split
    · exact h
    · exact h.insert _ _
  · split
    · exact h
    · exact h.insert _ _

theorem listed_parse (f : Filter) (spec : Bytes) : (f.parse spec).Listed := by
  have fill (items : List Bytes) (f : Filter) (h : f.Listed) : (items.foldl addItem f).Listed := by
    induction items generalizing f with
    | nil => exact h
    | cons item items ih => exact ih _ (h.addItem item)
  exact fill _ _ List.Pairwise.nil

theorem Listed.threshold_eq (h : f.Listed) {e : Bytes × Level} (he : e ∈ f.tags) :
    f.threshold e.1 = e.2 := by
  rw [threshold, (Table.mem_iff_find? h).mp he]
  rfl

theorem threshold_eq_or (f : Filter) (tag : Bytes) :
    f.threshold tag = f.default ∨ (tag, f.threshold tag) ∈ f.tags := by
  unfold threshold
  cases found : f.tags.find? tag with
  | none => exact .inl rfl
  | some level => exact .inr (Table.mem_of_find? found)

end Filter

/-! ### Settings -/

/-- What sets a gate up anew or changes it. -/
inductive Setting where
  | make (level : Level) (spec : Bytes)
  | level (level : Level)
  | filter (spec : Bytes)
  deriving DecidableEq, Repr

namespace Gate

variable {g : Gate}

def change (g : Gate) : Setting → Gate
  | .make level spec => make level spec
  | .level level => g.setLevel level
  | .filter spec => g.setFilter spec

/-- The gate behind settings that follow each other, from the first gate on. -/
def after (settings : List Setting) : Gate := settings.foldl change {}

theorem after_append_singleton (before : List Setting) (s : Setting) :
    after (before ++ [s]) = (after before).change s := by
  simp [after]

/-- The gate turns no entry away that its filter accepts. -/
def Agrees (g : Gate) : Prop := ∀ level tag, g.accepts level tag = g.filter.accepts level tag

/-- What each setting keeps: the filter lists its tags in order, and its level for other tags is not
below the gate's. -/
structure Sound (g : Gate) : Prop where
  listed : g.filter.Listed
  level_le : g.level.rank ≤ g.filter.default.rank

theorem Sound.agrees_iff (h : g.Sound) :
    g.Agrees ↔ ∀ e ∈ g.filter.tags, g.level.rank ≤ e.2.rank := by
  constructor
  · intro agrees e he
    have kept : g.filter.accepts e.2 e.1 := by
      simp [Filter.accepts, h.listed.threshold_eq he, Level.reaches]
    have passed : g.accepts e.2 e.1 := (agrees e.2 e.1).trans kept
    exact of_decide_eq_true (Bool.and_eq_true_iff.mp passed).1
  · intro low level tag
    have least : g.level.rank ≤ (g.filter.threshold tag).rank := by
      rcases g.filter.threshold_eq_or tag with other | listed
      · rw [other]
        exact h.level_le
      · exact low _ listed
    have reaches (kept : g.filter.accepts level tag) : level.reaches g.level :=
      decide_eq_true (Nat.le_trans least (of_decide_eq_true kept))
    rw [accepts, Bool.and_eq_right_iff_imp]
    exact reaches

theorem Sound.level_le_iff (h : g.Sound) :
    g.level.rank ≤ g.filter.minLevel.rank ↔ ∀ e ∈ g.filter.tags, g.level.rank ≤ e.2.rank := by
  rw [Filter.le_rank_minLevel, and_iff_right h.level_le]

/-- A gate whose level is the least of its filter. -/
theorem sound_of_minLevel (listed : g.filter.Listed) (level : g.level = g.filter.minLevel) :
    g.Sound ∧ g.Agrees := by
  have least := Filter.le_rank_minLevel.mp (Nat.le_of_eq (congrArg Level.rank level))
  have sound : g.Sound := ⟨listed, least.1⟩
  exact ⟨sound, sound.agrees_iff.mpr least.2⟩

theorem sound_make (level : Level) (spec : Bytes) :
    (make level spec).Sound ∧ (make level spec).Agrees := by
  unfold make
  split
  · exact sound_of_minLevel List.Pairwise.nil rfl
  · exact sound_of_minLevel (Filter.listed_parse _ spec) rfl

theorem sound_setFilter (g : Gate) (spec : Bytes) :
    (g.setFilter spec).Sound ∧ (g.setFilter spec).Agrees :=
  sound_of_minLevel (g.filter.listed_parse spec) rfl

theorem Sound.setLevel (h : g.Sound) (level : Level) : (g.setLevel level).Sound :=
  ⟨h.listed, Nat.le_refl _⟩

theorem Sound.change (h : g.Sound) (s : Setting) : (g.change s).Sound := by
  cases s with
  | make level spec => exact (sound_make level spec).1
  | level level => exact h.setLevel level
  | filter spec => exact (sound_setFilter g spec).1

theorem sound_first : Sound {} ∧ Agrees {} := sound_of_minLevel List.Pairwise.nil rfl

theorem Sound.changes (h : g.Sound) (settings : List Setting) :
    (settings.foldl Gate.change g).Sound := by
  induction settings generalizing g with
  | nil => exact h
  | cons s settings ih => exact ih (Sound.change h s)

theorem sound_after (settings : List Setting) : (after settings).Sound :=
  sound_first.1.changes settings

end Gate

/-- After any settings, a gate agrees with its filter for all levels and tags just if its level is
not above the least level of the filter. It always does, but for one case: the last setting is a
level that is above the level of a tag listed at that time. -/
theorem gate_agrees_iff (settings : List Setting) :
    ((Gate.after settings).Agrees ↔
      (Gate.after settings).level.rank ≤ (Gate.after settings).filter.minLevel.rank) ∧
    ((Gate.after settings).Agrees ↔
      ∀ before level, settings = before ++ [.level level] →
        ∀ e ∈ (Gate.after before).filter.tags, level.rank ≤ e.2.rank) := by
  have sound := Gate.sound_after settings
  refine ⟨sound.agrees_iff.trans sound.level_le_iff.symm, ?_⟩
  rcases List.eq_nil_or_concat settings with rfl | ⟨before, s, rfl⟩
  · exact iff_of_true Gate.sound_first.2 (by simp)
  rw [List.concat_eq_append] at sound ⊢
  rw [Gate.after_append_singleton] at sound ⊢
  -- whatever is said of a last level is said of `s`
  have last (P : List Setting → Level → Prop) :
      (∀ before' level, before ++ [s] = before' ++ [.level level] → P before' level) ↔
        ∀ level, s = .level level → P before level := by
    constructor
    · intro h level hs
      exact h before level (by rw [hs])
    · intro h before' level hs
      obtain ⟨rfl, hl⟩ := List.append_inj' hs rfl
      exact h level (List.singleton_inj.mp hl)
  rw [last]
  cases s with
  | make level spec => exact iff_of_true (Gate.sound_make level spec).2 (by simp)
  | filter spec => exact iff_of_true (Gate.sound_setFilter _ spec).2 (by simp)
  | level level =>
    rw [sound.agrees_iff]
    simp [Gate.change, Gate.setLevel]

/-- A level that is set takes the entries below it from a tag that the filter lists. -/
theorem raised_level_hides_listed_tag : ¬ ∀ settings, (Gate.after settings).Agrees := by
  intro agrees
  have hidden := agrees [.make .info (text "extract=trace"), .level .error] .trace (text "extract")
  exact absurd hidden (by decide)

end CallAtlas.Log
