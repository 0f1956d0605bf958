import CallAtlas.Proofs.Grammar.Derivation
import CallAtlas.Proofs.Grammar.Reads

/-! # Arguments and elements are derived from their tokens

The parts of the grammar take as a parameter how to read the expressions inside them. If what is
read with the parameter is derived from its tokens, so are pairs, the entries between delimiters and
the arguments of a call.
-/
namespace CallAtlas.Grammar

/-- The tokens make up the phrase of a value. -/
abbrev Yields {α : Type} (phrase : α → Phrase) (ts : List Token) (v : α) : Prop :=
  Derives ts (phrase v)

/-! ### Separators around a phrase -/

theorem Derives.beforeAll {seps ts : List Token} {p : Phrase} (hs : ∀ s ∈ seps, Separates s)
    (h : Derives ts p) : Derives (seps ++ ts) p := by
  induction seps with
  | nil => exact h
  | cons s seps ih =>
    have rest := ih fun t ht => hs t (List.mem_cons_of_mem s ht)
    exact rest.before (hs s List.mem_cons_self)

theorem Derives.behindAll {seps ts : List Token} {p : Phrase} (hs : ∀ s ∈ seps, Separates s)
    (h : Derives ts p) : Derives (ts ++ seps) p := by
  induction seps generalizing ts with
  | nil => simpa using h
  | cons s seps ih =>
    have rest := ih (fun t ht => hs t (List.mem_cons_of_mem s ht))
      (h.behind (hs s List.mem_cons_self))
    simpa using rest

theorem separates_of_newline {ts : List Token} (h : ∀ t ∈ ts, t.kind = .newline) :
    ∀ t ∈ ts, Separates t := fun t ht => .inl (h t ht)

theorem Derives.ofLoosely {α : Type} {phrase : α → Phrase} {ts : List Token} {v : α}
    (h : Loosely (Yields phrase) ts v) : Derives ts (phrase v) := by
  obtain ⟨breaks, us, rfl, hb, hd⟩ := h
  exact hd.beforeAll (separates_of_newline hb)

theorem Reads.looselyYields {α : Type} {phrase : α → Phrase} {read : Reader α}
    (h : Reads read (Yields phrase)) : Reads (Grammar.loosely read) (Yields phrase) :=
  h.loosely.mono fun _ _ => Derives.ofLoosely

/-- Reading on behind an opening token that is there. -/
theorem Reads.behindToken {α : Type} {c : Cursor} {opening : Option (Parsed c Token)}
    {read : Reader α} {Q : List Token → α → Prop} (h : Reads read Q) {p : Parsed c α}
    (hp : behind opening read = .ok (some p)) :
    ∃ first, opening = some first ∧ ∃ ts, first.rest.Takes ts p.rest ∧ Q ts p.value := by
  unfold behind at hp
  split at hp
  · rename_i first
    obtain ⟨q, hq, he⟩ := map_eq_ok hp
    obtain rfl := Option.some.inj he
    exact ⟨first, rfl, h.andThen hq⟩
  · cases hp

theorem Derives.cons {ts us : List Token} {t : Tree} {vs : List Tree} (h : Derives ts (.term t))
    (h' : Derives us (.entries vs)) : Derives (ts ++ us) (.entries (t :: vs)) :=
  h.entry.append h'

/-- Terms that are read one behind the other. -/
theorem reads_many_entries {read : OptionReader Tree} (h : OptionReads read (Yields .term)) :
    MaybeReads (many read) fun ts vs => (vs = [] → ts = []) ∧ Derives ts (.entries vs) := by
  refine h.many ⟨fun _ => rfl, .noEntry⟩ ?_
  intro ts us v vs hv hvs
  exact ⟨by simp, hv.cons hvs.2⟩

theorem reads_closing (closer : Kind) :
    Reads (closing closer) fun ts t =>
      ∃ seps, ts = seps ++ [t] ∧ (∀ s ∈ seps, Separates s) ∧ t.kind = closer := by
  intro c p h
  unfold closing at h
  split at h
  · rename_i comma hc
    obtain ⟨breaks, first, hb, hk⟩ := takes_takeLoose hc
    obtain ⟨_, more, breaks', _, rfl, hb', rfl, hl⟩ := (reads_expect _ _).loosely.andThen h
    refine ⟨_, first.trans more, breaks ++ [comma.value] ++ breaks', by simp, ?_, hl⟩
    intro s hs
    simp only [List.mem_append, List.mem_singleton] at hs
    rcases hs with (hs | rfl) | hs
    · exact .inl (hb s hs)
    · exact .inr hk
    · exact .inl (hb' s hs)
  · obtain ⟨_, taken, breaks, _, rfl, hb, rfl, hl⟩ := (reads_expect _ _).loosely c p h
    exact ⟨_, taken, breaks, rfl, separates_of_newline hb, hl⟩

section Parts

variable {expr : Expr} (he : ∀ level blocks, Reads (expr level blocks) (Yields .term))

include he

/-! ### Pairs and entries -/

theorem reads_keywordPair (blocks : Bool) : Reads (keywordPair expr blocks) (Yields .term) := by
  intro c p h
  obtain ⟨key, hkey, h⟩ := bind_eq_ok h
  obtain ⟨value, hvalue, h⟩ := bind_eq_ok h
  obtain rfl := Except.ok.inj h
  obtain ⟨_, first, rfl, hk⟩ := reads_expect _ _ c key hkey
  obtain ⟨ts, more, hd⟩ := (he 0 blocks).andThen hvalue
  exact ⟨[key.value] ++ ts, first.trans more, hd.pair hk⟩

theorem reads_nextPair (blocks : Bool) : OptionReads (nextPair expr blocks) (Yields .term) := by
  intro c p h
  obtain ⟨comma, hc, ts, more, hd⟩ := (reads_keywordPair he blocks).behindToken h
  split at hc
  · obtain ⟨first, hk⟩ := Cursor.takes_take hc
    exact ⟨[comma.value] ++ ts, first.trans more, hd.before (.inr hk)⟩
  · cases hc

theorem reads_keywordList (blocks : Bool) : Reads (keywordList expr blocks) (Yields .term) := by
  intro c p h
  obtain ⟨pair, hpair, h⟩ := bind_eq_ok h
  obtain ⟨more, hmore, h⟩ := bind_eq_ok h
  obtain rfl := Except.ok.inj h
  obtain ⟨ts, first, hd⟩ := reads_keywordPair he blocks c pair hpair
  obtain ⟨us, rest, -, hds⟩ := (reads_many_entries (reads_nextPair he blocks)).andMaybe hmore
  exact ⟨ts ++ us, first.trans rest, (hd.cons hds).container (by simp)⟩

theorem reads_item (folds : Bool) : Reads (item expr folds) (Yields .term) := by
  intro c p h
  unfold item at h
  split at h
  · split at h
    · exact reads_keywordList he true c p h
    · exact reads_keywordPair he true c p h
  · exact he 0 true c p h

theorem reads_nextItem (closer : Kind) (folds : Bool) :
    OptionReads (nextItem expr closer folds) (Yields .term) := by
  intro c p h
  unfold nextItem at h
  split at h
  · rename_i comma hc
    split at h
    · cases h
    · obtain ⟨q, hq, hp⟩ := map_eq_ok h
      obtain rfl := Option.some.inj hp
      obtain ⟨breaks, first, hb, hk⟩ := takes_takeLoose hc
      obtain ⟨ts, more, hd⟩ := (reads_item he folds).looselyYields.andThen hq
      refine ⟨(breaks ++ [comma.value]) ++ ts, first.trans more, hd.beforeAll ?_⟩
      intro s hs
      rcases List.mem_append.mp hs with hs | hs
      · exact .inl (hb s hs)
      · exact .inr (by rw [List.mem_singleton.mp hs, hk])
  · cases h

/-- The entries behind an opening delimiter, with the closing one. -/
theorem reads_items {opening : Token} {closer : Kind} (folds : Bool)
    (delimits : ∀ last, last.kind = closer → Delimits opening last) :
    Reads (items expr closer folds) fun ts vs => Derives (opening :: ts) (.entries vs) := by
  intro c p h
  unfold items at h
  split at h
  · rename_i last hl
    obtain rfl := Except.ok.inj h
    obtain ⟨breaks, taken, hb, hk⟩ := takes_takeLoose hl
    refine ⟨breaks ++ [last.value], taken, ?_⟩
    have inside := Derives.noEntry.behindAll (separates_of_newline hb)
    simpa using inside.delimited (delimits _ hk)
  · obtain ⟨entry, hentry, h⟩ := bind_eq_ok h
    obtain ⟨more, hmore, h⟩ := bind_eq_ok h
    obtain ⟨last, hlast, h⟩ := bind_eq_ok h
    obtain rfl := Except.ok.inj h
    obtain ⟨ts, first, hd⟩ := (reads_item he folds).looselyYields c entry hentry
    obtain ⟨us, rest, -, hds⟩ :=
      (reads_many_entries (reads_nextItem he closer folds)).andMaybe hmore
    obtain ⟨_, close, seps, rfl, hs, hk⟩ := (reads_closing closer).andThen hlast
    refine ⟨ts ++ us ++ (seps ++ [last.value]), (first.trans rest).trans close, ?_⟩
    have inside := (hd.cons hds).behindAll hs
    simpa using inside.delimited (delimits _ hk)

/-! ### Arguments without delimiters -/

theorem reads_nextArgument (blocks : Bool) :
    OptionReads (nextArgument expr blocks) (Yields .term) := by
  intro c p h
  obtain ⟨comma, hc, ts, more, hd⟩ := (he 0 blocks).behindToken h
  split at hc
  · cases hc
  · obtain ⟨first, hk⟩ := Cursor.takes_take hc
    exact ⟨[comma.value] ++ ts, first.trans more, hd.before (.inr hk)⟩

theorem reads_moreArguments (blocks : Bool) :
    MaybeReads (moreArguments expr blocks) fun ts vs =>
      (vs = [] → ts = []) ∧ Derives ts (.entries vs) := by
  intro c p h
  obtain ⟨plain, hplain, h⟩ := bind_eq_ok h
  obtain ⟨ts, first, hd⟩ := reads_many_entries (reads_nextArgument he blocks) c plain hplain
  split at h
  · obtain rfl := Except.ok.inj h
    exact ⟨ts, first, hd⟩
  · rename_i comma hc
    obtain ⟨pairs, hpairs, h⟩ := bind_eq_ok h
    obtain rfl := Except.ok.inj h
    obtain ⟨mark, hk⟩ := Cursor.takes_take hc
    obtain ⟨us, more, hp⟩ := (reads_keywordList he blocks).andThen hpairs
    refine ⟨ts ++ ([comma.value] ++ us), first.trans (mark.trans more), ?_, ?_⟩
    · intro hv
      exact absurd hv (by simp [MaybeParsed.followedBy, Parsed.map, Parsed.maybe])
    · exact hd.2.append (hp.before (.inr hk)).entry

theorem reads_openArguments : Reads (openArguments expr) (Yields .entries) := by
  intro c p h
  unfold openArguments at h
  split at h
  · obtain ⟨pairs, hpairs, rfl⟩ := map_eq_ok h
    obtain ⟨ts, taken, hd⟩ := reads_keywordList he false c pairs hpairs
    exact ⟨ts, taken, hd.entry⟩
  · obtain ⟨argument, hargument, h⟩ := bind_eq_ok h
    obtain ⟨more, hmore, h⟩ := bind_eq_ok h
    obtain rfl := Except.ok.inj h
    obtain ⟨ts, first, hd⟩ := he 0 false c argument hargument
    obtain ⟨us, rest, -, hds⟩ := (reads_moreArguments he false).andMaybe hmore
    exact ⟨ts ++ us, first.trans rest, hd.cons hds⟩

theorem reads_arguments :
    MaybeReads (arguments? expr) fun ts a =>
      Derives ts (.entries ((a.map (·.values)).getD [])) ∧ (a = none → ts = []) := by
  intro c p h
  unfold arguments? at h
  split at h
  · rename_i opening ho
    obtain ⟨values, hvalues, h⟩ := bind_eq_ok h
    obtain rfl := Except.ok.inj h
    split at ho
    · cases ho
    · obtain ⟨first, hk⟩ := Cursor.takes_take ho
      have delimits : ∀ last : Token, last.kind = .rparen → Delimits opening.value last := by
        intro last hl
        simp [Delimits, hk, hl]
      obtain ⟨ts, more, hd⟩ := (reads_items he true delimits).andThen hvalues
      exact ⟨[opening.value] ++ ts, first.trans more, hd, fun hn => by cases hn⟩
  · split at h
    · obtain ⟨values, hvalues, h⟩ := bind_eq_ok h
      obtain rfl := Except.ok.inj h
      obtain ⟨ts, taken, hd⟩ := reads_openArguments he c values hvalues
      exact ⟨ts, taken, hd, fun hn => by cases hn⟩
    · obtain rfl := Except.ok.inj h
      exact ⟨[], .refl c, .noEntry, fun _ => rfl⟩

end Parts
end CallAtlas.Grammar
