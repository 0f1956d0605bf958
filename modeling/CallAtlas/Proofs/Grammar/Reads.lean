import CallAtlas.Grammar.Cursor
import CallAtlas.Proofs.Except

/-! # What a read takes from the token list

A successful read takes the tokens at the front of the list and leaves the others. `Reads read Q`
says that it does so in all cases and that the tokens it takes and the value it gives are related by
`Q`. Reads that are put together with the operations of `Cursor` take the tokens of their parts, one
behind the other, and a loop keeps a relation that each round keeps.
-/
namespace CallAtlas.Grammar

section Values

variable {c : Cursor} {α β : Type}

@[simp] theorem Parsed.value_map (p : Parsed c α) (f : α → β) : (p.map f).value = f p.value := rfl

@[simp] theorem MaybeParsed.value_map (p : MaybeParsed c α) (f : α → β) :
    (p.map f).value = f p.value := rfl

@[simp] theorem Parsed.value_followedBy (p : Parsed c α) (q : Parsed p.rest β) :
    (p.followedBy q).value = q.value := rfl

@[simp] theorem MaybeParsed.value_followedBy (p : MaybeParsed c α) (q : MaybeParsed p.rest β) :
    (p.followedBy q).value = q.value := rfl

end Values

/-! ### Tokens -/

/-- Two cursors into one list, between which lie the tokens `ts`. -/
def Cursor.Takes (c : Cursor) (ts : List Token) (d : Cursor) : Prop :=
  c.rest = ts ++ d.rest ∧ d.last = c.last

namespace Cursor

variable {c d e : Cursor} {ts us : List Token}

theorem Takes.refl (c : Cursor) : c.Takes [] c := ⟨rfl, rfl⟩

theorem Takes.trans (h : c.Takes ts d) (h' : d.Takes us e) : c.Takes (ts ++ us) e := by
  refine ⟨?_, h'.2.trans h.2⟩
  rw [h.1, h'.1, List.append_assoc]

theorem takes_next {p : Parsed c Token} (h : c.next? = some p) : c.Takes [p.value] p.rest := by
  unfold next? at h
  split at h
  · cases h
  · split at h
    · cases h
    · rename_i hrest _
      cases h
      exact ⟨hrest, rfl⟩

theorem peek_of_next {p : Parsed c Token} (h : c.next? = some p) : c.peek = p.value := by
  rw [peek, (takes_next h).1]
  rfl

theorem takes_takeIf {q : Kind → Bool} {p : Parsed c Token} (h : c.takeIf? q = some p) :
    c.Takes [p.value] p.rest ∧ q p.value.kind := by
  unfold takeIf? at h
  split at h
  · rename_i hq
    exact ⟨takes_next h, peek_of_next h ▸ hq⟩
  · cases h

theorem takes_take {kind : Kind} {p : Parsed c Token} (h : c.take? kind = some p) :
    c.Takes [p.value] p.rest ∧ p.value.kind = kind := by
  obtain ⟨taken, hk⟩ := takes_takeIf h
  exact ⟨taken, beq_iff_eq.mp hk⟩

theorem takes_skipNewlines (c : Cursor) :
    ∃ ts, c.Takes ts c.skipNewlines ∧ ∀ t ∈ ts, t.kind = .newline := by
  fun_induction skipNewlines c with
  | case1 c t c₁ _ h ih =>
    obtain ⟨ts, taken, hts⟩ := ih
    obtain ⟨first, hk⟩ := takes_take h
    refine ⟨t :: ts, first.trans taken, ?_⟩
    intro u hu
    rcases List.mem_cons.mp hu with rfl | hu
    · exact hk
    · exact hts u hu
  | case2 c _ => exact ⟨[], .refl c, by simp⟩

end Cursor

/-! ### Reads -/

section Reads

variable {α β : Type}

/-- Whatever is read with `read`, the tokens taken and the value are related by `Q`. -/
def Reads (read : Reader α) (Q : List Token → α → Prop) : Prop :=
  ∀ c p, read c = .ok p → ∃ ts, c.Takes ts p.rest ∧ Q ts p.value

/-- The same for reads that may take no token. -/
def MaybeReads (read : MaybeReader α) (Q : List Token → α → Prop) : Prop :=
  ∀ c p, read c = .ok p → ∃ ts, c.Takes ts p.rest ∧ Q ts p.value

/-- The same for reads of what may not be there. -/
def OptionReads (read : OptionReader α) (Q : List Token → α → Prop) : Prop :=
  ∀ c p, read c = .ok (some p) → ∃ ts, c.Takes ts p.rest ∧ Q ts p.value

variable {c : Cursor} {Q R : List Token → β → Prop}

theorem Reads.mono {read : Reader β} (h : Reads read Q) (weaker : ∀ ts v, Q ts v → R ts v) :
    Reads read R := by
  intro c p hp
  obtain ⟨ts, taken, hq⟩ := h c p hp
  exact ⟨ts, taken, weaker ts p.value hq⟩

theorem OptionReads.mono {read : OptionReader β} (h : OptionReads read Q)
    (weaker : ∀ ts v, Q ts v → R ts v) : OptionReads read R := by
  intro c p hp
  obtain ⟨ts, taken, hq⟩ := h c p hp
  exact ⟨ts, taken, weaker ts p.value hq⟩

theorem Reads.andThen {read : Reader β} (h : Reads read Q) {p : Parsed c α} {q : Parsed c β}
    (hq : p.andThen read = .ok q) : ∃ ts, p.rest.Takes ts q.rest ∧ Q ts q.value := by
  obtain ⟨r, hr, rfl⟩ := map_eq_ok hq
  exact h p.rest r hr

theorem Reads.behindMaybe {read : Reader β} (h : Reads read Q) {p : MaybeParsed c α}
    {q : Parsed c β} (hq : p.andThen read = .ok q) :
    ∃ ts, p.rest.Takes ts q.rest ∧ Q ts q.value := by
  obtain ⟨r, hr, rfl⟩ := map_eq_ok hq
  exact h p.rest r hr

theorem MaybeReads.andMaybe {read : MaybeReader β} (h : MaybeReads read Q) {p : Parsed c α}
    {q : Parsed c β} (hq : p.andMaybe read = .ok q) :
    ∃ ts, p.rest.Takes ts q.rest ∧ Q ts q.value := by
  obtain ⟨r, hr, rfl⟩ := map_eq_ok hq
  exact h p.rest r hr

theorem MaybeReads.behindMaybe {read : MaybeReader β} (h : MaybeReads read Q)
    {p : MaybeParsed c α} {q : MaybeParsed c β} (hq : p.andMaybe read = .ok q) :
    ∃ ts, p.rest.Takes ts q.rest ∧ Q ts q.value := by
  obtain ⟨r, hr, rfl⟩ := map_eq_ok hq
  exact h p.rest r hr

/-! ### Tokens of a kind -/

theorem reads_expect (kind : Kind) (needed : Expectation) :
    Reads (Cursor.expect kind needed) fun ts t => ts = [t] ∧ t.kind = kind := by
  intro c p h
  unfold Cursor.expect at h
  split at h
  · rename_i q hq
    cases h
    obtain ⟨taken, hk⟩ := Cursor.takes_take hq
    exact ⟨[p.value], taken, rfl, hk⟩
  · cases h

/-- The tokens of a read with the line breaks before them. -/
def Loosely (Q : List Token → α → Prop) (ts : List Token) (v : α) : Prop :=
  ∃ breaks us, ts = breaks ++ us ∧ (∀ t ∈ breaks, t.kind = .newline) ∧ Q us v

theorem Reads.loosely {read : Reader β} (h : Reads read Q) :
    Reads (loosely read) (Loosely Q) := by
  intro c p hp
  obtain ⟨breaks, skipped, hb⟩ := c.takes_skipNewlines
  obtain ⟨ts, taken, hq⟩ := h.behindMaybe hp
  exact ⟨breaks ++ ts, skipped.trans taken, breaks, ts, rfl, hb, hq⟩

theorem takes_takeLoose {kind : Kind} {p : Parsed c Token} (h : c.takeLoose? kind = some p) :
    ∃ breaks, c.Takes (breaks ++ [p.value]) p.rest ∧ (∀ t ∈ breaks, t.kind = .newline) ∧
      p.value.kind = kind := by
  obtain ⟨q, hq, rfl⟩ := Option.map_eq_some_iff.mp h
  obtain ⟨breaks, skipped, hb⟩ := c.takes_skipNewlines
  obtain ⟨taken, hk⟩ := Cursor.takes_take hq
  exact ⟨breaks, skipped.trans taken, hb, hk⟩

/-! ### Loops -/

theorem OptionReads.many {read : OptionReader β} {S : List Token → List β → Prop}
    (h : OptionReads read Q) (nil : S [] [])
    (cons : ∀ ts us v vs, Q ts v → S us vs → S (ts ++ us) (v :: vs)) :
    MaybeReads (Grammar.many read) S := by
  intro c
  fun_induction Grammar.many read c with
  | case1 c e _ =>
    intro p hp
    cases hp
  | case2 c _ =>
    intro p hp
    cases hp
    exact ⟨[], .refl c, nil⟩
  | case3 c p hr e _ _ =>
    intro q hq
    cases hq
  | case4 c p hr q hq ih =>
    intro r hr'
    cases hr'
    obtain ⟨ts, first, hv⟩ := h c p hr
    obtain ⟨us, more, hvs⟩ := ih q hq
    exact ⟨ts ++ us, first.trans more, cons ts us p.value q.value hv hvs⟩

theorem MaybeReads.iterate {read : β → OptionReader β}
    (h : ∀ ts v, Q ts v → OptionReads (read v) fun us w => Q (ts ++ us) w) {ts : List Token}
    {v : β} (start : Q ts v) : MaybeReads (Grammar.iterate read v) fun us w => Q (ts ++ us) w := by
  intro c
  fun_induction Grammar.iterate read v c generalizing ts with
  | case1 v c e _ =>
    intro p hp
    cases hp
  | case2 v c _ =>
    intro p hp
    cases hp
    refine ⟨[], .refl c, ?_⟩
    change Q (ts ++ []) v
    rwa [List.append_nil]
  | case3 v c p hr ih =>
    intro q hq
    obtain ⟨r, hr', rfl⟩ := map_eq_ok hq
    obtain ⟨us, first, hp⟩ := h ts v start c p hr
    obtain ⟨ws, more, hw⟩ := ih hp r hr'
    refine ⟨us ++ ws, first.trans more, ?_⟩
    change Q (ts ++ (us ++ ws)) r.value
    rwa [← List.append_assoc]

end Reads
end CallAtlas.Grammar
