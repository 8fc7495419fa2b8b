import LinkSet.Framework.Intervals

/-!
# Marking and unmarking ranges of bytes

`SliceManager` records the bytes it holds as an interval map. `add_slice` marks a range as
received and `remove_slice` takes a range out of what is still to be sent; both walk the map
with a cursor and edit it on the way.
-/

namespace LinkSet

open Framework

/-- The loop of `add_slice`: consume every interval that follows `cursor` up to and including
the first one that ends after `last`. The second component is the end the new slice gets. -/
def absorb : Nat → SortedMap Nat Nat → Nat → Nat → SortedMap Nat Nat × Nat
  | 0, slices, _, last => (slices, last)
  | fuel + 1, slices, cursor, last =>
      match slices.nextFrom cursor with
      | none => (slices, last)
      | some (nextStart, nextEnd) =>
          if nextEnd ≤ last then
            -- fully contained; `cursor > end` never breaks here, since `cursor` is `nextEnd`
            if last < nextEnd then (slices.erase nextStart, last)
            else absorb fuel (slices.erase nextStart) nextEnd last
          else (slices.erase nextStart, nextEnd)

/-- `SliceManager::add_slice`. Each round of the loop removes an interval, so the length of
the map bounds their number. -/
def addSlice (slices : SortedMap Nat Nat) (start last : Nat) : SortedMap Nat Nat :=
  let (slices, last) := absorb slices.len slices start last
  match slices.prevBelow start with
  | some (prevStart, prevEnd) =>
      if last ≤ prevEnd then slices
      else if start - 1 ≤ prevEnd then slices.insert prevStart last
      else slices.insert start last
  | none => slices.insert start last

/-- The loop of `remove_slice`. -/
def trim : Nat → SortedMap Nat Nat → Nat → Nat → SortedMap Nat Nat
  | 0, slices, _, _ => slices
  | fuel + 1, slices, cursor, last =>
      match slices.nextFrom cursor with
      | none => slices
      | some (nextStart, nextEnd) =>
          let slices :=
            if nextEnd ≤ last then slices.erase nextStart
            else (slices.erase nextStart).insert (last + 1) nextEnd
          if last < nextEnd then slices else trim fuel slices nextEnd last

/-- `SliceManager::remove_slice`. -/
def removeSlice (slices : SortedMap Nat Nat) (start last : Nat) : SortedMap Nat Nat :=
  if start = last then slices
  else
    match slices.prevBelow start with
    | some (prevStart, prevEnd) =>
        let slices := slices.insert prevStart (start - 1)
        if last < prevEnd then slices.insert (last + 1) prevEnd
        else trim slices.len slices start last
    | none => trim slices.len slices start last

theorem removeSlice_zero (slices : SortedMap Nat Nat) {last : Nat} (h : 0 < last) :
    removeSlice slices 0 last = trim slices.len slices 0 last := by
  have hprev : slices.prevBelow 0 = none := by
    rw [SortedMap.prevBelow_eq_none]
    exact fun s _ _ => Nat.zero_le s
  rw [removeSlice, if_neg (by omega), hprev]

/-- The first interval at or after `start` that ends after `last`: the one `add_slice` joins to
the new slice, whether or not they touch. -/
def overrun (slices : SortedMap Nat Nat) (start last : Nat) : Option (Nat × Nat) :=
  (slices.retain fun _ e => last < e).nextFrom start

/-- The last index that `add_slice(start, last)` marks. -/
def reach (slices : SortedMap Nat Nat) (start last : Nat) : Nat :=
  match overrun slices start last with
  | none => last
  | some (_, e) => e

theorem overrun_eq_some {slices : SortedMap Nat Nat} {start last s e : Nat} :
    overrun slices start last = some (s, e) ↔
      slices.get s = some e ∧ last < e ∧ start ≤ s ∧
        ∀ s' e', slices.get s' = some e' → last < e' → start ≤ s' → s ≤ s' := by
  simp only [overrun, SortedMap.nextFrom_eq_some, SortedMap.get_retain, Option.filter_eq_some_iff,
    decide_eq_true_eq, and_imp, and_assoc]

theorem overrun_eq_none {slices : SortedMap Nat Nat} {start last : Nat} :
    overrun slices start last = none ↔
      ∀ s e, slices.get s = some e → start ≤ s → e ≤ last := by
  simp only [overrun, SortedMap.nextFrom_eq_none, SortedMap.get_retain, Option.filter_eq_some_iff,
    decide_eq_true_eq, and_imp]
  constructor
  · intro h s e hs hle
    by_contra hlt
    have := h s e hs (by omega)
    omega
  · intro h s e hs hlt
    by_contra hle
    have := h s e hs (by omega)
    omega

theorem le_reach (slices : SortedMap Nat Nat) (start last : Nat) :
    last ≤ reach slices start last := by
  unfold reach
  cases h : overrun slices start last with
  | none => exact Nat.le_refl _
  | some p => exact Nat.le_of_lt (overrun_eq_some.mp h).2.1

theorem exists_get_of_lt_reach {slices : SortedMap Nat Nat} {start last : Nat}
    (h : last < reach slices start last) :
    ∃ s, slices.get s = some (reach slices start last) := by
  unfold reach at h ⊢
  cases hover : overrun slices start last with
  | none =>
      rw [hover] at h
      exact absurd h (Nat.lt_irrefl _)
  | some p => exact ⟨p.1, (overrun_eq_some.mp hover).1⟩

private theorem lt_reach {slices : SortedMap Nat Nat} {start last s e : Nat}
    (hs : slices.get s = some e) (hstart : start ≤ s) (hlast : last < e) :
    last < reach slices start last := by
  unfold reach
  cases hover : overrun slices start last with
  | none =>
      have := overrun_eq_none.mp hover s e hs hstart
      omega
  | some p => exact (overrun_eq_some.mp hover).2.1

theorem reach_lt {slices : SortedMap Nat Nat} {start last n : Nat} (hlast : last < n)
    (hb : ∀ s e, slices.get s = some e → e < n) : reach slices start last < n := by
  rcases Nat.eq_or_lt_of_le (le_reach slices start last) with h | h
  · exact h ▸ hlast
  · obtain ⟨s, hs⟩ := exists_get_of_lt_reach h
    exact hb s _ hs

private theorem overrun_erase_contained {slices : SortedMap Nat Nat} (hn : Normal slices)
    {cursor last s e : Nat} (hnext : slices.nextFrom cursor = some (s, e)) (hle : e ≤ last) :
    overrun (slices.erase s) e last = overrun slices cursor last := by
  obtain ⟨hs, hcs, hfirst⟩ := SortedMap.nextFrom_eq_some.mp hnext
  have hafter : ∀ s' e', slices.get s' = some e' → last < e' → cursor ≤ s' → s < s' := by
    intro s' e' hs' hlt hcur
    have hss := hfirst s' e' hs' hcur
    rcases Nat.lt_or_eq_of_le hss with h | h
    · exact h
    · subst h
      rw [hs] at hs'
      cases hs'
      omega
  have hiff : ∀ s' e', ((slices.erase s).get s' = some e' ∧ last < e' ∧ e ≤ s') ↔
      (slices.get s' = some e' ∧ last < e' ∧ cursor ≤ s') := by
    intro s' e'
    rw [SortedMap.get_erase]
    constructor
    · intro h
      by_cases heq : s' = s
      · rw [if_pos heq] at h
        cases h.1
      · rw [if_neg heq] at h
        have := hn.le s e hs
        exact ⟨h.1, h.2.1, by omega⟩
    · intro h
      have hlt := hafter s' e' h.1 h.2.1 h.2.2
      have := hn.apart s e s' e' hs h.1 hlt
      rw [if_neg (by omega)]
      exact ⟨h.1, h.2.1, by omega⟩
  apply Option.ext
  intro p
  rw [overrun_eq_some, overrun_eq_some]
  have hp := hiff p.1 p.2
  constructor
  · intro h
    have hp' := hp.mp ⟨h.1, h.2.1, h.2.2.1⟩
    refine ⟨hp'.1, hp'.2.1, hp'.2.2, ?_⟩
    intro s' e' hs' hlt hcur
    have hq := (hiff s' e').mpr ⟨hs', hlt, hcur⟩
    exact h.2.2.2 s' e' hq.1 hq.2.1 hq.2.2
  · intro h
    have hp' := hp.mpr ⟨h.1, h.2.1, h.2.2.1⟩
    refine ⟨hp'.1, hp'.2.1, hp'.2.2, ?_⟩
    intro s' e' hs' hlt hcur
    have hq := (hiff s' e').mp ⟨hs', hlt, hcur⟩
    exact h.2.2.2 s' e' hq.1 hq.2.1 hq.2.2

/-- `cleared` is `slices` without the intervals that start in `start ..= r`. -/
def Cleared (slices cleared : SortedMap Nat Nat) (start r : Nat) : Prop :=
  ∀ s, cleared.get s = if start ≤ s ∧ s ≤ r then none else slices.get s

namespace Cleared

variable {slices cleared : SortedMap Nat Nat} {start r : Nat}

private theorem get_eq (h : Cleared slices cleared start r) {s e : Nat}
    (hs : cleared.get s = some e) : slices.get s = some e ∧ (s < start ∨ r < s) := by
  rw [h s] at hs
  split at hs
  · cases hs
  · exact ⟨hs, by omega⟩

private theorem get_below (h : Cleared slices cleared start r) {s : Nat} (hs : s < start) :
    cleared.get s = slices.get s := by
  rw [h s, if_neg (by omega)]

private theorem of_none (h : ∀ s e, slices.get s = some e → s < start) :
    Cleared slices slices start r := by
  intro s
  split
  · next hs =>
      cases hg : slices.get s with
      | none => rfl
      | some e =>
          have := h s e hg
          omega
  · rfl

private theorem erase_next (hn : Normal slices) {s e : Nat}
    (hnext : slices.nextFrom start = some (s, e)) : Cleared slices (slices.erase s) start e := by
  obtain ⟨hs, hle, _⟩ := SortedMap.nextFrom_eq_some.mp hnext
  have hse := hn.le s e hs
  intro j
  rw [SortedMap.get_erase]
  by_cases hj : j = s
  · rw [if_pos hj, if_pos (by omega)]
  · rw [if_neg hj]
    split
    · next hin => exact hn.get_eq_none_of_nextFrom hnext hin.1 hin.2 hj
    · rfl

theorem trans {cleared' : SortedMap Nat Nat} {r' : Nat} (h : Cleared slices cleared start r)
    (h' : Cleared cleared cleared' r r') (hle : start ≤ r) (hr : r ≤ r') :
    Cleared slices cleared' start r' := by
  intro s
  rw [h' s]
  by_cases hin : start ≤ s ∧ s ≤ r'
  · rw [if_pos hin]
    by_cases hs : s ≤ r
    · have hnone : cleared.get s = none := by rw [h s, if_pos ⟨hin.1, hs⟩]
      rw [hnone, ite_self]
    · rw [if_pos ⟨by omega, hin.2⟩]
  · rw [if_neg hin, if_neg (by omega), h s, if_neg (by omega)]

end Cleared

/-- With enough fuel the loop clears everything from `cursor` through `reach`. -/
private theorem absorb_spec (fuel : Nat) (slices : SortedMap Nat Nat) (cursor last : Nat)
    (hn : Normal slices) (hfuel : slices.len ≤ fuel) :
    (absorb fuel slices cursor last).2 = reach slices cursor last ∧
      Cleared slices (absorb fuel slices cursor last).1 cursor (reach slices cursor last) := by
  induction fuel generalizing slices cursor with
  | zero =>
      have hnone := SortedMap.len_eq_zero.mp (Nat.le_zero.mp hfuel)
      have hover : overrun slices cursor last = none := by
        apply overrun_eq_none.mpr
        simp [hnone]
      simp only [absorb, reach, hover, true_and]
      apply Cleared.of_none
      simp [hnone]
  | succ fuel ih =>
      cases hnext : slices.nextFrom cursor with
      | none =>
          have hbelow := SortedMap.nextFrom_eq_none.mp hnext
          have hover : overrun slices cursor last = none := by
            apply overrun_eq_none.mpr
            intro s e hs hle
            have := hbelow s e hs
            omega
          simp only [absorb, hnext, reach, hover, true_and]
          exact Cleared.of_none hbelow
      | some p =>
          obtain ⟨s, e⟩ := p
          obtain ⟨hs, hcs, hfirst⟩ := SortedMap.nextFrom_eq_some.mp hnext
          have hclear := Cleared.erase_next hn hnext
          by_cases hle : e ≤ last
          · have hreach : reach (slices.erase s) e last = reach slices cursor last := by
              simp only [reach, overrun_erase_contained hn hnext hle]
            have hlen := SortedMap.len_erase_lt hs
            have hih := ih (slices.erase s) e (hn.erase s) (by omega)
            have hse := hn.le s e hs
            have hlast := le_reach slices cursor last
            simp only [absorb, hnext, if_pos hle, if_neg (not_lt.mpr hle)]
            rw [hreach] at hih
            exact ⟨hih.1, hclear.trans hih.2 (by omega) (by omega)⟩
          · have hover : overrun slices cursor last = some (s, e) := by
              apply overrun_eq_some.mpr
              exact ⟨hs, by omega, hcs, fun s' e' hs' _ hc => hfirst s' e' hs' hc⟩
            simp only [absorb, hnext, if_neg hle, reach, hover, true_and]
            exact hclear

/-- Nothing that starts inside `start ..= r` or right after it ends beyond it. -/
private def Closed (slices : SortedMap Nat Nat) (start r : Nat) : Prop :=
  ∀ s e, slices.get s = some e → start ≤ s → s ≤ r + 1 → e ≤ r

private theorem reach_closed {slices : SortedMap Nat Nat} (hn : Normal slices) (start last : Nat) :
    Closed slices start (reach slices start last) := by
  intro s e hs hle hr
  unfold reach at hr ⊢
  cases hover : overrun slices start last with
  | none => exact overrun_eq_none.mp hover s e hs hle
  | some p =>
      obtain ⟨s0, e0⟩ := p
      obtain ⟨hs0, hlt, _, hfirst⟩ := overrun_eq_some.mp hover
      simp only [hover] at hr ⊢
      rcases Nat.lt_trichotomy s s0 with h | h | h
      · by_contra hgt
        have := hfirst s e hs (by omega) hle
        omega
      · subst h
        rw [hs0] at hs
        cases hs
        exact Nat.le_refl _
      · have := hn.apart s0 e0 s e hs0 hs h
        omega

/-- Binding the new slice, possibly extended to the left over `a .. start - 1`, after the loop
has cleared its range. -/
private theorem insert_cleared {slices cleared : SortedMap Nat Nat} (hn : Normal slices)
    {start r a : Nat} (hsr : start ≤ r) (hclear : Cleared slices cleared start r)
    (hclosed : Closed slices start r)
    (has : a ≤ start)
    (hleft : ∀ s e, slices.get s = some e → s < start → s ≠ a → e + 1 < a)
    (hfill : ∀ i, a ≤ i → i < start → Covered slices i)
    (hown : ∀ e, a < start → slices.get a = some e → e ≤ r) :
    Normal (cleared.insert a r) ∧
      ∀ i, Covered (cleared.insert a r) i ↔ Covered slices i ∨ (start ≤ i ∧ i ≤ r) := by
  have hsub : Normal cleared := hn.submap fun s e hs => (hclear.get_eq hs).1
  refine ⟨?_, ?_⟩
  · apply hsub.insert (by omega)
    intro s e hs hne
    obtain ⟨hs', hlt | hgt⟩ := hclear.get_eq hs
    · exact Or.inl (hleft s e hs' hlt hne)
    · right
      by_contra hnext
      have h1 := hclosed s e hs' (by omega) (by omega)
      have h2 := hn.le s e hs'
      omega
  · intro i
    rw [covered_insert]
    constructor
    · intro h
      rcases h with hin | ⟨s, e, hs, hsi, hie⟩
      · by_cases hi : i < start
        · exact Or.inl (hfill i hin.1 hi)
        · exact Or.inr ⟨by omega, hin.2⟩
      · rw [SortedMap.get_erase] at hs
        split at hs
        · cases hs
        · exact Or.inl ⟨s, e, (hclear.get_eq hs).1, hsi, hie⟩
    · intro h
      rcases h with ⟨s, e, hs, hsi, hie⟩ | hin
      · by_cases hsa : s = a ∧ a < start
        · have := hown e hsa.2 (hsa.1 ▸ hs)
          exact Or.inl ⟨by omega, by omega⟩
        · by_cases hin : start ≤ s ∧ s ≤ r
          · have := hclosed s e hs hin.1 (by omega)
            exact Or.inl ⟨by omega, by omega⟩
          · refine Or.inr ⟨s, e, ?_, hsi, hie⟩
            rw [SortedMap.get_erase, if_neg (by omega), hclear s, if_neg hin, hs]
      · exact Or.inl ⟨by omega, hin.2⟩

private theorem insert_fresh {slices cleared : SortedMap Nat Nat} (hn : Normal slices)
    {start r : Nat} (hsr : start ≤ r) (hclear : Cleared slices cleared start r)
    (hclosed : Closed slices start r)
    (hleft : ∀ s e, slices.get s = some e → s < start → e + 1 < start) :
    Normal (cleared.insert start r) ∧
      ∀ i, Covered (cleared.insert start r) i ↔ Covered slices i ∨ (start ≤ i ∧ i ≤ r) := by
  apply insert_cleared hn hsr hclear hclosed (Nat.le_refl _)
  · intro s e hs hlt _
    exact hleft s e hs hlt
  · intro i hi hlt
    omega
  · intro e hlt
    omega

private theorem cleared_contains {slices cleared : SortedMap Nat Nat} (hn : Normal slices)
    {start r s₀ e₀ : Nat} (hclear : Cleared slices cleared start r)
    (hs₀ : cleared.get s₀ = some e₀) (hlt : s₀ < start) (hcov : r ≤ e₀) (i : Nat) :
    Covered cleared i ↔ Covered slices i ∨ (start ≤ i ∧ i ≤ r) := by
  constructor
  · rintro ⟨s, e, hs, hsi, hie⟩
    exact Or.inl ⟨s, e, (hclear.get_eq hs).1, hsi, hie⟩
  · intro h
    rcases h with ⟨s, e, hs, hsi, hie⟩ | hin
    · refine ⟨s, e, ?_, hsi, hie⟩
      rw [hclear s, if_neg, hs]
      intro hin
      have := hn.apart s₀ e₀ s e (hclear.get_eq hs₀).1 hs (by omega)
      omega
    · exact ⟨s₀, e₀, hs₀, by omega, by omega⟩

/-- `add_slice` keeps the normal form and covers, besides what was covered, everything from
`start` through `reach`. -/
theorem addSlice_spec {slices : SortedMap Nat Nat} (hn : Normal slices) {start last : Nat}
    (hle : start ≤ last) :
    Normal (addSlice slices start last) ∧
      ∀ i, Covered (addSlice slices start last) i ↔
        Covered slices i ∨ (start ≤ i ∧ i ≤ reach slices start last) := by
  have hlast := le_reach slices start last
  obtain ⟨hend, hclear⟩ := absorb_spec slices.len slices start last hn (Nat.le_refl _)
  have hclosed := reach_closed hn start last
  unfold addSlice
  generalize absorb slices.len slices start last = out at hend hclear ⊢
  obtain ⟨cleared, r⟩ := out
  simp only at hend hclear ⊢
  rw [← hend] at hclear hlast hclosed ⊢
  cases hprev : cleared.prevBelow start with
  | none =>
      apply insert_fresh hn (by omega) hclear hclosed
      intro s e hs hlt
      have := SortedMap.prevBelow_eq_none.mp hprev s e (by rw [hclear.get_below hlt, hs])
      omega
  | some p =>
      obtain ⟨ps, pe⟩ := p
      obtain ⟨hps, hlt, hmax⟩ := SortedMap.prevBelow_eq_some.mp hprev
      have hps' : slices.get ps = some pe := (hclear.get_eq hps).1
      have hleft : ∀ s e, slices.get s = some e → s < start → s ≠ ps → e + 1 < ps := by
        intro s e hs hs' hne
        have := hmax s e (by rw [hclear.get_below hs', hs]) hs'
        exact hn.apart s e ps pe hs hps' (by omega)
      simp only
      split
      · next hcov =>
          exact ⟨hn.submap fun s e hs => (hclear.get_eq hs).1,
            cleared_contains hn hclear hps hlt hcov⟩
      · next hcov =>
          split
          · next htouch =>
              apply insert_cleared hn (by omega) hclear hclosed (by omega) hleft
              · intro i hi hlt'
                exact ⟨ps, pe, hps', hi, by omega⟩
              · intro e _ he
                rw [hps'] at he
                cases he
                omega
          · next hgap =>
              apply insert_fresh hn (by omega) hclear hclosed
              intro s e hs hs'
              by_cases heq : s = ps
              · subst heq
                rw [hps'] at hs
                cases hs
                omega
              · have := hleft s e hs hs' heq
                omega

/-- If stored intervals that start at or after `start` end after `last`, then one of them
starts inside `start ..= last` or right after it. -/
def Joins (slices : SortedMap Nat Nat) (start last : Nat) : Prop :=
  ∀ s e, slices.get s = some e → start ≤ s → last < e →
    ∃ s' e', slices.get s' = some e' ∧ start ≤ s' ∧ last < e' ∧ s' ≤ last + 1

instance (slices : SortedMap Nat Nat) (start last : Nat) : Decidable (Joins slices start last) :=
  decidable_of_iff
    (∀ p ∈ slices.entries, start ≤ p.1 → last < p.2 →
      ∃ q ∈ slices.entries, start ≤ q.1 ∧ last < q.2 ∧ q.1 ≤ last + 1)
    (by simp [Joins, SortedMap.get_eq_some])

private theorem Joins.overrun_le {slices : SortedMap Nat Nat} {start last s e : Nat}
    (hj : Joins slices start last) (h : overrun slices start last = some (s, e)) :
    s ≤ last + 1 := by
  obtain ⟨hs, hlt, hle, hfirst⟩ := overrun_eq_some.mp h
  obtain ⟨s', e', hs', hle', hlt', htouch⟩ := hj s e hs hle hlt
  exact (hfirst s' e' hs' hlt' hle').trans htouch

theorem Joins.covered_of_le_reach {slices : SortedMap Nat Nat} {start last i : Nat}
    (hj : Joins slices start last) (hi : i ≤ reach slices start last) :
    i ≤ last ∨ Covered slices i := by
  unfold reach at hi
  cases hover : overrun slices start last with
  | none =>
      rw [hover] at hi
      exact Or.inl hi
  | some p =>
      rw [hover] at hi
      by_cases hlast : i ≤ last
      · exact Or.inl hlast
      · have htouch := hj.overrun_le hover
        exact Or.inr ⟨p.1, p.2, (overrun_eq_some.mp hover).1, by omega, hi⟩

/-- `add_slice` is set union exactly when the slice joins what follows it. -/
theorem addSlice_union_iff {slices : SortedMap Nat Nat} (hn : Normal slices) {start last : Nat}
    (hle : start ≤ last) :
    (∀ i, Covered (addSlice slices start last) i ↔ Covered slices i ∨ (start ≤ i ∧ i ≤ last)) ↔
      Joins slices start last := by
  have hspec := (addSlice_spec hn hle).2
  have hreach := le_reach slices start last
  constructor
  · intro hunion s e hs hstart hlast
    cases hover : overrun slices start last with
    | none =>
        have := overrun_eq_none.mp hover s e hs hstart
        omega
    | some p =>
        obtain ⟨hp, hplast, hpstart, _⟩ := overrun_eq_some.mp hover
        refine ⟨p.1, p.2, hp, hpstart, hplast, ?_⟩
        by_contra hgap
        -- the byte before the joined interval is marked, but by neither side of the union
        have hmarked : Covered (addSlice slices start last) (p.1 - 1) := by
          apply (hspec _).mpr
          right
          have hpe := hn.le p.1 p.2 hp
          have hend : reach slices start last = p.2 := by simp [reach, hover]
          omega
        rcases (hunion _).mp hmarked with hc | hc
        · obtain ⟨s', e', hs', h1, h2⟩ := hc
          have := hn.apart s' e' p.1 p.2 hs' hp (by omega)
          omega
        · omega
  · intro hj i
    rw [hspec i]
    constructor
    · intro h
      rcases h with h | h
      · exact Or.inl h
      · rcases hj.covered_of_le_reach h.2 with hlast | hc
        · exact Or.inr ⟨h.1, hlast⟩
        · exact Or.inl hc
    · intro h
      rcases h with h | h
      · exact Or.inl h
      · exact Or.inr ⟨h.1, h.2.trans hreach⟩

theorem addSlice_union_iff_adjacent :
    Joins (SortedMap.empty.insert 4 6) 1 3 ∧
      ∀ i, Covered (addSlice (SortedMap.empty.insert 4 6) 1 3) i ↔
        Covered (SortedMap.empty.insert 4 6) i ∨ (1 ≤ i ∧ i ≤ 3) := by
  have hjoins : Joins (SortedMap.empty.insert 4 6) 1 3 := by decide
  exact ⟨hjoins, (addSlice_union_iff (by decide) (by decide)).mpr hjoins⟩

/-- The interval after a gap is joined to the new slice, and the gap with it. -/
theorem addSlice_covers_gap :
    Normal (SortedMap.empty.insert 5 6) ∧ ¬ Covered (SortedMap.empty.insert 5 6) 3 ∧
      (addSlice (SortedMap.empty.insert 5 6) 0 1).entries = [(0, 6)] ∧
      Covered (addSlice (SortedMap.empty.insert 5 6) 0 1) 3 := by
  refine ⟨?_, ?_, ?_, ?_⟩
  · decide
  · decide
  · decide
  · decide

/-- The loop of `remove_slice` is the one of `add_slice`, with what is left of the last interval
bound again. -/
private theorem trim_eq_absorb (fuel : Nat) (slices : SortedMap Nat Nat) (cursor last : Nat) :
    trim fuel slices cursor last =
      if last < (absorb fuel slices cursor last).2 then
        (absorb fuel slices cursor last).1.insert (last + 1) (absorb fuel slices cursor last).2
      else (absorb fuel slices cursor last).1 := by
  induction fuel generalizing slices cursor with
  | zero => simp [trim, absorb]
  | succ fuel ih =>
      cases hnext : slices.nextFrom cursor with
      | none => simp [trim, absorb, hnext]
      | some p =>
          obtain ⟨s, e⟩ := p
          by_cases hle : e ≤ last
          · simp only [trim, absorb, hnext, if_pos hle, if_neg (not_lt.mpr hle)]
            exact ih (slices.erase s) e
          · simp only [trim, absorb, hnext, if_neg hle, if_pos (not_le.mp hle)]

private theorem absorb_insert_below {slices : SortedMap Nat Nat} (hn : Normal slices)
    {k v cursor last : Nat} (hk : k < cursor) (fuel : Nat) :
    absorb fuel (slices.insert k v) cursor last =
      ((absorb fuel slices cursor last).1.insert k v, (absorb fuel slices cursor last).2) := by
  induction fuel generalizing slices cursor with
  | zero => rfl
  | succ fuel ih =>
      have hsame := SortedMap.nextFrom_insert_of_lt v hk (m := slices)
      cases hnext : slices.nextFrom cursor with
      | none => simp only [absorb, hsame, hnext]
      | some p =>
          obtain ⟨s, e⟩ := p
          obtain ⟨hs, hcs, _⟩ := SortedMap.nextFrom_eq_some.mp hnext
          have hse := hn.le s e hs
          have herase := SortedMap.erase_insert_of_ne v (show s ≠ k by omega) (m := slices)
          by_cases hle : e ≤ last
          · simp only [absorb, hsame, hnext, herase, if_pos hle, if_neg (not_lt.mpr hle)]
            exact ih (hn.erase s) (by omega)
          · simp only [absorb, hsame, hnext, herase, if_neg hle]

private theorem insert_rest {slices base : SortedMap Nat Nat} (hn : Normal slices)
    {start last r : Nat} (hsl : start ≤ last) (hclosed : Closed slices start r) (hb : Normal base)
    (hbase : ∀ s e, base.get s = some e → e < start ∨ (slices.get s = some e ∧ r < s)) :
    Normal (if last < r then base.insert (last + 1) r else base) ∧
      ∀ i, Covered (if last < r then base.insert (last + 1) r else base) i ↔
        Covered base i ∨ (last < i ∧ i ≤ r) := by
  split
  · next hlt =>
      have hfree : base.get (last + 1) = none := by
        cases hget : base.get (last + 1) with
        | none => rfl
        | some e =>
            have hle := hb.le _ _ hget
            rcases hbase _ _ hget with h | h
            · have hlast := h.trans_le hsl
              omega
            · omega
      constructor
      · apply hb.insert (by omega)
        intro s e hs _
        rcases hbase s e hs with hleft | ⟨hs', hgt⟩
        · exact Or.inl (by omega)
        · right
          by_contra hnext
          have h1 := hclosed s e hs' (by omega) (by omega)
          have h2 := hn.le s e hs'
          omega
      · intro i
        rw [covered_insert_of_none hfree, or_comm, Nat.succ_le_iff]
  · next hge =>
      refine ⟨hb, fun i => ?_⟩
      have hempty : ¬ (last < i ∧ i ≤ r) := by omega
      simp only [hempty, or_false]

/-- The indices outside `start ..= last` that `remove_slice` leaves marked whether they were or
not: from the interval before the range up to it, and from the range through the interval after
it. -/
def Spill (slices : SortedMap Nat Nat) (start last i : Nat) : Prop :=
  (i < start ∧ ∃ s e, slices.prevBelow start = some (s, e) ∧ s ≤ i) ∨
    (last < i ∧ (∀ s e, slices.get s = some e → s < start → e ≤ last) ∧
      i ≤ reach slices start last)

/-- The map after the loop has cleared `start ..= r` and the interval before has been drawn up to
the range. -/
private structure Cut (slices base : SortedMap Nat Nat) (start r : Nat) : Prop where
  normal : Normal base
  ends : ∀ s e, base.get s = some e → e < start ∨ (slices.get s = some e ∧ r < s)
  covered : ∀ i, Covered base i ↔
    (i < start ∧ (Covered slices i ∨ ∃ s e, slices.prevBelow start = some (s, e) ∧ s ≤ i)) ∨
      (r < i ∧ Covered slices i)

private theorem end_le_of_prevBelow {slices : SortedMap Nat Nat} (hn : Normal slices)
    {start ps pe r s e : Nat} (hprev : slices.prevBelow start = some (ps, pe)) (hpe : pe ≤ r)
    (hs : slices.get s = some e) (hlt : s < start) : e ≤ r := by
  have hle := hn.le ps pe (SortedMap.prevBelow_eq_some.mp hprev).1
  rcases hn.eq_or_apart_of_prevBelow hprev hs hlt with ⟨_, rfl⟩ | hapart
  · exact hpe
  · omega

private theorem start_gt_of_covered {slices : SortedMap Nat Nat} {start r s e i : Nat}
    (hclosed : Closed slices start r)
    (hends : ∀ s e, slices.get s = some e → s < start → e ≤ r) (hs : slices.get s = some e)
    (hri : r < i) (hie : i ≤ e) : r < s := by
  by_contra hle
  by_cases hlt : s < start
  · have := hends s e hs hlt
    omega
  · have := hclosed s e hs (by omega) (by omega)
    omega

private theorem Cut.of_none {slices cleared : SortedMap Nat Nat} (hn : Normal slices)
    {start r : Nat} (hclear : Cleared slices cleared start r)
    (hclosed : Closed slices start r)
    (hprev : slices.prevBelow start = none) : Cut slices cleared start r := by
  have hbelow := SortedMap.prevBelow_eq_none.mp hprev
  have hget : ∀ s e, cleared.get s = some e → slices.get s = some e ∧ r < s := by
    intro s e hs
    obtain ⟨hs', hlt | hgt⟩ := hclear.get_eq hs
    · have := hbelow s e hs'
      omega
    · exact ⟨hs', hgt⟩
  refine ⟨hn.submap fun s e hs => (hget s e hs).1, fun s e hs => Or.inr (hget s e hs), ?_⟩
  intro i
  constructor
  · rintro ⟨s, e, hs, hsi, hie⟩
    obtain ⟨hs', hgt⟩ := hget s e hs
    exact Or.inr ⟨by omega, s, e, hs', hsi, hie⟩
  · rintro (⟨hi, ⟨s, e, hs, hsi, _⟩ | ⟨s, e, hsome, _⟩⟩ | ⟨hi, s, e, hs, hsi, hie⟩)
    · have := hbelow s e hs
      omega
    · rw [hprev] at hsome
      cases hsome
    · have hgt : r < s := by
        apply start_gt_of_covered hclosed _ hs hi hie
        intro s' e' hs' hlt
        have := hbelow s' e' hs'
        omega
      refine ⟨s, e, ?_, hsi, hie⟩
      rw [hclear s, if_neg (by omega), hs]

private theorem Cut.of_some {slices cleared : SortedMap Nat Nat} (hn : Normal slices)
    {start r ps pe : Nat} (hsr : start ≤ r) (hclear : Cleared slices cleared start r)
    (hclosed : Closed slices start r)
    (hprev : slices.prevBelow start = some (ps, pe)) (hpe : pe ≤ r) :
    Cut slices (cleared.insert ps (start - 1)) start r := by
  have hlt := (SortedMap.prevBelow_eq_some.mp hprev).2.1
  have hsub : Normal cleared := hn.submap fun s e hs => (hclear.get_eq hs).1
  have hother : ∀ s e, cleared.get s = some e → s ≠ ps →
      slices.get s = some e ∧ (e + 1 < ps ∨ r < s) := by
    intro s e hs hne
    obtain ⟨hs', h | h⟩ := hclear.get_eq hs
    · have hapart := (hn.eq_or_apart_of_prevBelow hprev hs' h).resolve_left fun heq => hne heq.1
      exact ⟨hs', Or.inl hapart⟩
    · exact ⟨hs', Or.inr h⟩
  refine ⟨?_, ?_, ?_⟩
  · apply hsub.insert (by omega)
    intro s e hs hne
    have := (hother s e hs hne).2
    omega
  · intro s e hs
    rw [SortedMap.get_insert] at hs
    split at hs
    · cases hs
      exact Or.inl (by omega)
    · next hne =>
        obtain ⟨hs', h | h⟩ := hother s e hs hne
        · exact Or.inl (by omega)
        · exact Or.inr ⟨hs', h⟩
  · intro i
    rw [covered_insert]
    constructor
    · rintro (hin | ⟨s, e, hs, hsi, hie⟩)
      · exact Or.inl ⟨by omega, Or.inr ⟨ps, pe, hprev, hin.1⟩⟩
      · rw [SortedMap.get_erase] at hs
        split at hs
        · cases hs
        · next hne =>
            obtain ⟨hs', h | h⟩ := hother s e hs hne
            · exact Or.inl ⟨by omega, Or.inl ⟨s, e, hs', hsi, hie⟩⟩
            · exact Or.inr ⟨by omega, s, e, hs', hsi, hie⟩
    · have hkeep : ∀ s e, slices.get s = some e → s ≠ ps → s < start ∨ r < s → s ≤ i → i ≤ e →
          Covered (cleared.erase ps) i := by
        intro s e hs hne hout hsi hie
        refine ⟨s, e, ?_, hsi, hie⟩
        rw [SortedMap.get_erase, if_neg hne, hclear s, if_neg (by omega), hs]
      rintro (⟨hi, ⟨s, e, hs, hsi, hie⟩ | ⟨s, e, hsome, hsi⟩⟩ | ⟨hi, s, e, hs, hsi, hie⟩)
      · by_cases heq : s = ps
        · exact Or.inl ⟨by omega, by omega⟩
        · exact Or.inr (hkeep s e hs heq (Or.inl (by omega)) hsi hie)
      · rw [hprev] at hsome
        cases hsome
        exact Or.inl ⟨hsi, by omega⟩
      · have hgt := start_gt_of_covered hclosed
          (fun s e hs hlt => end_le_of_prevBelow hn hprev hpe hs hlt) hs hi hie
        exact Or.inr (hkeep s e hs (by omega) (Or.inr hgt) hsi hie)

private theorem Cut.spec {slices base : SortedMap Nat Nat} (hn : Normal slices)
    {start last : Nat} (hsl : start ≤ last)
    (hends : ∀ s e, slices.get s = some e → s < start → e ≤ last)
    (hcut : Cut slices base start (reach slices start last)) {after : SortedMap Nat Nat}
    (hafter : after = if last < reach slices start last then
      base.insert (last + 1) (reach slices start last) else base) :
    Normal after ∧ ∀ i, Covered after i ↔
      (Covered slices i ∧ ¬ (start ≤ i ∧ i ≤ last)) ∨ Spill slices start last i := by
  have hlast := le_reach slices start last
  obtain ⟨hnormal, hcovered⟩ := insert_rest hn hsl (reach_closed hn start last)
    hcut.normal hcut.ends
  rw [hafter]
  refine ⟨hnormal, ?_⟩
  intro i
  rw [hcovered i, hcut.covered i, Spill, and_iff_right hends]
  rcases Nat.lt_or_ge i start with hlt | hge
  · have hout : ¬ (start ≤ i ∧ i ≤ last) := by omega
    have hr : ¬ reach slices start last < i := by omega
    have hright : ¬ last < i := by omega
    simp only [hlt, hout, hr, hright, true_and, false_and, or_false, not_false_eq_true, and_true]
  · have hleft : ¬ i < start := by omega
    by_cases hin : i ≤ last
    · have hr : ¬ reach slices start last < i := by omega
      simp only [hleft, hge, hin, hr, not_lt.mpr hin, true_and, false_and, or_false,
        not_true_eq_false, and_false]
    · have hgt : last < i := by omega
      by_cases hr : reach slices start last < i
      · simp only [hleft, hin, hgt, hr, not_le.mpr hr, true_and, false_and, false_or, or_false,
          and_false, not_false_eq_true, and_true]
      · simp only [hgt, not_lt.mp hr, true_and, or_true]

private theorem split_spec {slices : SortedMap Nat Nat} (hn : Normal slices)
    {start last ps pe : Nat} (hlt : start < last)
    (hprev : slices.prevBelow start = some (ps, pe)) (hpe : last < pe) :
    Normal ((slices.insert ps (start - 1)).insert (last + 1) pe) ∧
      ∀ i, Covered ((slices.insert ps (start - 1)).insert (last + 1) pe) i ↔
        (Covered slices i ∧ ¬ (start ≤ i ∧ i ≤ last)) ∨ Spill slices start last i := by
  obtain ⟨hps, hps', hmax⟩ := SortedMap.prevBelow_eq_some.mp hprev
  have hother : ∀ s e, slices.get s = some e → s ≠ ps → e + 1 < ps ∨ pe + 1 < s := by
    intro s e hs hne
    rcases Nat.lt_or_gt_of_ne hne with h | h
    · exact Or.inl (hn.apart s e ps pe hs hps h)
    · exact Or.inr (hn.apart ps pe s e hps hs h)
  have hcut : Normal (slices.insert ps (start - 1)) := by
    apply hn.insert (by omega)
    intro s e hs hne
    have := hother s e hs hne
    omega
  have hfree : (slices.insert ps (start - 1)).get (last + 1) = none := by
    rw [SortedMap.get_insert_of_ne _ _ (by omega)]
    cases hget : slices.get (last + 1) with
    | none => rfl
    | some e =>
        have hle := hn.le _ _ hget
        have := hother _ _ hget (by omega)
        omega
  constructor
  · apply hcut.insert (by omega)
    intro s e hs _
    rw [SortedMap.get_insert] at hs
    split at hs
    · cases hs
      exact Or.inl (by omega)
    · next hne =>
        have := hother s e hs hne
        omega
  · intro i
    have hspill : Spill slices start last i ↔ i < start ∧ ps ≤ i := by
      constructor
      · rintro (⟨hi, s, e, hsome, hsi⟩ | ⟨_, hall, _⟩)
        · rw [hprev] at hsome
          cases hsome
          exact ⟨hi, hsi⟩
        · have := hall ps pe hps hps'
          omega
      · rintro ⟨hi, hpi⟩
        exact Or.inl ⟨hi, ps, pe, hprev, hpi⟩
    rw [covered_insert_of_none hfree, covered_insert, hspill]
    constructor
    · rintro (hin | hin | ⟨s, e, hs, hsi, hie⟩)
      · exact Or.inl ⟨⟨ps, pe, hps, by omega, hin.2⟩, by omega⟩
      · exact Or.inr ⟨by omega, hin.1⟩
      · rw [SortedMap.get_erase] at hs
        split at hs
        · cases hs
        · next hne =>
            have := hother s e hs hne
            exact Or.inl ⟨⟨s, e, hs, hsi, hie⟩, by omega⟩
    · rintro (⟨⟨s, e, hs, hsi, hie⟩, hout⟩ | hin)
      · by_cases heq : s = ps
        · rw [heq, hps] at hs
          cases hs
          by_cases hi : i < start
          · exact Or.inr (Or.inl ⟨by omega, by omega⟩)
          · exact Or.inl ⟨by omega, hie⟩
        · refine Or.inr (Or.inr ⟨s, e, ?_, hsi, hie⟩)
          rw [SortedMap.get_erase, if_neg heq, hs]
      · exact Or.inr (Or.inl ⟨hin.2, by omega⟩)

/-- `remove_slice` keeps the normal form and leaves what was covered outside the range, and the
spill. -/
theorem removeSlice_spec {slices : SortedMap Nat Nat} (hn : Normal slices) {start last : Nat}
    (hlt : start < last) :
    Normal (removeSlice slices start last) ∧
      ∀ i, Covered (removeSlice slices start last) i ↔
        (Covered slices i ∧ ¬ (start ≤ i ∧ i ≤ last)) ∨ Spill slices start last i := by
  have hlast := le_reach slices start last
  have hclosed := reach_closed hn start last
  unfold removeSlice
  rw [if_neg (by omega)]
  cases hprev : slices.prevBelow start with
  | none =>
      obtain ⟨hend, hclear⟩ := absorb_spec slices.len slices start last hn (Nat.le_refl _)
      have hbelow := SortedMap.prevBelow_eq_none.mp hprev
      apply Cut.spec hn (by omega) _ (Cut.of_none hn hclear hclosed hprev)
      · simp only [trim_eq_absorb, hend]
      · intro s e hs hs'
        have := hbelow s e hs
        omega
  | some p =>
      obtain ⟨ps, pe⟩ := p
      have hps' := (SortedMap.prevBelow_eq_some.mp hprev).2.1
      simp only
      split
      · next hpe => exact split_spec hn hlt hprev hpe
      · next hpe =>
          have hlen := slices.len_le_insert ps (start - 1)
          obtain ⟨hend, hclear⟩ :=
            absorb_spec (slices.insert ps (start - 1)).len slices start last hn hlen
          apply Cut.spec hn (by omega) _ (Cut.of_some hn (by omega) hclear hclosed hprev (by omega))
          · simp only [trim_eq_absorb, absorb_insert_below hn hps', hend]
          · intro s e hs hlt'
            exact end_le_of_prevBelow hn hprev (not_lt.mp hpe) hs hlt'

private theorem Spill.outside {slices : SortedMap Nat Nat} {start last i : Nat}
    (h : Spill slices start last i) : ¬ (start ≤ i ∧ i ≤ last) := by
  rcases h with ⟨hi, _⟩ | ⟨hi, _⟩
  · omega
  · omega

/-- If an interval starts before the range, the index before the range is covered; if one that
starts in or after the range ends after it, the index after the range is covered. -/
def Clips (slices : SortedMap Nat Nat) (start last : Nat) : Prop :=
  (∀ s e, slices.get s = some e → s < start → Covered slices (start - 1)) ∧
    ∀ s e, slices.get s = some e → start ≤ s → last < e → Covered slices (last + 1)

instance (slices : SortedMap Nat Nat) (start last : Nat) : Decidable (Clips slices start last) :=
  decidable_of_iff
    ((∀ p ∈ slices.entries, p.1 < start → Covered slices (start - 1)) ∧
      ∀ p ∈ slices.entries, start ≤ p.1 → last < p.2 → Covered slices (last + 1))
    (by simp [Clips, SortedMap.get_eq_some])

private theorem covered_of_left {slices : SortedMap Nat Nat} (hn : Normal slices)
    {start ps pe i : Nat} (hprev : slices.prevBelow start = some (ps, pe))
    (hbefore : Covered slices (start - 1)) (hi : i < start) (hpi : ps ≤ i) : Covered slices i := by
  have hps' := (SortedMap.prevBelow_eq_some.mp hprev).2.1
  obtain ⟨s, e, hs, hse, hes⟩ := hbefore
  rcases hn.eq_or_apart_of_prevBelow hprev hs (by omega) with ⟨rfl, _⟩ | hapart
  · exact ⟨s, e, hs, hpi, by omega⟩
  · omega

private theorem covered_of_right {slices : SortedMap Nat Nat} {start last i : Nat}
    (hall : ∀ s e, slices.get s = some e → s < start → e ≤ last)
    (hafter : ∀ s e, slices.get s = some e → start ≤ s → last < e → Covered slices (last + 1))
    (hi : last < i) (hreach : i ≤ reach slices start last) : Covered slices i := by
  unfold reach at hreach
  cases hover : overrun slices start last with
  | none =>
      rw [hover] at hreach
      exact absurd hi (not_lt.mpr hreach)
  | some p =>
      rw [hover] at hreach
      obtain ⟨hp, hplast, hpstart, hfirst⟩ := overrun_eq_some.mp hover
      obtain ⟨s, e, hs, hse, hes⟩ := hafter p.1 p.2 hp hpstart hplast
      have hstart : start ≤ s := by
        by_contra hlt
        have := hall s e hs (by omega)
        omega
      have := hfirst s e hs (by omega) hstart
      exact ⟨p.1, p.2, hp, by omega, hreach⟩

/-- `remove_slice` is set difference exactly when the intervals around the range touch it. -/
theorem removeSlice_difference_iff {slices : SortedMap Nat Nat} (hn : Normal slices)
    {start last : Nat} (hlt : start < last) :
    (∀ i, Covered (removeSlice slices start last) i ↔
      Covered slices i ∧ ¬ (start ≤ i ∧ i ≤ last)) ↔ Clips slices start last := by
  have hspec := (removeSlice_spec hn hlt).2
  constructor
  · intro hdiff
    have hspill : ∀ i, Spill slices start last i → Covered slices i := by
      intro i hi
      exact ((hdiff i).mp ((hspec i).mpr (Or.inr hi))).1
    constructor
    · intro s e hs hs'
      apply hspill
      cases hprev : slices.prevBelow start with
      | none =>
          have := SortedMap.prevBelow_eq_none.mp hprev s e hs
          omega
      | some p =>
          have hp := (SortedMap.prevBelow_eq_some.mp hprev).2.1
          exact Or.inl ⟨by omega, p.1, p.2, hprev, by omega⟩
    · intro s e hs hstart hlast
      by_cases hall : ∀ s e, slices.get s = some e → s < start → e ≤ last
      · apply hspill
        exact Or.inr ⟨by omega, hall, lt_reach hs hstart hlast⟩
      · push Not at hall
        obtain ⟨s', e', hs', hlt', hlast'⟩ := hall
        exact ⟨s', e', hs', by omega, hlast'⟩
  · intro hclips i
    rw [hspec i]
    constructor
    · rintro (hout | hspill)
      · exact hout
      · refine ⟨?_, hspill.outside⟩
        rcases hspill with ⟨hi, ps, pe, hprev, hpi⟩ | ⟨hi, hall, hreach⟩
        · obtain ⟨hps, hps', _⟩ := SortedMap.prevBelow_eq_some.mp hprev
          exact covered_of_left hn hprev (hclips.1 ps pe hps hps') hi hpi
        · exact covered_of_right hall hclips.2 hi hreach
    · exact Or.inl

theorem removeSlice_difference_iff_inside :
    Clips (SortedMap.empty.insert 2 9) 4 6 ∧
      ∀ i, Covered (removeSlice (SortedMap.empty.insert 2 9) 4 6) i ↔
        Covered (SortedMap.empty.insert 2 9) i ∧ ¬ (4 ≤ i ∧ i ≤ 6) := by
  have hclips : Clips (SortedMap.empty.insert 2 9) 4 6 := by decide
  exact ⟨hclips, (removeSlice_difference_iff (by decide) (by decide)).mpr hclips⟩

/-- An interval that ends before the range is drawn up to it, and one that starts after it is
drawn down to it. -/
theorem removeSlice_covers_gaps :
    (Normal (SortedMap.empty.insert 0 1) ∧ ¬ Covered (SortedMap.empty.insert 0 1) 3 ∧
      (removeSlice (SortedMap.empty.insert 0 1) 5 7).entries = [(0, 4)] ∧
      Covered (removeSlice (SortedMap.empty.insert 0 1) 5 7) 3) ∧
    Normal (SortedMap.empty.insert 8 9) ∧ ¬ Covered (SortedMap.empty.insert 8 9) 6 ∧
      (removeSlice (SortedMap.empty.insert 8 9) 1 3).entries = [(4, 9)] ∧
      Covered (removeSlice (SortedMap.empty.insert 8 9) 1 3) 6 := by
  refine ⟨⟨?_, ?_, ?_, ?_⟩, ?_, ?_, ?_, ?_⟩
  · decide
  · decide
  · decide
  · decide
  · decide
  · decide
  · decide
  · decide

end LinkSet
