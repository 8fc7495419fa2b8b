import LinkSet.Framework.SortedMap
import Mathlib.Order.Bounds.Basic

/-!
# Interval maps

A map from the first to the last element of closed intervals of naturals stands for the set
it covers. In normal form the intervals are non-empty, disjoint and never adjacent, so a set
has one representation and its shape can be read off the first entry and the length.
-/

namespace Framework

/-- Some interval of `m` contains `i`. -/
def Covered (m : SortedMap Nat Nat) (i : Nat) : Prop := ∃ s e, m.get s = some e ∧ s ≤ i ∧ i ≤ e

/-- The intervals are non-empty and separated by at least one uncovered element. -/
structure Normal (m : SortedMap Nat Nat) : Prop where
  le : ∀ s e, m.get s = some e → s ≤ e
  apart : ∀ s e s' e', m.get s = some e → m.get s' = some e' → s < s' → e + 1 < s'

instance (m : SortedMap Nat Nat) (i : Nat) : Decidable (Covered m i) :=
  decidable_of_iff (∃ p ∈ m.entries, p.1 ≤ i ∧ i ≤ p.2) (by simp [Covered, SortedMap.get_eq_some])

instance (m : SortedMap Nat Nat) : Decidable (Normal m) :=
  decidable_of_iff
    ((∀ p ∈ m.entries, p.1 ≤ p.2) ∧
      ∀ p ∈ m.entries, ∀ q ∈ m.entries, p.1 < q.1 → p.2 + 1 < q.1)
    ⟨fun h => ⟨fun s e hs => h.1 (s, e) (SortedMap.get_eq_some.mp hs), fun s e s' e' hs hs' =>
        h.2 (s, e) (SortedMap.get_eq_some.mp hs) (s', e') (SortedMap.get_eq_some.mp hs')⟩,
      fun h => ⟨fun p hp => h.le p.1 p.2 (SortedMap.get_eq_some.mpr hp), fun p hp q hq =>
        h.apart p.1 p.2 q.1 q.2 (SortedMap.get_eq_some.mpr hp) (SortedMap.get_eq_some.mpr hq)⟩⟩

theorem normal_empty : Normal SortedMap.empty where
  le := by simp
  apart := by simp

theorem not_covered_empty (i : Nat) : ¬ Covered SortedMap.empty i := by simp [Covered]

theorem Covered.start {m : SortedMap Nat Nat} (h : Normal m) {s e : Nat}
    (hs : m.get s = some e) : Covered m s := ⟨s, e, hs, Nat.le_refl _, h.le s e hs⟩

theorem Normal.start_eq_zero {m : SortedMap Nat Nat} (h : Normal m)
    (hdown : ∀ i, Covered m i → ∀ j ≤ i, Covered m j) {s e : Nat} (hs : m.get s = some e) :
    s = 0 := by
  by_contra hne
  obtain ⟨s', e', hs', hle, hge⟩ := hdown s (.start h hs) (s - 1) (Nat.sub_le s 1)
  have hapart := h.apart s' e' s e hs' hs (by omega)
  omega

theorem Normal.submap {m n : SortedMap Nat Nat} (h : Normal m)
    (hsub : ∀ s e, n.get s = some e → m.get s = some e) : Normal n where
  le := fun s e hs => h.le s e (hsub s e hs)
  apart := fun s e s' e' hs hs' => h.apart s e s' e' (hsub s e hs) (hsub s' e' hs')

theorem Normal.erase {m : SortedMap Nat Nat} (h : Normal m) (k : Nat) : Normal (m.erase k) := by
  apply h.submap
  intro s e hs
  rw [SortedMap.get_erase] at hs
  split at hs
  · cases hs
  · exact hs

theorem Normal.get_eq_none_of_nextFrom {m : SortedMap Nat Nat} (h : Normal m) {i s e j : Nat}
    (hnext : m.nextFrom i = some (s, e)) (hij : i ≤ j) (hje : j ≤ e) (hne : j ≠ s) :
    m.get j = none := by
  obtain ⟨hs, _, hfirst⟩ := SortedMap.nextFrom_eq_some.mp hnext
  cases hj : m.get j with
  | none => rfl
  | some e' =>
      have hsj := hfirst j e' hj hij
      have := h.apart s e j e' hs hj (by omega)
      omega

theorem Normal.eq_or_apart_of_prevBelow {m : SortedMap Nat Nat} (h : Normal m) {k ps pe s e : Nat}
    (hprev : m.prevBelow k = some (ps, pe)) (hs : m.get s = some e) (hk : s < k) :
    (s = ps ∧ e = pe) ∨ e + 1 < ps := by
  obtain ⟨hps, _, hmax⟩ := SortedMap.prevBelow_eq_some.mp hprev
  rcases Nat.lt_or_eq_of_le (hmax s e hs hk) with hlt | heq
  · exact Or.inr (h.apart s e ps pe hs hps hlt)
  · rw [heq, hps] at hs
    exact Or.inl ⟨heq, (Option.some.inj hs).symm⟩

theorem Normal.insert {m : SortedMap Nat Nat} (h : Normal m) {a b : Nat} (hab : a ≤ b)
    (hsep : ∀ s e, m.get s = some e → s ≠ a → e + 1 < a ∨ b + 1 < s) : Normal (m.insert a b) where
  le := by
    intro s e hs
    rw [SortedMap.get_insert] at hs
    split at hs
    · next heq =>
        cases hs
        omega
    · exact h.le s e hs
  apart := by
    intro s e s' e' hs hs' hlt
    rw [SortedMap.get_insert] at hs hs'
    split at hs <;> split at hs'
    · omega
    · next heq hne =>
        cases hs
        have hle := h.le s' e' hs'
        have := hsep s' e' hs' hne
        omega
    · next hne heq =>
        cases hs'
        have hle := h.le s e hs
        have := hsep s e hs hne
        omega
    · exact h.apart s e s' e' hs hs' hlt

theorem covered_insert {m : SortedMap Nat Nat} {a b i : Nat} :
    Covered (m.insert a b) i ↔ (a ≤ i ∧ i ≤ b) ∨ Covered (m.erase a) i := by
  constructor
  · intro h
    obtain ⟨s, e, hs, hsi, hie⟩ := h
    rw [SortedMap.get_insert] at hs
    by_cases hsa : s = a
    · rw [if_pos hsa] at hs
      cases hs
      exact Or.inl ⟨hsa ▸ hsi, hie⟩
    · rw [if_neg hsa] at hs
      refine Or.inr ⟨s, e, ?_, hsi, hie⟩
      rw [SortedMap.get_erase, if_neg hsa, hs]
  · intro h
    rcases h with ⟨hai, hib⟩ | ⟨s, e, hs, hsi, hie⟩
    · exact ⟨a, b, SortedMap.get_insert_self m a b, hai, hib⟩
    · rw [SortedMap.get_erase] at hs
      by_cases hsa : s = a
      · rw [if_pos hsa] at hs
        cases hs
      · rw [if_neg hsa] at hs
        refine ⟨s, e, ?_, hsi, hie⟩
        rw [SortedMap.get_insert, if_neg hsa, hs]

theorem covered_insert_of_none {m : SortedMap Nat Nat} {a b i : Nat} (h : m.get a = none) :
    Covered (m.insert a b) i ↔ (a ≤ i ∧ i ≤ b) ∨ Covered m i := by
  rw [covered_insert, SortedMap.erase_of_get_eq_none h]

theorem Normal.not_covered_succ {m : SortedMap Nat Nat} (h : Normal m) {s e : Nat}
    (hs : m.get s = some e) : ¬ Covered m (e + 1) := by
  intro hc
  obtain ⟨s', e', hs', hle, hge⟩ := hc
  have hse := h.le s e hs
  rcases Nat.lt_trichotomy s s' with hlt | heq | hgt
  · have := h.apart s e s' e' hs hs' hlt
    omega
  · subst heq
    rw [hs] at hs'
    cases hs'
    omega
  · have := h.apart s' e' s e hs' hs hgt
    omega

/-- The interval that starts at zero ends at the last element up to which all are covered. -/
theorem Normal.get_zero_iff {m : SortedMap Nat Nat} (h : Normal m) {k : Nat} :
    m.get 0 = some k ↔ (∀ i ≤ k, Covered m i) ∧ ¬ Covered m (k + 1) := by
  constructor
  · intro hk
    exact ⟨fun i hi => ⟨0, k, hk, Nat.zero_le i, hi⟩, h.not_covered_succ hk⟩
  · intro hall
    obtain ⟨s, e, hs, hs0, _⟩ := hall.1 0 (Nat.zero_le k)
    obtain rfl : s = 0 := by omega
    rcases Nat.lt_trichotomy e k with hlt | heq | hgt
    · exact absurd (hall.1 (e + 1) hlt) (h.not_covered_succ hs)
    · rw [hs, heq]
    · exact absurd ⟨0, e, hs, Nat.zero_le _, hgt⟩ hall.2

theorem Normal.get_zero_iff_isGreatest {m : SortedMap Nat Nat} (h : Normal m) {k : Nat} :
    m.get 0 = some k ↔ IsGreatest {k | ∀ i ≤ k, Covered m i} k := by
  rw [h.get_zero_iff]
  constructor
  · rintro ⟨hall, hnot⟩
    refine ⟨hall, ?_⟩
    intro j hj
    by_contra hlt
    exact hnot (hj (k + 1) (by omega))
  · rintro ⟨hall, hgreatest⟩
    refine ⟨hall, ?_⟩
    intro hsucc
    have hmem : k + 1 ∈ {k | ∀ i ≤ k, Covered m i} := by
      intro i hi
      rcases Nat.lt_or_eq_of_le hi with hlt | rfl
      · exact hall i (by omega)
      · exact hsucc
    have := hgreatest hmem
    omega

theorem Normal.len_eq_zero_iff {m : SortedMap Nat Nat} (h : Normal m) :
    m.len = 0 ↔ ∀ i, ¬ Covered m i := by
  rw [SortedMap.len_eq_zero]
  constructor
  · rintro hnone i ⟨s, e, hs, _⟩
    rw [hnone s] at hs
    cases hs
  · intro hnot s
    cases hs : m.get s with
    | none => rfl
    | some e => exact absurd (Covered.start h hs) (hnot s)

theorem Normal.get_zero_mono {m n : SortedMap Nat Nat} (hm : Normal m) (hn : Normal n)
    (hsub : ∀ i, Covered m i → Covered n i) : (m.get 0).getD 0 ≤ (n.get 0).getD 0 := by
  cases hk : m.get 0 with
  | none => exact Nat.zero_le _
  | some k =>
      have hall := (hm.get_zero_iff.mp hk).1
      obtain ⟨s, e, hs, hs0, _⟩ := hsub 0 (hall 0 (Nat.zero_le k))
      obtain rfl : s = 0 := by omega
      rw [hs, Option.getD_some, Option.getD_some]
      by_contra hlt
      exact hn.not_covered_succ hs (hsub _ (hall (e + 1) (by omega)))

/-- A bounded normal map is the single interval `0 .. n - 1` exactly when it covers it. -/
theorem Normal.single_iff {m : SortedMap Nat Nat} (h : Normal m) {n : Nat} (hn : 0 < n)
    (hb : ∀ s e, m.get s = some e → e < n) :
    m.entries = [(0, n - 1)] ↔ ∀ i < n, Covered m i := by
  rw [SortedMap.entries_eq_singleton]
  constructor
  · intro hsingle i hi
    exact ⟨0, n - 1, hsingle.1, Nat.zero_le _, by omega⟩
  · intro hall
    obtain ⟨s, e, hs, hs0, _⟩ := hall 0 hn
    obtain rfl : s = 0 := by omega
    have hlast : e = n - 1 := by
      have hlt := hb 0 e hs
      by_contra hne
      exact h.not_covered_succ hs (hall (e + 1) (by omega))
    refine ⟨hlast ▸ hs, ?_⟩
    intro j w hj
    by_contra hj0
    have := h.apart 0 e j w hs hj (by omega)
    have := h.le j w hj
    have := hb j w hj
    omega

end Framework
