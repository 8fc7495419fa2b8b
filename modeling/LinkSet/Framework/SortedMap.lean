import Mathlib.Data.List.Induction
import Mathlib.Data.List.Sort
import Mathlib.Order.Basic

/-!
# Sorted maps

A finite map kept as its list of entries in strictly increasing key order, with the
cursor-style queries of an ordered tree map: the first entry at or after a key, the last
entry before it, and the split of the map at a key. Every operation is characterised by
its lookups, so a proof about a map never inspects the entry list.
-/

namespace Framework

/-- A finite map in key order. -/
structure SortedMap (κ α : Type) [LinearOrder κ] where
  entries : List (κ × α)
  sorted : entries.Pairwise fun x y => x.1 < y.1

namespace SortedMap

variable {κ α : Type} [LinearOrder κ]

def empty : SortedMap κ α := ⟨[], List.Pairwise.nil⟩

def get (m : SortedMap κ α) (k : κ) : Option α :=
  (m.entries.find? fun e => e.1 = k).map Prod.snd

/-- Keep the entries selected by `p`. -/
def retain (m : SortedMap κ α) (p : κ → α → Bool) : SortedMap κ α :=
  ⟨m.entries.filter fun e => p e.1 e.2, m.sorted.filter _⟩

def erase (m : SortedMap κ α) (k : κ) : SortedMap κ α := m.retain fun j _ => j ≠ k

private theorem insert_sorted (m : SortedMap κ α) (k : κ) (v : α) :
    (m.entries.filter (fun e => e.1 < k) ++ (k, v) :: m.entries.filter (fun e => k < e.1)).Pairwise
      fun x y => x.1 < y.1 := by
  rw [List.pairwise_append, List.pairwise_cons]
  refine ⟨m.sorted.filter _, ⟨?_, m.sorted.filter _⟩, ?_⟩
  · intro e he
    simpa using (List.mem_filter.mp he).2
  · intro a ha b hb
    have hak : a.1 < k := by simpa using (List.mem_filter.mp ha).2
    rcases List.mem_cons.mp hb with rfl | hb
    · exact hak
    · have hkb : k < b.1 := by simpa using (List.mem_filter.mp hb).2
      exact hak.trans hkb

/-- Bind `k` to `v`, replacing an earlier binding. -/
def insert (m : SortedMap κ α) (k : κ) (v : α) : SortedMap κ α :=
  ⟨m.entries.filter (fun e => e.1 < k) ++ (k, v) :: m.entries.filter (fun e => k < e.1),
    insert_sorted m k v⟩

/-- The entries whose key is at least `k`, in order. -/
def rangeFrom (m : SortedMap κ α) (k : κ) : List (κ × α) := m.entries.filter fun e => k ≤ e.1

/-- The first entry at or after `k`. -/
def nextFrom (m : SortedMap κ α) (k : κ) : Option (κ × α) := (m.rangeFrom k).head?

/-- The last entry strictly before `k`. -/
def prevBelow (m : SortedMap κ α) (k : κ) : Option (κ × α) :=
  (m.entries.filter fun e => e.1 < k).getLast?

/-- The part before `k` and the part from `k` on. -/
def splitOff (m : SortedMap κ α) (k : κ) : SortedMap κ α × SortedMap κ α :=
  (m.retain fun j _ => j < k, m.retain fun j _ => k ≤ j)

def first (m : SortedMap κ α) : Option (κ × α) := m.entries.head?

def len (m : SortedMap κ α) : Nat := m.entries.length

def values (m : SortedMap κ α) : List α := m.entries.map Prod.snd

private theorem key_unique {l : List (κ × α)} (h : l.Pairwise fun x y => x.1 < y.1)
    {k : κ} {v w : α} (hv : (k, v) ∈ l) (hw : (k, w) ∈ l) : v = w := by
  induction l with
  | nil => simp at hv
  | cons e l ih =>
      have htail := (List.pairwise_cons.mp h).2
      have hhead := (List.pairwise_cons.mp h).1
      rcases List.mem_cons.mp hv with hv | hv <;> rcases List.mem_cons.mp hw with hw | hw
      · simpa using hv.trans hw.symm
      · exact absurd (hhead _ hw) (by simp [← hv])
      · exact absurd (hhead _ hv) (by simp [← hw])
      · exact ih htail hv hw

theorem get_eq_some {m : SortedMap κ α} {k : κ} {v : α} :
    m.get k = some v ↔ (k, v) ∈ m.entries := by
  unfold get
  constructor
  · intro h
    obtain ⟨e, he, rfl⟩ := Option.map_eq_some_iff.mp h
    have hk : e.1 = k := by simpa using List.find?_some he
    subst hk
    exact List.mem_of_find?_eq_some he
  · intro h
    cases hf : m.entries.find? fun e => e.1 = k with
    | none => simpa using List.find?_eq_none.mp hf _ h
    | some e =>
        have hk : e.1 = k := by simpa using List.find?_some hf
        have he := List.mem_of_find?_eq_some hf
        subst hk
        exact congrArg some (key_unique m.sorted he h)

theorem get_eq_none {m : SortedMap κ α} {k : κ} :
    m.get k = none ↔ ∀ v, (k, v) ∉ m.entries := by
  constructor
  · intro h v hv
    rw [get_eq_some.mpr hv] at h
    cases h
  · intro h
    cases hg : m.get k with
    | none => rfl
    | some v => exact absurd (get_eq_some.mp hg) (h v)

theorem ext_get {m n : SortedMap κ α} (h : ∀ k, m.get k = n.get k) : m = n := by
  have hmem (e : κ × α) : e ∈ m.entries ↔ e ∈ n.entries := by
    rw [← get_eq_some (k := e.1) (v := e.2), ← get_eq_some (k := e.1) (v := e.2), h]
  have hnd (p : SortedMap κ α) : p.entries.Nodup :=
    p.sorted.imp fun {a b} hab heq => (ne_of_lt hab) (congrArg Prod.fst heq)
  have hperm := (List.perm_ext_iff_of_nodup (hnd m) (hnd n)).mpr hmem
  have hent : m.entries = n.entries :=
    hperm.eq_of_pairwise (fun a b _ _ hab hba => absurd hab (lt_asymm hba)) m.sorted n.sorted
  cases m
  cases n
  simpa using hent

@[simp] theorem get_empty (k : κ) : (empty : SortedMap κ α).get k = none := rfl

theorem get_retain (m : SortedMap κ α) (p : κ → α → Bool) (k : κ) :
    (m.retain p).get k = (m.get k).filter (p k) := by
  ext v
  rw [get_eq_some, Option.filter_eq_some_iff, get_eq_some]
  simp [retain]

theorem get_erase (m : SortedMap κ α) (k j : κ) :
    (m.erase k).get j = if j = k then none else m.get j := by
  rw [erase, get_retain]
  split
  · subst j
    cases m.get k <;> simp
  · next h => cases m.get j <;> simp [h]

theorem get_insert (m : SortedMap κ α) (k : κ) (v : α) (j : κ) :
    (m.insert k v).get j = if j = k then some v else m.get j := by
  ext w
  rw [get_eq_some]
  split
  · next h =>
      subst h
      simp [insert, eq_comm]
  · next h =>
      rw [get_eq_some]
      simp only [insert, List.mem_append, List.mem_cons, List.mem_filter, Prod.mk.injEq, h,
        false_and, false_or, decide_eq_true_eq]
      constructor
      · rintro (⟨hm, _⟩ | ⟨hm, _⟩) <;> exact hm
      · intro hm
        rcases lt_or_gt_of_ne h with hlt | hgt
        · exact Or.inl ⟨hm, hlt⟩
        · exact Or.inr ⟨hm, hgt⟩

@[simp] theorem get_insert_self (m : SortedMap κ α) (k : κ) (v : α) :
    (m.insert k v).get k = some v := by simp [get_insert]

theorem get_insert_of_ne (m : SortedMap κ α) {k j : κ} (v : α) (h : j ≠ k) :
    (m.insert k v).get j = m.get j := by rw [get_insert, if_neg h]

theorem get_splitOff_fst (m : SortedMap κ α) (k j : κ) :
    (m.splitOff k).1.get j = if j < k then m.get j else none := by
  rw [splitOff, get_retain]
  by_cases h : j < k <;> cases m.get j <;> simp [h]

theorem get_splitOff_snd (m : SortedMap κ α) (k j : κ) :
    (m.splitOff k).2.get j = if k ≤ j then m.get j else none := by
  rw [splitOff, get_retain]
  by_cases h : k ≤ j <;> cases m.get j <;> simp [h]

theorem mem_rangeFrom {m : SortedMap κ α} {k j : κ} {v : α} :
    (j, v) ∈ m.rangeFrom k ↔ m.get j = some v ∧ k ≤ j := by
  simp [rangeFrom, get_eq_some]

theorem rangeFrom_sorted (m : SortedMap κ α) (k : κ) :
    (m.rangeFrom k).Pairwise fun x y => x.1 < y.1 := m.sorted.filter _

private theorem head_least {l : List (κ × α)} (h : l.Pairwise fun x y => x.1 < y.1)
    {a : κ} {v : α} : l.head? = some (a, v) ↔ (a, v) ∈ l ∧ ∀ e ∈ l, a ≤ e.1 := by
  cases l with
  | nil => simp
  | cons e l =>
      have hhead := (List.pairwise_cons.mp h).1
      constructor
      · intro he
        obtain rfl : e = (a, v) := by simpa using he
        refine ⟨by simp, ?_⟩
        intro f hf
        rcases List.mem_cons.mp hf with rfl | hf
        · exact le_refl _
        · exact le_of_lt (hhead f hf)
      · rintro ⟨hmem, hle⟩
        rcases List.mem_cons.mp hmem with heq | hmem
        · simp [heq]
        · exact absurd (hhead _ hmem) (not_lt.mpr (hle e (by simp)))

theorem nextFrom_eq_some {m : SortedMap κ α} {k a : κ} {v : α} :
    m.nextFrom k = some (a, v) ↔
      m.get a = some v ∧ k ≤ a ∧ ∀ b w, m.get b = some w → k ≤ b → a ≤ b := by
  rw [nextFrom, head_least (m.rangeFrom_sorted k), mem_rangeFrom, and_assoc]
  refine and_congr_right fun _ => and_congr_right fun _ => ?_
  constructor
  · intro h b w hb hkb
    exact h (b, w) (mem_rangeFrom.mpr ⟨hb, hkb⟩)
  · rintro h ⟨b, w⟩ he
    exact h b w (mem_rangeFrom.mp he).1 (mem_rangeFrom.mp he).2

theorem rangeFrom_cons {m : SortedMap κ α} {k : κ} {v : α} (h : m.get k = some v) :
    ∃ rest, m.rangeFrom k = (k, v) :: rest := by
  have hnext : m.nextFrom k = some (k, v) :=
    nextFrom_eq_some.mpr ⟨h, le_refl k, fun _ _ _ hb => hb⟩
  rw [nextFrom, List.head?_eq_some_iff] at hnext
  exact hnext

theorem nextFrom_insert_of_lt {m : SortedMap κ α} {k a : κ} (v : α) (h : k < a) :
    (m.insert k v).nextFrom a = m.nextFrom a := by
  apply Option.ext
  rintro ⟨b, w⟩
  have hget : ∀ c u, a ≤ c → ((m.insert k v).get c = some u ↔ m.get c = some u) := by
    intro c u hac
    rw [get_insert_of_ne m v (ne_of_gt (h.trans_le hac))]
  rw [nextFrom_eq_some, nextFrom_eq_some]
  constructor
  · rintro ⟨hb, hab, hfirst⟩
    exact ⟨(hget b w hab).mp hb, hab, fun c u hc hac => hfirst c u ((hget c u hac).mpr hc) hac⟩
  · rintro ⟨hb, hab, hfirst⟩
    exact ⟨(hget b w hab).mpr hb, hab, fun c u hc hac => hfirst c u ((hget c u hac).mp hc) hac⟩

theorem erase_insert_of_ne {m : SortedMap κ α} {k a : κ} (v : α) (h : a ≠ k) :
    (m.insert k v).erase a = (m.erase a).insert k v := by
  apply ext_get
  intro j
  simp only [get_erase, get_insert]
  by_cases hj : j = a
  · rw [if_pos hj, if_neg (hj ▸ h), if_pos hj]
  · rw [if_neg hj, if_neg hj]

theorem erase_of_get_eq_none {m : SortedMap κ α} {k : κ} (h : m.get k = none) : m.erase k = m := by
  apply ext_get
  intro j
  rw [get_erase]
  split
  · next hj => rw [hj, h]
  · rfl

theorem nextFrom_eq_none {m : SortedMap κ α} {k : κ} :
    m.nextFrom k = none ↔ ∀ b w, m.get b = some w → b < k := by
  rw [nextFrom, List.head?_eq_none_iff, List.eq_nil_iff_forall_not_mem]
  constructor
  · intro h b w hb
    by_contra hkb
    exact h (b, w) (mem_rangeFrom.mpr ⟨hb, not_lt.mp hkb⟩)
  · rintro h ⟨b, w⟩ he
    exact absurd (mem_rangeFrom.mp he).2 (not_le.mpr (h b w (mem_rangeFrom.mp he).1))

theorem first_eq_some {m : SortedMap κ α} {a : κ} {v : α} :
    m.first = some (a, v) ↔ m.get a = some v ∧ ∀ b w, m.get b = some w → a ≤ b := by
  rw [first, head_least m.sorted, get_eq_some]
  refine and_congr_right fun _ => ?_
  constructor
  · intro h b w hb
    exact h (b, w) (get_eq_some.mp hb)
  · rintro h ⟨b, w⟩ he
    exact h b w (get_eq_some.mpr he)

theorem first_eq_none {m : SortedMap κ α} : m.first = none ↔ ∀ k, m.get k = none := by
  rw [first, List.head?_eq_none_iff, List.eq_nil_iff_forall_not_mem]
  constructor
  · intro h k
    exact get_eq_none.mpr fun v => h (k, v)
  · rintro h ⟨k, v⟩ he
    exact get_eq_none.mp (h k) v he

private theorem getLast_greatest {l : List (κ × α)} (h : l.Pairwise fun x y => x.1 < y.1)
    {a : κ} {v : α} : l.getLast? = some (a, v) ↔ (a, v) ∈ l ∧ ∀ e ∈ l, e.1 ≤ a := by
  induction l using List.reverseRecOn with
  | nil => simp
  | append_singleton l e _ =>
      have hlast : ∀ f ∈ l, f.1 < e.1 := by
        intro f hf
        exact (List.pairwise_append.mp h).2.2 f hf e (by simp)
      rw [List.getLast?_concat]
      constructor
      · intro he
        obtain rfl : e = (a, v) := by simpa using he
        refine ⟨by simp, ?_⟩
        intro f hf
        rcases List.mem_append.mp hf with hf | hf
        · exact le_of_lt (hlast f hf)
        · rw [List.mem_singleton.mp hf]
      · rintro ⟨hmem, hle⟩
        rcases List.mem_append.mp hmem with hmem | hmem
        · exact absurd (hlast _ hmem) (not_lt.mpr (hle e (by simp)))
        · rw [List.mem_singleton.mp hmem]

theorem prevBelow_eq_some {m : SortedMap κ α} {k a : κ} {v : α} :
    m.prevBelow k = some (a, v) ↔
      m.get a = some v ∧ a < k ∧ ∀ b w, m.get b = some w → b < k → b ≤ a := by
  rw [prevBelow, getLast_greatest (m.sorted.filter _), List.mem_filter, get_eq_some, and_assoc]
  refine and_congr_right fun _ => and_congr (by simp) ?_
  constructor
  · intro h b w hb hbk
    exact h (b, w) (List.mem_filter.mpr ⟨get_eq_some.mp hb, by simpa using hbk⟩)
  · rintro h ⟨b, w⟩ he
    obtain ⟨hm, hlt⟩ := List.mem_filter.mp he
    exact h b w (get_eq_some.mpr hm) (by simpa using hlt)

theorem prevBelow_eq_none {m : SortedMap κ α} {k : κ} :
    m.prevBelow k = none ↔ ∀ b w, m.get b = some w → k ≤ b := by
  rw [prevBelow, List.getLast?_eq_none_iff, List.eq_nil_iff_forall_not_mem]
  constructor
  · intro h b w hb
    by_contra hkb
    exact h (b, w) (List.mem_filter.mpr ⟨get_eq_some.mp hb, by simpa using hkb⟩)
  · rintro h ⟨b, w⟩ he
    obtain ⟨hm, hlt⟩ := List.mem_filter.mp he
    exact absurd (h b w (get_eq_some.mpr hm)) (not_le.mpr (by simpa using hlt))

/-- Removing a bound key makes the map shorter, the measure of a loop that consumes entries. -/
theorem len_erase_lt {m : SortedMap κ α} {k : κ} {v : α} (h : m.get k = some v) :
    (m.erase k).len < m.len := by
  refine List.length_filter_lt_length_iff_exists.mpr ⟨(k, v), get_eq_some.mp h, ?_⟩
  simp

theorem len_le_of_keys {m n : SortedMap κ α} (h : ∀ k v, m.get k = some v → ∃ w, n.get k = some w) :
    m.len ≤ n.len := by
  have hsub : m.entries.map Prod.fst ⊆ n.entries.map Prod.fst := by
    intro k hk
    obtain ⟨e, he, rfl⟩ := List.mem_map.mp hk
    obtain ⟨w, hw⟩ := h e.1 e.2 (get_eq_some.mpr he)
    exact List.mem_map.mpr ⟨(e.1, w), get_eq_some.mp hw, rfl⟩
  have hnodup : (m.entries.map Prod.fst).Nodup :=
    (List.pairwise_map.mpr m.sorted).imp fun hlt => ne_of_lt hlt
  have hlen := (List.subperm_of_subset hnodup hsub).length_le
  rwa [List.length_map, List.length_map] at hlen

theorem len_le_insert (m : SortedMap κ α) (k : κ) (v : α) : m.len ≤ (m.insert k v).len := by
  apply len_le_of_keys
  intro j w hj
  rw [get_insert]
  split
  · exact ⟨v, rfl⟩
  · exact ⟨w, hj⟩

theorem len_eq_zero {m : SortedMap κ α} : m.len = 0 ↔ ∀ k, m.get k = none := by
  rw [len, List.length_eq_zero_iff, ← List.head?_eq_none_iff]
  exact first_eq_none

theorem len_eq_one {m : SortedMap κ α} :
    m.len = 1 ↔ ∃ k v, m.entries = [(k, v)] := by
  rw [len, List.length_eq_one_iff]
  constructor
  · rintro ⟨⟨k, v⟩, h⟩
    exact ⟨k, v, h⟩
  · rintro ⟨k, v, h⟩
    exact ⟨(k, v), h⟩

theorem entries_eq_singleton {m : SortedMap κ α} {k : κ} {v : α} :
    m.entries = [(k, v)] ↔ m.get k = some v ∧ ∀ j w, m.get j = some w → j = k := by
  constructor
  · intro h
    refine ⟨get_eq_some.mpr (by simp [h]), ?_⟩
    intro j w hj
    have := get_eq_some.mp hj
    rw [h] at this
    simpa using congrArg Prod.fst (List.mem_singleton.mp this)
  · rintro ⟨hk, honly⟩
    have hm : m = empty.insert k v := by
      apply ext_get
      intro j
      rw [get_insert]
      split
      · next hj => rw [hj, hk]
      · next hj =>
          cases hg : m.get j with
          | none => rfl
          | some w => exact absurd (honly j w hg) hj
    rw [hm]
    rfl

theorem mem_values {m : SortedMap κ α} {v : α} : v ∈ m.values ↔ ∃ k, m.get k = some v := by
  simp [values, get_eq_some]

/-- A map with fewer entries than an interval has numbers leaves one of them out. -/
theorem exists_get_eq_none {m : SortedMap Nat α} {n : Nat} (a : Nat) (h : m.len < n) :
    ∃ k, a ≤ k ∧ k < a + n ∧ m.get k = none := by
  by_contra hall
  have hsub : List.range' a n ⊆ m.entries.map Prod.fst := by
    intro k hk
    obtain ⟨hle, hlt⟩ := List.mem_range'_1.mp hk
    cases hget : m.get k with
    | none => exact absurd ⟨k, hle, hlt, hget⟩ hall
    | some v => exact List.mem_map.mpr ⟨(k, v), get_eq_some.mp hget, rfl⟩
  have hlen := (List.subperm_of_subset List.nodup_range' hsub).length_le
  rw [List.length_range', List.length_map] at hlen
  exact absurd h (not_lt.mpr hlen)

/-- A map bound exactly on `a ..< b` has the keys `a`, `a + 1`, ... in turn. -/
theorem keys_of_interval {m : SortedMap Nat α} {a b : Nat}
    (h : ∀ k, (∃ v, m.get k = some v) ↔ a ≤ k ∧ k < b) :
    m.entries.map Prod.fst = List.range' a (b - a) := by
  have hlt : (m.entries.map Prod.fst).Pairwise (· < ·) := List.pairwise_map.mpr m.sorted
  have hperm : (m.entries.map Prod.fst).Perm (List.range' a (b - a)) := by
    apply (List.perm_ext_iff_of_nodup (hlt.imp fun hxy => ne_of_lt hxy) List.nodup_range').mpr
    intro k
    have hk := h k
    simp only [get_eq_some] at hk
    simp only [List.mem_map, Prod.exists, exists_and_right, exists_eq_right, hk,
      List.mem_range'_1]
    omega
  exact hperm.eq_of_pairwise (fun x y _ _ hxy hyx => absurd hxy (lt_asymm hyx)) hlt
    List.pairwise_lt_range'

theorem length_values_of_interval {m : SortedMap Nat α} {a b : Nat}
    (h : ∀ k, (∃ v, m.get k = some v) ↔ a ≤ k ∧ k < b) : m.values.length = b - a := by
  have := congrArg List.length (keys_of_interval h)
  simpa [values] using this

theorem values_getElem?_of_interval {m : SortedMap Nat α} {a b : Nat}
    (h : ∀ k, (∃ v, m.get k = some v) ↔ a ≤ k ∧ k < b) (i : Nat) :
    m.values[i]? = m.get (a + i) := by
  have hkeys := keys_of_interval h
  have hlen : m.entries.length = b - a := by
    have := congrArg List.length hkeys
    simpa using this
  by_cases hi : i < b - a
  · have hent : i < m.entries.length := by omega
    have hkey : m.entries[i].1 = a + i := by
      have := congrArg (fun l => l[i]?) hkeys
      simpa [List.getElem?_range', hi, hent] using this
    have hget : m.get (a + i) = some m.entries[i].2 := by
      rw [get_eq_some, ← hkey]
      exact List.getElem_mem hent
    rw [hget]
    simp [values, hent]
  · have hnone : m.get (a + i) = none := by
      cases hg : m.get (a + i) with
      | none => rfl
      | some v =>
          have := (h (a + i)).mp ⟨v, hg⟩
          omega
    rw [hnone]
    simp only [values, List.getElem?_eq_none_iff, List.length_map]
    omega

end SortedMap

theorem mapM_eq_some_map {α β : Type} {f : α → Option β} {g : α → β} {l : List α}
    (h : ∀ a ∈ l, f a = some (g a)) : l.mapM f = some (l.map g) := by
  induction l with
  | nil => rfl
  | cons a l ih =>
      rw [List.mapM_cons, h a (by simp), ih fun b hb => h b (by simp [hb])]
      rfl

end Framework
