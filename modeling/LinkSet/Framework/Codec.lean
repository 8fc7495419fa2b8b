import LinkSet.Framework.Machine

/-!
# Decoders that read one word off the front of their input

A decoder takes a list of symbols and returns a value with the symbols it left unread. `Reads`
says that it accepts exactly the words of a language, whatever follows them. The rules below
build such a decoder from its parts, and a decoder that reads a language shows that no word of
it is a proper prefix of another.
-/

namespace Framework

variable {σ ε α β : Type}

/-- `dec` returns `a` and the rest `r` exactly on a word of `a` followed by `r`. -/
def Reads (dec : List σ → Except ε (α × List σ)) (lang : α → List σ → Prop) : Prop :=
  ∀ s a r, dec s = .ok (a, r) ↔ ∃ w, lang a w ∧ s = w ++ r

namespace Reads

theorem congr {dec : List σ → Except ε (α × List σ)} {lang lang' : α → List σ → Prop}
    (h : Reads dec lang) (hlang : ∀ a w, lang a w ↔ lang' a w) : Reads dec lang' := by
  intro s a r
  rw [h s a r]
  simp only [hlang]

theorem pure (a : α) :
    Reads (fun s => Except.ok (a, s) : List σ → Except ε (α × List σ))
      (fun b w => b = a ∧ w = []) := by
  intro s b r
  simp only [Except.ok.injEq, Prod.mk.injEq]
  constructor
  · rintro ⟨rfl, rfl⟩
    exact ⟨[], ⟨rfl, rfl⟩, rfl⟩
  · rintro ⟨w, ⟨rfl, rfl⟩, hs⟩
    exact ⟨rfl, by simpa using hs⟩

theorem fail (e : ε) :
    Reads (fun _ => Except.error e : List σ → Except ε (α × List σ)) (fun _ _ => False) := by
  intro s b r
  simp

theorem bind {dec : List σ → Except ε (α × List σ)} {lang : α → List σ → Prop}
    {next : α → List σ → Except ε (β × List σ)} {lang' : α → β → List σ → Prop}
    (h : Reads dec lang) (hnext : ∀ a w, lang a w → Reads (next a) (lang' a)) :
    Reads (fun s => dec s >>= fun x => next x.1 x.2)
      (fun b w => ∃ a u v, lang a u ∧ lang' a b v ∧ w = u ++ v) := by
  intro s b r
  rw [except_bind_eq_ok]
  constructor
  · rintro ⟨⟨a, mid⟩, hdec, hres⟩
    obtain ⟨u, hu, rfl⟩ := (h s a mid).mp hdec
    obtain ⟨v, hv, rfl⟩ := (hnext a u hu mid b r).mp hres
    exact ⟨u ++ v, ⟨a, u, v, hu, hv, rfl⟩, by rw [List.append_assoc]⟩
  · rintro ⟨w, ⟨a, u, v, hu, hv, rfl⟩, rfl⟩
    refine ⟨(a, v ++ r), (h _ a _).mpr ⟨u, hu, List.append_assoc u v r⟩, ?_⟩
    exact (hnext a u hu _ b r).mpr ⟨v, hv, rfl⟩

theorem ite (c : Prop) [Decidable c] {dec dec' : List σ → Except ε (α × List σ)}
    {lang lang' : α → List σ → Prop} (h : c → Reads dec lang) (h' : ¬c → Reads dec' lang') :
    Reads (fun s => if c then dec s else dec' s)
      (fun a w => if c then lang a w else lang' a w) := by
  by_cases hc : c
  · simpa only [hc, if_true] using h hc
  · simpa only [hc, if_false] using h' hc

variable {dec : List σ → Except ε (α × List σ)} {lang : α → List σ → Prop}

theorem ok_append (h : Reads dec lang) {a : α} {w : List σ} (hw : lang a w) (r : List σ) :
    dec (w ++ r) = .ok (a, r) :=
  (h _ a r).mpr ⟨w, hw, rfl⟩

theorem eq_of_append (h : Reads dec lang) {a b : α} {w v r : List σ} (hw : lang a w)
    (hv : lang b v) (hsplit : w = v ++ r) : r = [] := by
  have hdec : dec w = .ok (a, []) := by simpa using h.ok_append hw []
  have hdec' : dec w = .ok (b, r) := hsplit ▸ h.ok_append hv r
  rw [hdec] at hdec'
  cases hdec'
  rfl

theorem refuses_proper_prefixes (h : Reads dec lang) {a : α} {w p : List σ} (hw : lang a w)
    (hp : p <+: w) (hne : p ≠ w) (x : α × List σ) : dec p ≠ .ok x := by
  intro hx
  obtain ⟨tail, rfl⟩ := hp
  obtain ⟨v, hv, rfl⟩ := (h p x.1 x.2).mp hx
  have hnil : x.2 ++ tail = [] := h.eq_of_append hw hv (List.append_assoc v x.2 tail)
  exact hne (by rw [List.append_assoc, hnil, (List.append_eq_nil_iff.mp hnil).1])

end Reads

end Framework
