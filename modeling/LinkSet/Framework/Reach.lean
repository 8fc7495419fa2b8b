import LinkSet.Framework.Run

/-!
# Reachable states and simulation

One system simulates another if every step of the second is matched by a run, perhaps an empty
one, of the first. Both may be restricted to steps that meet a condition.
-/

namespace Framework

variable {σ τ ι κ : Type}

theorem AllSteps.append {step : σ → ι → Option σ} {P : σ → ι → Prop} {s t : σ} {as bs : List ι}
    (h : AllSteps step P s as) (hrun : run step s as = some t) (h' : AllSteps step P t bs) :
    AllSteps step P s (as ++ bs) := by
  induction as generalizing s with
  | nil =>
      obtain rfl := Option.some.inj hrun
      exact h'
  | cons a as ih =>
      obtain ⟨s', hs', hrun⟩ := run_cons.mp hrun
      refine ⟨h.1, ?_⟩
      intro s'' hs''
      rw [hs'] at hs''
      obtain rfl := Option.some.inj hs''
      exact ih (h.2 s' hs') hrun

theorem AllSteps.and {step : σ → ι → Option σ} {P P' : σ → ι → Prop} {s : σ} {as : List ι}
    (h : AllSteps step P s as) (h' : AllSteps step P' s as) :
    AllSteps step (fun s a => P s a ∧ P' s a) s as := by
  induction as generalizing s with
  | nil => trivial
  | cons a as ih => exact ⟨⟨h.1, h'.1⟩, fun s' hs' => ih (h.2 s' hs') (h'.2 s' hs')⟩

theorem AllReached.steps {step : σ → ι → Option σ} {Q : σ → Prop} {s : σ} {as : List ι}
    (h : AllReached step Q s as) :
    AllSteps step (fun s a => ∀ s', step s a = some s' → Q s') s as := by
  induction as generalizing s with
  | nil => trivial
  | cons a as ih => exact ⟨fun s' hs' => (h.2 s' hs').head, fun s' hs' => ih (h.2 s' hs')⟩

/-- An invariant with a count of some of the inputs. -/
theorem run_counted {step : σ → ι → Option σ} {P : σ → ι → Prop} {Inv : Nat → σ → Prop}
    (c : ι → Bool) (hstep : ∀ n s a s', Inv n s → P s a → step s a = some s' →
      Inv (n + if c a then 1 else 0) s') {n : Nat} {s t : σ} {as : List ι} (hs : Inv n s)
    (hall : AllSteps step P s as) (hrun : run step s as = some t) : Inv (n + as.countP c) t := by
  induction as generalizing n s with
  | nil =>
      obtain rfl := Option.some.inj hrun
      exact hs
  | cons a as ih =>
      obtain ⟨s', hs', hrun⟩ := run_cons.mp hrun
      have hnext := ih (hstep n s a s' hs hall.1 hs') (hall.2 s' hs') hrun
      rw [List.countP_cons, Nat.add_comm (as.countP c), ← Nat.add_assoc]
      exact hnext

theorem exists_prefix_of_not_allReached {step : σ → ι → Option σ} {Q : σ → Prop} {s t : σ}
    {as : List ι} (h : ¬ AllReached step Q s as) (hrun : run step s as = some t) :
    ∃ pre u, pre <+: as ∧ run step s pre = some u ∧ ¬ Q u := by
  induction as generalizing s with
  | nil => exact ⟨[], s, List.prefix_rfl, rfl, h⟩
  | cons a as ih =>
      obtain ⟨s', hs', hrun⟩ := run_cons.mp hrun
      by_cases hq : Q s
      · have hrest : ¬ AllReached step Q s' as := by
          intro hall
          refine h ⟨hq, ?_⟩
          intro s'' hs''
          rw [hs'] at hs''
          obtain rfl := Option.some.inj hs''
          exact hall
        obtain ⟨pre, u, hpre, hrun', hu⟩ := ih hrest hrun
        exact ⟨a :: pre, u, List.cons_prefix_cons.mpr ⟨rfl, hpre⟩, run_cons.mpr ⟨s', hs', hrun'⟩, hu⟩
      · exact ⟨[], s, List.nil_prefix, rfl, hq⟩

/-- A run all of whose steps meet the condition leads from `s` to `t`. -/
def Reaches (step : σ → ι → Option σ) (P : σ → ι → Prop) (s t : σ) : Prop :=
  ∃ as, AllSteps step P s as ∧ run step s as = some t

namespace Reaches

variable {step : σ → ι → Option σ} {P : σ → ι → Prop} {s t u : σ}

theorem refl (s : σ) : Reaches step P s s := ⟨[], trivial, rfl⟩

theorem one {a : ι} (hP : P s a) (hstep : step s a = some t) : Reaches step P s t :=
  ⟨[a], ⟨hP, fun _ _ => trivial⟩, run_cons.mpr ⟨t, hstep, rfl⟩⟩

theorem trans (h : Reaches step P s t) (h' : Reaches step P t u) : Reaches step P s u := by
  obtain ⟨as, has, hrun⟩ := h
  obtain ⟨bs, hbs, hrun'⟩ := h'
  refine ⟨as ++ bs, has.append hrun hbs, ?_⟩
  rw [run_append, hrun]
  exact hrun'

theorem invariant {Inv : σ → Prop} (hstep : ∀ s a s', Inv s → P s a → step s a = some s' → Inv s')
    (h : Reaches step P s t) (hs : Inv s) : Inv t := by
  obtain ⟨as, has, hrun⟩ := h
  exact run_invariant_of hstep hs has hrun

end Reaches

/-- A relation that every step keeps, matched by a run of the other system, is kept by every
run. -/
theorem run_simulated {step : σ → ι → Option σ} {step' : τ → κ → Option τ} {C : σ → ι → Prop}
    {P : τ → κ → Prop} {R : σ → τ → Prop}
    (hsim : ∀ s a s' t, R s t → C s a → step s a = some s' → ∃ t', Reaches step' P t t' ∧ R s' t')
    {s s' : σ} {t : τ} {as : List ι} (hR : R s t) (hall : AllSteps step C s as)
    (hrun : run step s as = some s') : ∃ t', Reaches step' P t t' ∧ R s' t' := by
  induction as generalizing s t with
  | nil =>
      obtain rfl := Option.some.inj hrun
      exact ⟨t, .refl t, hR⟩
  | cons a as ih =>
      obtain ⟨s₁, hs₁, hrun⟩ := run_cons.mp hrun
      obtain ⟨t₁, ht₁, hR₁⟩ := hsim s a s₁ t hR hall.1 hs₁
      obtain ⟨t', ht', hR'⟩ := ih hR₁ (hall.2 s₁ hs₁) hrun
      exact ⟨t', ht₁.trans ht', hR'⟩

end Framework
