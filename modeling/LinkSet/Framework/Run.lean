import Mathlib.Order.WellFounded

/-!
# Runs of a partial step function

A system takes one input at a time; `none` says that the input cannot be taken or that
handling it does not return. A property of a run is proved from one step lemma.
-/

namespace Framework

variable {σ ι : Type}

def run (step : σ → ι → Option σ) : σ → List ι → Option σ
  | s, [] => some s
  | s, a :: as => (step s a).bind fun s' => run step s' as

/-- Every step of the run from `s` meets `P` in the state before it. -/
def AllSteps (step : σ → ι → Option σ) (P : σ → ι → Prop) : σ → List ι → Prop
  | _, [] => True
  | s, a :: as => P s a ∧ ∀ s', step s a = some s' → AllSteps step P s' as

/-- Every state that the run from `s` passes through has the property. -/
def AllReached (step : σ → ι → Option σ) (Q : σ → Prop) : σ → List ι → Prop
  | s, [] => Q s
  | s, a :: as => Q s ∧ ∀ s', step s a = some s' → AllReached step Q s' as

instance AllSteps.instDecidable (step : σ → ι → Option σ) (P : σ → ι → Prop)
    [∀ s a, Decidable (P s a)] : ∀ s as, Decidable (AllSteps step P s as)
  | _, [] => isTrue trivial
  | s, a :: as =>
      match h : step s a with
      | none => decidable_of_iff (P s a) ⟨fun hp => ⟨hp, by simp [h]⟩, And.left⟩
      | some s' =>
          have := AllSteps.instDecidable step P s' as
          decidable_of_iff (P s a ∧ AllSteps step P s' as)
            ⟨fun hp => ⟨hp.1, by simpa [h] using hp.2⟩, fun hp => ⟨hp.1, hp.2 s' h⟩⟩

instance AllReached.instDecidable (step : σ → ι → Option σ) (Q : σ → Prop)
    [∀ s, Decidable (Q s)] : ∀ s as, Decidable (AllReached step Q s as)
  | s, [] => inferInstanceAs (Decidable (Q s))
  | s, a :: as =>
      match h : step s a with
      | none => decidable_of_iff (Q s) ⟨fun hq => ⟨hq, by simp [h]⟩, And.left⟩
      | some s' =>
          have := AllReached.instDecidable step Q s' as
          decidable_of_iff (Q s ∧ AllReached step Q s' as)
            ⟨fun hq => ⟨hq.1, by simpa [h] using hq.2⟩, fun hq => ⟨hq.1, hq.2 s' h⟩⟩

theorem AllSteps.of_forall_mem {step : σ → ι → Option σ} {D : ι → Prop} {as : List ι}
    (h : ∀ a ∈ as, D a) (s : σ) : AllSteps step (fun _ a => D a) s as := by
  induction as generalizing s with
  | nil => trivial
  | cons a as ih =>
      refine ⟨h a (by simp), ?_⟩
      intro s' _
      exact ih (fun b hb => h b (by simp [hb])) s'

theorem run_cons {step : σ → ι → Option σ} {s t : σ} {a : ι} {as : List ι} :
    run step s (a :: as) = some t ↔ ∃ s', step s a = some s' ∧ run step s' as = some t := by
  rw [run, Option.bind_eq_some_iff]

theorem run_append (step : σ → ι → Option σ) (s : σ) (as bs : List ι) :
    run step s (as ++ bs) = (run step s as).bind fun s' => run step s' bs := by
  induction as generalizing s with
  | nil => simp [run]
  | cons a as ih => simp [run, ih, Option.bind_assoc]

/-- What every step keeps when it meets its condition, a run keeps whose steps all do. -/
theorem run_invariant_of {step : σ → ι → Option σ} {P : σ → ι → Prop} {Inv : σ → Prop}
    (hstep : ∀ s a s', Inv s → P s a → step s a = some s' → Inv s') {s t : σ} {as : List ι}
    (hs : Inv s) (hall : AllSteps step P s as) (hrun : run step s as = some t) : Inv t := by
  induction as generalizing s with
  | nil =>
      obtain rfl := Option.some.inj hrun
      exact hs
  | cons a as ih =>
      obtain ⟨s', hs', hrun⟩ := run_cons.mp hrun
      exact ih (hstep s a s' hs hall.1 hs') (hall.2 s' hs') hrun

/-- An invariant that speaks of the inputs taken so far. -/
theorem run_history {step : σ → ι → Option σ} {Inv : List ι → σ → Prop}
    (hstep : ∀ taken s a s', Inv taken s → step s a = some s' → Inv (taken ++ [a]) s')
    {taken as : List ι} {s t : σ} (hs : Inv taken s) (hrun : run step s as = some t) :
    Inv (taken ++ as) t := by
  induction as generalizing taken s with
  | nil =>
      obtain rfl := Option.some.inj hrun
      rw [List.append_nil]
      exact hs
  | cons a as ih =>
      obtain ⟨s', hs', hrun⟩ := run_cons.mp hrun
      have h := ih (hstep taken s a s' hs hs') hrun
      rw [List.append_assoc] at h
      exact h

theorem run_invariant {step : σ → ι → Option σ} {Inv : σ → Prop}
    (hstep : ∀ s a s', Inv s → step s a = some s' → Inv s') {s t : σ} {as : List ι}
    (hs : Inv s) (hrun : run step s as = some t) : Inv t :=
  @run_history σ ι step (fun _ => Inv) (fun _ => hstep) [] as s t hs hrun

theorem AllReached.head {step : σ → ι → Option σ} {Q : σ → Prop} {s : σ} {as : List ι}
    (h : AllReached step Q s as) : Q s := by
  cases as with
  | nil => exact h
  | cons _ _ => exact h.1

theorem AllReached.final {step : σ → ι → Option σ} {Q : σ → Prop} {s t : σ} {as : List ι}
    (h : AllReached step Q s as) (hrun : run step s as = some t) : Q t := by
  induction as generalizing s with
  | nil =>
      obtain rfl := Option.some.inj hrun
      exact h
  | cons a as ih =>
      obtain ⟨s', hs', hrun⟩ := run_cons.mp hrun
      exact ih (h.2 s' hs') hrun

/-- A property that a step keeps exactly when it meets its condition holds throughout a run
exactly when all its steps do. `Inv` is what the steps that meet the condition keep besides. -/
theorem allReached_iff_allSteps {step : σ → ι → Option σ} {P : σ → ι → Prop} {Q Inv : σ → Prop}
    (hiff : ∀ s a s', Inv s → Q s → step s a = some s' → (Q s' ↔ P s a))
    (hinv : ∀ s a s', Inv s → Q s → P s a → step s a = some s' → Inv s')
    (hstuck : ∀ s a, Inv s → Q s → step s a = none → P s a) {s : σ} (as : List ι) (hs : Inv s)
    (hq : Q s) : AllReached step Q s as ↔ AllSteps step P s as := by
  induction as generalizing s with
  | nil => exact ⟨fun _ => trivial, fun _ => hq⟩
  | cons a as ih =>
      cases hstep : step s a with
      | none =>
          have hP := hstuck s a hs hq hstep
          exact ⟨fun _ => ⟨hP, by simp [hstep]⟩, fun _ => ⟨hq, by simp [hstep]⟩⟩
      | some s' =>
          have hPQ := hiff s a s' hs hq hstep
          simp only [AllReached, AllSteps, hstep, Option.some.injEq, forall_eq']
          constructor
          · rintro ⟨_, hrest⟩
            have hq' := hrest.head
            have hP := hPQ.mp hq'
            exact ⟨hP, (ih (hinv s a s' hs hq hP hstep) hq').mp hrest⟩
          · rintro ⟨hP, hrest⟩
            exact ⟨hq, (ih (hinv s a s' hs hq hP hstep) (hPQ.mpr hP)).mpr hrest⟩

/-- Every run from the state, whatever inputs it takes, is finite, and ends with the property
when no input can be taken any more. -/
inductive AlwaysEnds (step : σ → ι → Option σ) (Q : σ → Prop) : σ → Prop where
  | intro (s : σ) (hdone : (∀ a, step s a = none) → Q s)
      (hnext : ∀ a s', step s a = some s' → AlwaysEnds step Q s') : AlwaysEnds step Q s

/-- A rank that every step lowers. -/
theorem AlwaysEnds.of_rank {α : Type} {lt : α → α → Prop} (hwf : WellFounded lt)
    {step : σ → ι → Option σ} {Q : σ → Prop} {Inv : α → σ → Prop}
    (hstep : ∀ x s a s', Inv x s → step s a = some s' → ∃ y, lt y x ∧ Inv y s')
    (hdone : ∀ x s, Inv x s → (∀ a, step s a = none) → Q s) {x : α} {s : σ} (h : Inv x s) :
    AlwaysEnds step Q s := by
  induction x using hwf.induction generalizing s with
  | _ x ih =>
      apply AlwaysEnds.intro
      · exact hdone x s h
      · intro a s' hs'
        obtain ⟨y, hy, hinv⟩ := hstep x s a s' h hs'
        exact ih y hy hinv

end Framework
