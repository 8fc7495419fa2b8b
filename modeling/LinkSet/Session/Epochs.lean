import LinkSet.Framework.Run
import LinkSet.Session.Refinement

/-!
# The epochs of one endpoint

An endpoint's epoch never falls, its resets never name a later one, and it enters a session
only on a reset of its peer. Hence the epochs it announces grow from session to session, except
at the last epoch, where `increment` saturates.
-/

namespace LinkSet

open Framework

private theorem Epoch.increment_mono {a b : Epoch} (h : a.val ≤ b.val) :
    a.increment.val ≤ b.increment.val := by
  rw [Epoch.increment_val, Epoch.increment_val]
  omega

private theorem le_adopted {ep x : Option Epoch} (h : compareEpochs ep x = .lt) :
    optEpochToInt ep ≤ (x.getD Epoch.one).val := by
  rcases compareEpochs_eq_lt.mp h with hlt | ⟨rfl, rfl⟩
  · cases x with
    | none => simp [optEpochToInt] at hlt
    | some x => exact Nat.le_of_lt hlt
  · exact Nat.zero_le _

private theorem Perhaps.mem {s t : Signal} {out : List Signal} (h : Perhaps s out) (ht : t ∈ out) :
    t = s := by
  rcases h with rfl | rfl
  · cases ht
  · exact List.mem_singleton.mp ht

namespace Phase.Step

variable {p p' : Phase} {stim : Stimulus} {out : List Signal}

/-- The epoch of an endpoint never falls. -/
theorem level_le (h : Step p stim p' out) : p.level ≤ p'.level := by
  cases h with
  | idle => exact Nat.le_refl _
  | connect => exact Nat.le_refl _
  | firstLink => exact Nat.le_refl _
  | giveUp => exact Nat.le_refl _
  | linkMade => exact Nat.le_refl _
  | abandon => exact le_optEpochIncrement _
  | retry => exact Nat.le_refl _
  | request => exact Nat.le_refl _
  | insist => exact Nat.le_refl _
  | confirm => exact Nat.le_refl _
  | adopt hlt => exact le_adopted hlt
  | talk => exact Nat.le_refl _
  | close => exact Epoch.le_increment _
  | lost => exact Epoch.le_increment _
  | reconnect => exact Nat.le_refl _
  | wait => exact Nat.le_refl _
  | mismatch => exact Epoch.le_increment _
  | listenReconnecting => exact Nat.le_refl _
  | listenGracePeriod => exact Nat.le_refl _
  | reconnected => exact Nat.le_refl _
  | returned => exact Nat.le_refl _
  | reconnectEnds => exact Epoch.le_increment _
  | reconnectRestarts => exact Epoch.le_increment _
  | graceEnds => exact Epoch.le_increment _
  | graceRestarts => exact Epoch.le_increment _

private theorem chatter_reset {e : Epoch} {ep : Option Epoch} {req : Bool} (hout : Chatter e out)
    (hmem : .reset ep req ∈ out) : optEpochToInt ep ≤ e.val := by
  rcases hout _ hmem with heq | heq
  · cases heq
  · cases heq
    exact Nat.le_refl _

theorem reset_le (h : Step p stim p' out) {ep : Option Epoch} {req : Bool}
    (hmem : .reset ep req ∈ out) : optEpochToInt ep ≤ p'.level := by
  cases h with
  | idle => cases hmem
  | connect => simp at hmem
  | firstLink hout =>
      cases hout.mem hmem
      exact Nat.le_refl _
  | giveUp => simp at hmem
  | linkMade hout =>
      cases hout.mem (by simpa using hmem)
      exact Nat.le_refl _
  | abandon => cases hmem
  | retry => simp at hmem
  | request hout =>
      cases hout.mem hmem
      exact Nat.le_refl _
  | insist _ hout =>
      cases hout.mem hmem
      exact Nat.le_refl _
  | confirm hout =>
      cases hout.mem (by simpa using hmem)
      exact Nat.le_refl _
  | adopt _ hout =>
      cases hout.mem (by simpa using hmem)
      exact Nat.le_refl _
  | talk hout => exact chatter_reset hout hmem
  | close => simp at hmem
  | lost hout => exact (chatter_reset hout (by simpa using hmem)).trans (Epoch.le_increment _)
  | reconnect hout => exact chatter_reset hout (by simpa using hmem)
  | wait hout => exact chatter_reset hout hmem
  | mismatch _ hout =>
      cases hout.mem hmem
      exact Nat.le_refl _
  | listenReconnecting hout => exact chatter_reset hout hmem
  | listenGracePeriod hout => exact chatter_reset hout hmem
  | reconnected => simp at hmem
  | returned => cases hmem
  | reconnectEnds => simp at hmem
  | reconnectRestarts => simp at hmem
  | graceEnds => simp at hmem
  | graceRestarts => simp at hmem

/-- A session goes on, or it was begun by a reset that named its epoch, or by one that named
none and then the epoch is the first. -/
theorem session_origin (h : Step p stim p' out) {e : Epoch} (he : p'.session = some e) :
    p.session = some e ∨ ∃ x req, stim = .frame (.reset x req) ∧
      (x = some e ∨ (x = none ∧ e = Epoch.one)) := by
  cases h with
  | idle _ _ hp => exact Or.inl he
  | confirm =>
      cases he
      exact Or.inr ⟨_, _, rfl, Or.inl rfl⟩
  | @adopt _ x =>
      cases he
      cases x with
      | none => exact Or.inr ⟨_, _, rfl, Or.inr ⟨rfl, rfl⟩⟩
      | some x => exact Or.inr ⟨_, _, rfl, Or.inl rfl⟩
  | talk => exact Or.inl he
  | reconnect => exact Or.inl he
  | wait => exact Or.inl he
  | listenReconnecting => exact Or.inl he
  | listenGracePeriod => exact Or.inl he
  | reconnected => exact Or.inl he
  | returned => exact Or.inl he
  | _ => cases he

private theorem session_left (h : Step p stim p' out) {e : Epoch} (he : p.session = some e)
    (hleft : p'.session = none) : e.increment.val ≤ p'.level := by
  cases h with
  | idle _ _ hp =>
      rw [he] at hp
      cases hp
  | close =>
      cases he
      exact Nat.le_refl _
  | lost =>
      cases he
      exact Nat.le_refl _
  | mismatch =>
      cases he
      exact Nat.le_refl _
  | reconnectEnds =>
      cases he
      exact Nat.le_refl _
  | reconnectRestarts =>
      cases he
      exact Nat.le_refl _
  | graceEnds =>
      cases he
      exact Nat.le_refl _
  | graceRestarts =>
      cases he
      exact Nat.le_refl _
  | talk => cases hleft
  | reconnect => cases hleft
  | wait => cases hleft
  | listenReconnecting => cases hleft
  | listenGracePeriod => cases hleft
  | reconnected => cases hleft
  | returned => cases hleft
  | _ => cases he

end Phase.Step

/-- The epochs announced as connected. -/
def announced (out : List Signal) : List Epoch :=
  out.filterMap fun
    | .connected e => some e
    | _ => none

/-- The epochs a new manager was made for. -/
def freshEpochs (out : List Signal) : List Epoch :=
  out.filterMap fun
    | .fresh e => some e
    | _ => none

theorem announced_append (r t : List Signal) : announced (r ++ t) = announced r ++ announced t :=
  List.filterMap_append

theorem freshEpochs_append (r t : List Signal) :
    freshEpochs (r ++ t) = freshEpochs r ++ freshEpochs t :=
  List.filterMap_append

/-- Neither a session that begins nor one that begins anew. -/
def Uneventful (out : List Signal) : Prop := announced out = [] ∧ freshEpochs out = []

private theorem Perhaps.uneventful {ep : Option Epoch} {req : Bool} {out : List Signal}
    (h : Perhaps (.reset ep req) out) : Uneventful out := by
  rcases h with rfl | rfl <;> exact ⟨rfl, rfl⟩

private theorem Chatter.uneventful {e : Epoch} {out : List Signal} (h : Chatter e out) :
    Uneventful out := by
  induction out with
  | nil => exact ⟨rfl, rfl⟩
  | cons s out ih =>
      have htail := ih fun t ht => h t (by simp [ht])
      rcases h s (by simp) with rfl | rfl
      · exact htail
      · exact htail

private theorem Uneventful.append {r t : List Signal} (hr : Uneventful r) (ht : Uneventful t) :
    Uneventful (r ++ t) := by
  refine ⟨?_, ?_⟩
  · rw [announced_append, hr.1, ht.1, List.nil_append]
  · rw [freshEpochs_append, hr.2, ht.2, List.nil_append]

/-- A step announces nothing and stays outside or inside its session, or it begins a session
with an epoch that is at least the endpoint's own. -/
private theorem Phase.Step.announced_cases {p p' : Phase} {stim : Stimulus} {out : List Signal}
    (h : Step p stim p' out) :
    (Uneventful out ∧ (p'.session = none ∨ p'.session = p.session)) ∨
    (∃ e, announced out = [e] ∧ freshEpochs out = [e] ∧ p.session = none ∧ p.level ≤ e.val ∧
      p'.session = some e) := by
  cases h with
  | idle => exact Or.inl ⟨⟨rfl, rfl⟩, Or.inr rfl⟩
  | connect => exact Or.inl ⟨⟨rfl, rfl⟩, Or.inl rfl⟩
  | firstLink hout => exact Or.inl ⟨hout.uneventful, Or.inl rfl⟩
  | giveUp => exact Or.inl ⟨⟨rfl, rfl⟩, Or.inl rfl⟩
  | linkMade hout => exact Or.inl ⟨hout.uneventful.append ⟨rfl, rfl⟩, Or.inl rfl⟩
  | abandon => exact Or.inl ⟨⟨rfl, rfl⟩, Or.inl rfl⟩
  | retry => exact Or.inl ⟨⟨rfl, rfl⟩, Or.inl rfl⟩
  | request hout => exact Or.inl ⟨hout.uneventful, Or.inl rfl⟩
  | insist _ hout => exact Or.inl ⟨hout.uneventful, Or.inl rfl⟩
  | @confirm e _ _ hout =>
      refine Or.inr ⟨e, ?_, ?_, rfl, Nat.le_refl _, rfl⟩
      · rw [announced_append, hout.uneventful.1]
        rfl
      · rw [freshEpochs_append, hout.uneventful.2]
        rfl
  | adopt hlt hout =>
      refine Or.inr ⟨_, ?_, ?_, rfl, le_adopted hlt, rfl⟩
      · rw [announced_append, hout.uneventful.1]
        rfl
      · rw [freshEpochs_append, hout.uneventful.2]
        rfl
  | talk hout => exact Or.inl ⟨hout.uneventful, Or.inr rfl⟩
  | close => exact Or.inl ⟨⟨rfl, rfl⟩, Or.inl rfl⟩
  | lost hout => exact Or.inl ⟨hout.uneventful.append ⟨rfl, rfl⟩, Or.inl rfl⟩
  | reconnect hout => exact Or.inl ⟨hout.uneventful.append ⟨rfl, rfl⟩, Or.inr rfl⟩
  | wait hout => exact Or.inl ⟨hout.uneventful, Or.inr rfl⟩
  | mismatch _ hout => exact Or.inl ⟨hout.uneventful, Or.inl rfl⟩
  | listenReconnecting hout => exact Or.inl ⟨hout.uneventful, Or.inr rfl⟩
  | listenGracePeriod hout => exact Or.inl ⟨hout.uneventful, Or.inr rfl⟩
  | reconnected => exact Or.inl ⟨⟨rfl, rfl⟩, Or.inr rfl⟩
  | returned => exact Or.inl ⟨⟨rfl, rfl⟩, Or.inr rfl⟩
  | reconnectEnds => exact Or.inl ⟨⟨rfl, rfl⟩, Or.inl rfl⟩
  | reconnectRestarts => exact Or.inl ⟨⟨rfl, rfl⟩, Or.inl rfl⟩
  | graceEnds => exact Or.inl ⟨⟨rfl, rfl⟩, Or.inl rfl⟩
  | graceRestarts => exact Or.inl ⟨⟨rfl, rfl⟩, Or.inl rfl⟩

/-- A later epoch, or the last one once more. -/
def Epoch.Succeeds (a b : Epoch) : Prop := a.val < b.val ∨ (a = Epoch.last ∧ b = Epoch.last)

private theorem Epoch.succeeds_of_increment_le {a b : Epoch} (h : a.increment.val ≤ b.val) :
    a.Succeeds b := by
  rcases a.lt_increment_or_last with hlt | rfl
  · exact Or.inl (Nat.lt_of_lt_of_le hlt h)
  · right
    refine ⟨rfl, Epoch.ext_val ?_⟩
    have hb := b.lt
    rw [Epoch.increment_val] at h
    simp only [Epoch.last] at h ⊢
    omega

theorem Epoch.count_le_one {l : List Epoch} (h : l.Pairwise Epoch.Succeeds) {e : Epoch}
    (hne : e ≠ Epoch.last) : l.count e ≤ 1 := by
  induction l with
  | nil => simp
  | cons a l ih =>
      have hhead := (List.pairwise_cons.mp h).1
      by_cases hae : a = e
      · subst hae
        have hnot : a ∉ l := by
          intro hmem
          rcases hhead a hmem with hlt | hlast
          · exact Nat.lt_irrefl _ hlt
          · exact hne hlast.1
        rw [List.count_cons_self, List.count_eq_zero.mpr hnot]
      · rw [List.count_cons_of_ne hae]
        exact ih (List.pairwise_cons.mp h).2

/-- The announced epochs of a run so far, with the endpoint in phase `p`. -/
structure Ascending (p : Phase) (out : List Signal) : Prop where
  fresh : freshEpochs out = announced out
  ordered : (announced out).Pairwise Epoch.Succeeds
  current : ∀ e, p.session = some e → ∀ a ∈ announced out, a.val ≤ e.val
  passed : p.session = none → ∀ a ∈ announced out, a.increment.val ≤ p.level

theorem ascending_start (ep : Option Epoch) : Ascending (.disconnected ep) [] where
  fresh := rfl
  ordered := List.Pairwise.nil
  current := by simp [announced]
  passed := by simp [announced]

private theorem Ascending.step {p p' : Phase} {stim : Stimulus} {out delta : List Signal}
    (h : Ascending p out) (hstep : Phase.Step p stim p' delta) : Ascending p' (out ++ delta) := by
  rcases hstep.announced_cases with ⟨⟨hann, hfresh⟩, hsession⟩ | ⟨e, hann, hfresh, hp, hle, hp'⟩
  · have hsame : announced (out ++ delta) = announced out := by
      rw [announced_append, hann, List.append_nil]
    refine ⟨?_, ?_, ?_, ?_⟩
    · rw [hsame, freshEpochs_append, hfresh, List.append_nil, h.fresh]
    · rw [hsame]
      exact h.ordered
    · intro e he
      rw [hsame]
      rcases hsession with hnone | hkeep
      · rw [hnone] at he
        cases he
      · exact h.current e (hkeep ▸ he)
    · intro hnone a ha
      rw [hsame] at ha
      cases hp : p.session with
      | none => exact (h.passed hp a ha).trans hstep.level_le
      | some e =>
          exact (Epoch.increment_mono (h.current e hp a ha)).trans (hstep.session_left hp hnone)
  · have hnew : announced (out ++ delta) = announced out ++ [e] := by
      rw [announced_append, hann]
    have hbelow : ∀ a ∈ announced out, a.increment.val ≤ e.val :=
      fun a ha => (h.passed hp a ha).trans hle
    refine ⟨?_, ?_, ?_, ?_⟩
    · rw [hnew, freshEpochs_append, hfresh, h.fresh]
    · rw [hnew, List.pairwise_append]
      refine ⟨h.ordered, List.pairwise_singleton _ _, ?_⟩
      intro a ha b hb
      rw [List.mem_singleton.mp hb]
      exact Epoch.succeeds_of_increment_le (hbelow a ha)
    · intro e' he' a ha
      rw [hp'] at he'
      obtain rfl := Option.some.inj he'
      rw [hnew] at ha
      rcases List.mem_append.mp ha with ha | ha
      · exact a.le_increment.trans (hbelow a ha)
      · rw [List.mem_singleton.mp ha]
    · intro hnone
      rw [hp'] at hnone
      cases hnone

/-- The epochs of the `Connected` events in the record. -/
def connectedEpochs (record : List Effect) : List Epoch :=
  record.filterMap fun
    | .toCtrl (.connected e) => some e
    | _ => none

/-- The epochs of the managers made. -/
def managerEpochs (record : List Effect) : List Epoch :=
  record.filterMap fun
    | .newManager e => some e
    | _ => none

private theorem announced_signals (record : List Effect) :
    announced (signals record) = connectedEpochs record := by
  unfold announced signals connectedEpochs
  rw [List.filterMap_filterMap]
  apply List.filterMap_congr
  intro eff _
  cases eff with
  | toCtrl msg => cases msg <;> rfl
  | toLink id frame => cases frame <;> rfl
  | newManager _ => rfl
  | inserted _ _ _ => rfl

theorem freshEpochs_signals (record : List Effect) :
    freshEpochs (signals record) = managerEpochs record := by
  unfold freshEpochs signals managerEpochs
  rw [List.filterMap_filterMap]
  apply List.filterMap_congr
  intro eff _
  cases eff with
  | toCtrl msg => cases msg <;> rfl
  | toLink id frame => cases frame <;> rfl
  | newManager _ => rfl
  | inserted _ _ _ => rfl

namespace Core

def Ascends (core : Core) : Prop := Ascending core.state.phase (signals core.common.record)

theorem ascends_step (core : Core) (input : Nat × Event) (core' : Core) (h : Ascends core)
    (hstep : core.step input = some core') : Ascends core' := by
  obtain ⟨delta, hrecord, hphase⟩ := step_phase hstep
  unfold Ascends
  rw [hrecord, signals_append]
  exact Ascending.step h hphase

/-- In every run the announced epochs grow strictly, except that the last one may repeat, and
there is at most one manager for every other epoch. -/
theorem connectedEpochs_ascend (inputs : List (Nat × Event)) (core : Core)
    (hrun : run step start inputs = some core) :
    (connectedEpochs core.common.record).Pairwise Epoch.Succeeds ∧
      ∀ e, e ≠ Epoch.last → (managerEpochs core.common.record).count e ≤ 1 := by
  have hstart : Ascends start := ascending_start none
  have hasc := run_invariant ascends_step hstart hrun
  have hordered := hasc.ordered
  rw [announced_signals] at hordered
  refine ⟨hordered, ?_⟩
  intro e hne
  rw [← freshEpochs_signals, hasc.fresh, announced_signals]
  exact Epoch.count_le_one hordered hne

end Core

/-- A link that never closes and accepts every frame. -/
def steadyLink : Link := ⟨"pipe", 1024, by decide, true, fun _ => false, fun _ => true⟩

namespace Core

/-- Two sessions: the first with a peer that never had one, the second after a disconnect. -/
private def twoSessions : List (Nat × Event) :=
  [(0, .command (.addLink steadyLink)), (0, .frame 0 (.reset none true)),
    (0, .command .disconnect), (0, .command (.addLink steadyLink)),
    (0, .frame 1 (.reset none true)), (0, .frame 1 (.reset (some ⟨2, by decide, by decide⟩) false))]

theorem connectedEpochs_ascend_twoSessions :
    ∃ core, run step start twoSessions = some core ∧
      connectedEpochs core.common.record = [Epoch.one, ⟨2, by decide, by decide⟩] ∧
      (connectedEpochs core.common.record).Pairwise Epoch.Succeeds :=
  ⟨_, rfl, rfl, (connectedEpochs_ascend twoSessions _ rfl).1⟩

/-- A peer that names the last epoch: the session ends on a mismatched request, and `increment`
yields the same epoch for the next one. -/
theorem connectedEpochs_repeat_last :
    ∃ core, run step start [(0, .command (.addLink steadyLink)),
        (0, .frame 0 (.reset (some Epoch.last) false)), (0, .frame 0 (.reset none true)),
        (0, .frame 0 (.reset (some Epoch.last) false))] = some core ∧
      connectedEpochs core.common.record = [Epoch.last, Epoch.last] ∧
      managerEpochs core.common.record = [Epoch.last, Epoch.last] ∧
      ¬ (connectedEpochs core.common.record).Pairwise fun a b => a.val < b.val :=
  ⟨_, rfl, rfl, rfl, by decide⟩

end Core

end LinkSet
