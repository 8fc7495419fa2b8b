import LinkSet.Session.Epochs

/-!
# Two endpoints agree on their epoch

Two cores whose links lead to each other. The network keeps every frame either side ever handed
to a link and may deliver it to the other side at any time, over any of its readers, any number
of times or never.
-/

namespace LinkSet

open Framework

/-- The frames a core has handed to its links. -/
def sentFrames (record : List Effect) : List LinkProtocol :=
  record.filterMap fun
    | .toLink _ frame => some frame
    | _ => none

private theorem mem_sentFrames_reset {record : List Effect} {ep : Option Epoch} {req : Bool}
    (h : .reset ep req ∈ sentFrames record) : .reset ep req ∈ signals record := by
  obtain ⟨eff, hmem, heff⟩ := List.mem_filterMap.mp h
  cases eff with
  | toLink id frame =>
      obtain rfl := Option.some.inj heff
      exact List.mem_filterMap.mpr ⟨_, hmem, rfl⟩
  | toCtrl _ => cases heff
  | newManager _ => cases heff
  | inserted _ _ _ => cases heff

inductive Side where
  | left
  | right
deriving DecidableEq

structure Pair where
  left : Core
  right : Core

namespace Pair

def start : Pair := ⟨Core.start, Core.start⟩

inductive Action where
  /-- A command, a configuration change, the timer, a debug command or a connection task. -/
  | locally (side : Side) (now : Nat) (ev : Event)
  /-- The `n`-th frame that the other side sent arrives over a reader. -/
  | deliver (side : Side) (now reader n : Nat)

/-- One side handles an event. -/
def stepSide (p : Pair) (side : Side) (input : Nat × Event) : Option Pair :=
  match side with
  | .left => (p.left.step input).map fun left => { p with left }
  | .right => (p.right.step input).map fun right => { p with right }

def peer (p : Pair) : Side → Core
  | .left => p.right
  | .right => p.left

def step (p : Pair) : Action → Option Pair
  | .locally _ _ (.frame _ _) => none
  | .locally side now ev => p.stepSide side (now, ev)
  | .deliver side now reader n =>
      (sentFrames (p.peer side).common.record)[n]?.bind fun frame =>
        p.stepSide side (now, .frame reader frame)

theorem step_eq_some {p p' : Pair} {a : Action} (h : p.step a = some p') :
    ∃ side now ev, p.stepSide side (now, ev) = some p' ∧
      ∀ ep req, ev.stimulus = .frame (.reset ep req) →
        .reset ep req ∈ signals (p.peer side).common.record := by
  cases a with
  | locally side now ev =>
      cases ev with
      | frame id msg => cases h
      | command cmd =>
          refine ⟨side, now, .command cmd, h, ?_⟩
          intro ep req hstim
          cases cmd <;> cases hstim
      | config conf => exact ⟨side, now, .config conf, h, fun _ _ hstim => by cases hstim⟩
      | timer => exact ⟨side, now, .timer, h, fun _ _ hstim => by cases hstim⟩
      | debug cmd => exact ⟨side, now, .debug cmd, h, fun _ _ hstim => by cases hstim⟩
      | permits addr count =>
          exact ⟨side, now, .permits addr count, h, fun _ _ hstim => by cases hstim⟩
  | deliver side now reader n =>
      obtain ⟨frame, hget, h⟩ := Option.bind_eq_some_iff.mp h
      refine ⟨side, now, .frame reader frame, h, ?_⟩
      intro ep req hstim
      obtain rfl : frame = .reset ep req := by cases hstim; rfl
      exact mem_sentFrames_reset (List.mem_of_getElem? hget)

end Pair

/-- The resets of `a` name no epoch beyond its own, and a session of `a` has an epoch that `b`
has reached, or the first one. -/
structure Heard (a b : Core) : Prop where
  resets : ∀ ep req, .reset ep req ∈ signals a.common.record →
    optEpochToInt ep ≤ a.state.phase.level
  session : ∀ e, a.state.phase.session = some e → e.val ≤ b.state.phase.level ∨ e = Epoch.one

private theorem heard_start : Heard Core.start Core.start where
  resets := by simp [Core.start, CommonState.new]
  session := by
    intro e he
    cases he

private theorem Heard.step {a a' b : Core} {now : Nat} {ev : Event} (hab : Heard a b)
    (hba : Heard b a) (hstep : a.step (now, ev) = some a')
    (hsent : ∀ ep req, ev.stimulus = .frame (.reset ep req) → .reset ep req ∈ signals b.common.record) :
    Heard a' b := by
  obtain ⟨delta, hrecord, hphase⟩ := Core.step_phase hstep
  refine ⟨?_, ?_⟩
  · intro ep req hmem
    rw [hrecord, signals_append] at hmem
    rcases List.mem_append.mp hmem with hold | hnew
    · exact (hab.resets ep req hold).trans hphase.level_le
    · exact hphase.reset_le hnew
  · intro e he
    rcases hphase.session_origin he with hkeep | ⟨x, req, hstim, rfl | ⟨_, hone⟩⟩
    · exact hab.session e hkeep
    · exact Or.inl (hba.resets _ _ (hsent _ _ hstim))
    · exact Or.inr hone

private theorem Heard.step_peer {a a' b : Core} {now : Nat} {ev : Event} (hba : Heard b a)
    (hstep : a.step (now, ev) = some a') : Heard b a' := by
  obtain ⟨delta, _, hphase⟩ := Core.step_phase hstep
  refine ⟨hba.resets, ?_⟩
  intro e he
  exact (hba.session e he).imp_left fun hle => hle.trans hphase.level_le

private theorem Heard.session_eq {a b : Core} (hab : Heard a b) (hba : Heard b a) {e e' : Epoch}
    (he : a.state.phase.session = some e) (he' : b.state.phase.session = some e') : e = e' := by
  have hlevel : a.state.phase.level = e.val := by
    rw [Phase.level, Phase.epoch_of_session he]
    rfl
  have hlevel' : b.state.phase.level = e'.val := by
    rw [Phase.level, Phase.epoch_of_session he']
    rfl
  have hpos := e.pos
  have hpos' := e'.pos
  apply Epoch.ext_val
  have h := hab.session e he
  have h' := hba.session e' he'
  rw [hlevel'] at h
  rw [hlevel] at h'
  rcases h with h | rfl
  · rcases h' with h' | rfl
    · exact Nat.le_antisymm h h'
    · exact Nat.le_antisymm h hpos
  · rcases h' with h' | rfl
    · exact Nat.le_antisymm hpos' h'
    · rfl

namespace Pair

def Agree (p : Pair) : Prop := Heard p.left p.right ∧ Heard p.right p.left

private theorem agree_step (p : Pair) (a : Action) (p' : Pair) (h : Agree p)
    (hstep : p.step a = some p') : Agree p' := by
  obtain ⟨side, now, ev, hside, hsent⟩ := step_eq_some hstep
  cases side with
  | left =>
      obtain ⟨left, hleft, rfl⟩ := Option.map_eq_some_iff.mp hside
      exact ⟨h.1.step h.2 hleft hsent, h.2.step_peer hleft⟩
  | right =>
      obtain ⟨right, hright, rfl⟩ := Option.map_eq_some_iff.mp hside
      exact ⟨h.1.step_peer hright, h.2.step h.1 hright hsent⟩

/-- Whenever both endpoints are connected, their epochs are equal. -/
theorem connected_epochs_eq (actions : List Action) (p : Pair)
    (hrun : run step start actions = some p) (s t : Connected)
    (hleft : p.left.state = .connected s) (hright : p.right.state = .connected t) :
    s.epoch = t.epoch := by
  have hstart : Agree start := ⟨heard_start, heard_start⟩
  have hagree := run_invariant agree_step hstart hrun
  apply hagree.1.session_eq hagree.2
  · rw [hleft]
    rfl
  · rw [hright]
    rfl

/-- Both sides get a link and each other's first request; the left one is late. -/
private def meet : List Action :=
  [.locally .left 0 (.command (.addLink steadyLink)),
    .locally .right 0 (.command (.addLink steadyLink)), .deliver .right 0 0 1, .deliver .left 0 0 1]

theorem connected_epochs_eq_meet :
    ∃ p s t, run step start meet = some p ∧ p.left.state = .connected s ∧
      p.right.state = .connected t ∧ s.epoch = t.epoch :=
  ⟨_, _, _, rfl, rfl, rfl, connected_epochs_eq meet _ rfl _ _ rfl rfl⟩

end Pair

end LinkSet
