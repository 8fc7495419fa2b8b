import LinkSet.Core.Transitions
import LinkSet.Session.Epochs
import LinkSet.Framework.Run

/-!
# The timer and the state

All states share one timer, whose deadline and repeat are set independently of each other: what
is armed in a state depends on what the state before it left. A run is followed here with a
clock that remembers when the state was entered and which timeout was in force then.
-/

namespace LinkSet

open Framework

/-- The interval of a state, in which its timer is to fire after it is entered; `none` if it is
not to fire at all. -/
def Kind.interval (c : CommonState) : Kind → Option Nat
  | .disconnected => none
  | .connecting => c.connectingTimeout
  | .epochMismatch => some epochMismatchTimerInterval
  | .connected => some connectedTimerInterval
  | .reconnecting => c.reconnectingTimeout
  | .gracePeriod => c.gracePeriodTimeout

/-- A deadline that is armed and due in time, not later than the interval after `since`; it is
not armed if there is no interval. -/
def InTime (deadline : Option Nat) (since : Nat) : Option Nat → Prop
  | some interval => ∃ due, deadline = some due ∧ due ≤ since + interval
  | none => deadline = none

/-- A core with the time at which its state was entered or its timer last fired in it, whichever
is later, and the interval in force when the state was entered. -/
structure Clocked where
  core : Core
  since : Nat
  interval : Option Nat

namespace Clocked

def start : Clocked := ⟨Core.start, 0, none⟩

def step (k : Clocked) (input : Nat × Event) : Option Clocked :=
  (k.core.step input).map fun core =>
    if core.state.kind ≠ k.core.state.kind then
      ⟨core, input.1, core.state.kind.interval core.common⟩
    else
      match input.2 with
      | .timer => { k with core, since := max k.since input.1 }
      | _ => { k with core }

/-- The armed deadline suits the state. -/
def OnTime (k : Clocked) : Prop := InTime k.core.common.timer.deadline k.since k.interval

end Clocked

private theorem inTime_armed (now interval : Nat) :
    InTime (some (now + interval)) now (some interval) :=
  ⟨_, rfl, le_refl _⟩

private theorem InTime.mono {deadline interval : Option Nat} {since since' : Nat}
    (h : InTime deadline since interval) (hle : since ≤ since') : InTime deadline since' interval := by
  cases interval with
  | none => exact h
  | some interval =>
      obtain ⟨due, harmed, hdue⟩ := h
      exact ⟨due, harmed, le_trans hdue (Nat.add_le_add_right hle interval)⟩

section transitions

variable {now : Nat} {s : States} {c : CommonState} {r : States × CommonState}

private theorem inTime_timeout (c : CommonState) (now : Nat) (timeout : CommonState → Option Nat)
    {arm : Nat → Deadline → Deadline} (harm : ∀ d timer, (arm d timer).deadline = some (now + d))
    (hkeep : ∀ f, timeout (c.modifyTimer f) = timeout c) {c' : CommonState}
    (hc' : c' = match timeout c with
      | some d => c.modifyTimer (arm d)
      | none => c.modifyTimer Deadline.clear) : InTime c'.timer.deadline now (timeout c') := by
  subst hc'
  cases htimeout : timeout c with
  | none =>
      simp only [hkeep, htimeout]
      rfl
  | some d =>
      simp only [hkeep, htimeout]
      exact ⟨now + d, harm d _, le_refl _⟩

private theorem Connecting.determineTimer_inTime (c : CommonState) (now : Nat) :
    InTime (determineTimer c now).timer.deadline now (determineTimer c now).connectingTimeout :=
  inTime_timeout c now (·.connectingTimeout)
    (fun d timer => (rfl : (timer.clearRepeat.modifyDeadlineFromNow now d).deadline = _))
    (fun _ => rfl) rfl

private theorem Reconnecting.fromConnected_inTime (old : Connected) (c : CommonState) (now : Nat) :
    InTime (fromConnected old c now).2.timer.deadline now
      (fromConnected old c now).2.reconnectingTimeout := by
  have harmed := inTime_timeout (c.send (.attemptingConnection true)) now (·.reconnectingTimeout)
    (fun d timer => (rfl : (timer.modifyDeadlineFromNow now d).deadline = _)) (fun _ => rfl) rfl
  exact harmed

private theorem GracePeriod.fromConnected_inTime (old : Connected) (c : CommonState) (now : Nat) :
    InTime (fromConnected old c now).2.timer.deadline now
      (fromConnected old c now).2.gracePeriodTimeout := by
  have harmed := inTime_timeout c now (·.gracePeriodTimeout)
    (fun d timer => (rfl : (timer.modifyDeadlineFromNow now d).deadline = _)) (fun _ => rfl) rfl
  exact harmed

private theorem Transition.inTime (t : Transition now s c r) (hkind : r.1.kind ≠ .epochMismatch) :
    InTime r.2.timer.deadline now (r.1.kind.interval r.2) := by
  cases t with
  | connect s c => exact Connecting.determineTimer_inTime _ now
  | firstLink s c link => exact absurd rfl hkind
  | linkMade s c link => exact absurd rfl hkind
  | retry s c => exact Connecting.determineTimer_inTime _ now
  | agree s c hagree =>
      obtain ⟨_, _, hagree⟩ := Option.bind_eq_some_iff.mp hagree
      cases hagree
      exact inTime_armed now connectedTimerInterval
  | mismatch s c => exact absurd rfl hkind
  | reconnect s c => exact Reconnecting.fromConnected_inTime s c now
  | wait s c => exact GracePeriod.fromConnected_inTime s c now
  | reconnectRestarts s c => exact Connecting.determineTimer_inTime _ now
  | reconnected s c link => exact inTime_armed now connectedTimerInterval
  | graceRestarts s c => exact Connecting.determineTimer_inTime _ now
  | returned s c link => exact inTime_armed now connectedTimerInterval
  | _ => rfl

private theorem Transition.deadline_kept (t : Transition now s c r)
    (hkind : r.1.kind = .epochMismatch) :
    r.2.timer = c.timer.modifyRepeat now epochMismatchTimerInterval := by
  cases t with
  | firstLink s c link => rfl
  | linkMade s c link => rfl
  | mismatch s c => rfl
  | _ => cases hkind

theorem Deadline.poll_eq {d d' : Deadline} {now : Nat} (h : d.poll now = some d') :
    d.deadline ≠ none ∧ d' = { d with deadline := d.interval.map (now + ·) } := by
  unfold poll at h
  split at h
  · cases h
  · next hdue =>
      split at h
      · cases h
        refine ⟨?_, rfl⟩
        rw [hdue]
        nofun
      · cases h

theorem Deadline.poll_interval {d d' : Deadline} {now : Nat} (h : d.poll now = some d') :
    d'.interval = d.interval := by
  rw [(poll_eq h).2]

theorem Deadline.modifyRepeat_inTime_iff (d : Deadline) (now interval : Nat) :
    InTime (d.modifyRepeat now interval).deadline now (some interval) ↔
      ∀ due, d.deadline = some due → due ≤ now + interval := by
  cases hd : d.deadline with
  | none => simp [InTime, modifyRepeat, hd]
  | some due => simp [InTime, modifyRepeat, hd]

/-- The two states whose timer repeats. -/
def Repeats (kind : Kind) (timer : Deadline) : Prop :=
  (kind = .epochMismatch → timer.interval = some epochMismatchTimerInterval) ∧
    (kind = .connected → timer.interval = some connectedTimerInterval)

private theorem Transition.repeats (t : Transition now s c r) : Repeats r.1.kind r.2.timer := by
  constructor
  · intro hkind
    rw [t.deadline_kept hkind]
    rfl
  · intro hkind
    cases t with
    | agree s c hagree =>
        obtain ⟨_, _, hagree⟩ := Option.bind_eq_some_iff.mp hagree
        cases hagree
        rfl
    | reconnected s c link => rfl
    | returned s c link => rfl
    | _ => cases hkind

private theorem Transition.kind_ne (t : Transition now s c r) : r.1.kind ≠ s.kind := by
  cases t with
  | agree s c hagree => nofun
  | _ => nofun

end transitions

def Phase.kind : Phase → Kind
  | .disconnected _ => .disconnected
  | .connecting _ => .connecting
  | .mismatch _ => .epochMismatch
  | .connected _ => .connected
  | .reconnecting _ => .reconnecting
  | .gracePeriod _ => .gracePeriod

theorem States.phase_kind (s : States) : s.phase.kind = s.kind := by
  cases s <;> rfl

private theorem Phase.Step.enters_mismatch {p p' : Phase} {stim : Stimulus} {out : List Signal}
    (h : Phase.Step p stim p' out) (hp' : p'.kind = .epochMismatch) :
    p.kind = .disconnected ∨ p.kind = .epochMismatch ∨
      (p.kind = .connecting ∧ stim = .addLink) ∨
        ∃ e x, p = .connected e ∧ stim = .frame (.reset x true) ∧ x ≠ some e := by
  cases h with
  | idle hp => exact Or.inr (Or.inl hp')
  | firstLink hout => exact Or.inl rfl
  | linkMade hout => exact Or.inr (Or.inr (Or.inl ⟨rfl, rfl⟩))
  | mismatch hx hout => exact Or.inr (Or.inr (Or.inr ⟨_, _, rfl, rfl, hx⟩))
  | request hout => exact Or.inr (Or.inl rfl)
  | insist hgt hout => exact Or.inr (Or.inl rfl)
  | _ => cases hp'

namespace Core

/-- The inputs on which `Connecting` and `Connected` enter `EpochMismatch`: a link that can be
used, and a request for another epoch. -/
def EntersMismatch (core : Core) (input : Nat × Event) : Prop :=
  (core.state.kind = .connecting ∧ ∃ link, input.2 = .command (.addLink link) ∧
      LinkEntry.overhead < link.maxSize ∧ link.takeReader = true ∧
      core.common.nextLinkId + 1 < 2 ^ 64) ∨
    (∃ s, core.state = .connected s ∧ ∃ id epoch, input.2 = .frame id (.reset epoch true) ∧
      id ∈ core.common.readers ∧ epoch ≠ some s.epoch)

/-- The condition on a step: when it enters `EpochMismatch`, the deadline that is armed is due
within the interval of `EpochMismatch`. -/
def Prompt (core : Core) (input : Nat × Event) : Prop :=
  EntersMismatch core input →
    ∀ due, core.common.timer.deadline = some due → due ≤ input.1 + epochMismatchTimerInterval

/-- What a round does to the timer. -/
inductive TimerStep (now : Nat) (core : Core) (ev : Event) (core' : Core) : Prop where
  | stays (hev : ev ≠ .timer) (hkind : core'.state.kind = core.state.kind)
      (htimer : core'.common.timer = core.common.timer)
  | cleared (hkind : core'.state.kind = core.state.kind) (hdisc : core.state.kind = .disconnected)
      (htimer : core'.common.timer = core.common.timer.clear)
  | fired (hev : ev = .timer) (hkind : core'.state.kind = core.state.kind)
      (hwaits : core.state.Waits) (hpoll : core.common.timer.poll now = some core'.common.timer)
  | entered (hkind : core'.state.kind ≠ core.state.kind)
      (hother : core'.state.kind ≠ .epochMismatch)
      (hrepeats : Repeats core'.state.kind core'.common.timer)
      (hdue : InTime core'.common.timer.deadline now (core'.state.kind.interval core'.common))
  | mismatched (timer : Deadline) (hkind : core'.state.kind ≠ core.state.kind)
      (hmismatch : core'.state.kind = .epochMismatch)
      (hfrom : ev ≠ .timer ∧ timer = core.common.timer ∨
        ev = .timer ∧ core.common.timer.poll now = some timer)
      (htimer : core'.common.timer = timer.modifyRepeat now epochMismatchTimerInterval)

private theorem timerStep_of_course {now : Nat} {core : Core} {ev : Event} {c : CommonState}
    {r : States × CommonState} (h : Course now core.state c r)
    (hfrom : ev ≠ .timer ∧ c.timer = core.common.timer ∨
      ev = .timer ∧ core.common.timer.poll now = some c.timer)
    (hstays : ev = .timer → r.1.kind = core.state.kind → core.state.Waits) :
    TimerStep now core ev ⟨r.1, r.2⟩ := by
  cases h with
  | stays halike =>
      rcases hfrom with ⟨hev, htimer⟩ | ⟨hev, hpoll⟩
      · exact .stays hev halike.kind (halike.settings.timer.trans htimer)
      · exact .fired hev halike.kind (hstays hev halike.kind)
          (hpoll.trans (congrArg some halike.settings.timer.symm))
  | @leaves m c' _ t halike =>
      have hkind : r.1.kind ≠ core.state.kind := by
        rw [← halike.kind]
        exact t.kind_ne
      by_cases hmismatch : r.1.kind = .epochMismatch
      · refine .mismatched c'.timer hkind hmismatch ?_ (t.deadline_kept hmismatch)
        rw [show c'.timer = c.timer from halike.settings.timer]
        exact hfrom
      · exact .entered hkind hmismatch t.repeats (t.inTime hmismatch)
  | clears hdisc => exact .cleared rfl hdisc rfl

theorem step_timer {core core' : Core} {now : Nat} {ev : Event}
    (h : core.step (now, ev) = some core') : TimerStep now core ev core' := by
  have hcommand : ∀ {cmd : LinkSetControlCommand Payload} {r : States × CommonState},
      Course now core.state (tagged core.common cmd).2 r →
        TimerStep now core (.command cmd) ⟨r.1, r.2⟩ := by
    intro cmd r hcourse
    exact timerStep_of_course hcourse
      (Or.inl ⟨nofun, (tagged_sameSettings core.common cmd).timer⟩) nofun
  cases step_round h with
  | config conf =>
      refine .stays nofun rfl ?_
      cases conf <;> rfl
  | fires hpoll hstays hcourse =>
      exact timerStep_of_course hcourse (Or.inr ⟨rfl, hpoll⟩) fun _ => hstays
  | frame _ hcourse => exact timerStep_of_course hcourse (Or.inl ⟨nofun, rfl⟩) nofun
  | debug _ halike => exact .stays nofun halike.kind halike.settings.timer
  | permits _ _ halike => exact .stays nofun halike.kind halike.settings.timer
  | @command cmd r hobeys =>
      cases cmd with
      | connect =>
          cases hobeys with
          | connect hcourse => exact hcommand hcourse
      | disconnect =>
          cases hobeys with
          | disconnect hcourse => exact hcommand hcourse
      | addLink link =>
          cases hobeys with
          | link _ hcourse => exact hcommand hcourse
      | addAddress addr =>
          cases hobeys with
          | address _ => exact .stays nofun (States.addAddress_keeps _ _).1 rfl
      | addConnector conn =>
          cases hobeys with
          | connector hconn => exact .stays nofun (States.addConnector_keeps hconn).1 rfl
      | message data epoch =>
          cases hobeys with
          | enqueue _ _ => exact .stays nofun (States.enqueue_kind _ _) rfl
          | connectFor hs _ _ =>
              refine .entered ?_ nofun ⟨nofun, nofun⟩ (Connecting.determineTimer_inTime _ now)
              rw [hs]
              nofun
          | message _ _ _ _ hcourse => exact hcommand hcourse

private theorem wrapLink_accepts {c c' : CommonState} {link : Link} {entry : LinkEntry}
    (h : c.wrapLink link = some (some entry, c')) :
    LinkEntry.overhead < link.maxSize ∧ link.takeReader = true ∧ c.nextLinkId + 1 < 2 ^ 64 := by
  obtain ⟨next, hnext, h⟩ := Option.bind_eq_some_iff.mp h
  have hlt := (checkedAdd_eq_some.mp hnext).1
  simp only at h
  split at h
  · cases h
  · next hsize =>
      split at h
      · next hreader => exact ⟨not_le.mp hsize, hreader, hlt⟩
      · cases h

private theorem wrapLink_of_accepts {c : CommonState} {link : Link}
    (hsize : LinkEntry.overhead < link.maxSize) (hreader : link.takeReader = true)
    (hlt : c.nextLinkId + 1 < 2 ^ 64) : ∃ entry c', c.wrapLink link = some (some entry, c') := by
  unfold CommonState.wrapLink
  simp only [checkedAdd_of_lt hlt, Option.bind_eq_bind, Option.bind_some, not_le.mpr hsize,
    hreader, if_false, if_true]
  exact ⟨_, _, rfl⟩

private theorem wrapLink_of_mismatch {st : States} {c : CommonState} {now : Nat} {link : Link}
    {r : States × CommonState} (h : st.ctrlMsg c now (.addLink link) = some r)
    (hst : st.kind = .connecting) (hr : r.1.kind = .epochMismatch) :
    ∃ entry c', c.wrapLink link = some (some entry, c') := by
  cases st with
  | connecting s =>
      obtain ⟨⟨entry, c'⟩, hwrap, h⟩ := Option.bind_eq_some_iff.mp h
      cases entry with
      | none =>
          cases h
          cases hr
      | some entry => exact ⟨entry, c', hwrap⟩
  | _ => cases hst

private theorem EntersMismatch.kind_ne {core : Core} {input : Nat × Event}
    (h : EntersMismatch core input) : core.state.kind ≠ .disconnected := by
  rcases h with ⟨hkind, _⟩ | ⟨s, hs, _⟩
  · rw [hkind]
    nofun
  · rw [hs]
    nofun

private theorem EntersMismatch.ev_ne {core : Core} {now : Nat} {ev : Event}
    (h : EntersMismatch core (now, ev)) : ev ≠ .timer := by
  rintro rfl
  rcases h with ⟨_, link, hev, _⟩ | ⟨s, _, id, epoch, hev, _⟩
  · cases hev
  · cases hev

private theorem EntersMismatch.step {core : Core} {input : Nat × Event}
    (h : EntersMismatch core input) :
    ∃ core', core.step input = some core' ∧ core'.state.kind = .epochMismatch ∧
      core.state.kind ≠ .epochMismatch := by
  obtain ⟨now, ev⟩ := input
  rcases h with ⟨hkind, link, hev, hsize, hreader, hlt⟩ | ⟨s, hs, id, epoch, hev, hid, hne⟩
  · cases hs : core.state with
    | connecting s =>
        obtain rfl : ev = _ := hev
        obtain ⟨entry, c', hwrap⟩ := wrapLink_of_accepts hsize hreader hlt
        have hstep : core.step (now, .command (.addLink link)) =
            some ⟨.epochMismatch (EpochMismatch.fromConnecting s c' now entry).1,
              (EpochMismatch.fromConnecting s c' now entry).2⟩ := by
          simp only [Core.step, handle, tagged, hs, States.ctrlMsg, Connecting.ctrlMsg, hwrap,
            Option.bind_eq_bind, Option.bind_some]
          rfl
        refine ⟨_, hstep, rfl, ?_⟩
        intro hmismatch
        cases hmismatch
    | _ =>
        rw [hs] at hkind
        cases hkind
  · obtain rfl : ev = _ := hev
    have hstep : core.step (now, .frame id (.reset epoch true)) =
        some ⟨.epochMismatch (EpochMismatch.fromConnected s core.common now).1,
          (EpochMismatch.fromConnected s core.common now).2⟩ := by
      simp only [Core.step, handle, hid, if_true, hs, States.linkMsg, Connected.linkMsg,
        Connected.linkReset, hne, if_false]
      rfl
    refine ⟨_, hstep, rfl, ?_⟩
    intro hmismatch
    rw [hs] at hmismatch
    cases hmismatch

/-- `EpochMismatch` is entered on no other inputs, except from `Disconnected`. -/
private theorem entersMismatch_of_step {core core' : Core} {input : Nat × Event}
    (hstep : core.step input = some core') (hkind : core'.state.kind = .epochMismatch)
    (hne : core.state.kind ≠ .epochMismatch) (hdisc : core.state.kind ≠ .disconnected) :
    EntersMismatch core input := by
  obtain ⟨now, ev⟩ := input
  obtain ⟨delta, _, hphase⟩ := step_phase hstep
  rcases hphase.enters_mismatch ((States.phase_kind _).trans hkind) with
    h | h | ⟨h, hstim⟩ | ⟨e, x, h, hstim, hx⟩
  · exact absurd ((States.phase_kind _).symm.trans h) hdisc
  · exact absurd ((States.phase_kind _).symm.trans h) hne
  · obtain ⟨link, rfl⟩ := Event.eq_addLink hstim
    obtain ⟨r, hr, rfl⟩ := Option.map_eq_some_iff.mp hstep
    rw [States.phase_kind] at h
    simp only [handle, tagged] at hr
    obtain ⟨entry, c', hwrap⟩ := wrapLink_of_mismatch hr h hkind
    exact Or.inl ⟨h, link, rfl, wrapLink_accepts hwrap⟩
  · obtain ⟨id, rfl⟩ := Event.eq_frame hstim
    cases step_round hstep with
    | frame hid _ =>
        cases hs : core.state with
        | connected s =>
            rw [hs] at h
            cases h
            exact Or.inr ⟨s, hs, id, x, rfl, hid, hx⟩
        | _ =>
            rw [hs] at h
            cases h

private theorem prompt_of_step {core core' : Core} {input : Nat × Event}
    (hstep : core.step input = some core')
    (hkind : core'.state.kind = core.state.kind ∨ core'.state.kind ≠ .epochMismatch) :
    Prompt core input := by
  intro h
  exfalso
  obtain ⟨core₁, hstep₁, hmismatch, hne⟩ := h.step
  obtain rfl := Option.some.inj (hstep.symm.trans hstep₁)
  rcases hkind with hkind | hkind
  · exact hne (hkind.symm.trans hmismatch)
  · exact hkind hmismatch

theorem repeats_step {core core' : Core} {input : Nat × Event}
    (h : Repeats core.state.kind core.common.timer) (hstep : core.step input = some core') :
    Repeats core'.state.kind core'.common.timer := by
  cases step_timer hstep with
  | stays _ hkind htimer =>
      rw [hkind, htimer]
      exact h
  | cleared hkind hdisc _ =>
      rw [hkind, hdisc]
      exact ⟨nofun, nofun⟩
  | fired _ hkind _ hpoll =>
      rw [Repeats, hkind, Deadline.poll_interval hpoll]
      exact h
  | entered _ _ hrepeats _ => exact hrepeats
  | mismatched timer _ hmismatch _ htimer =>
      rw [hmismatch, htimer]
      exact ⟨fun _ => rfl, nofun⟩

end Core

namespace Clocked

/-- The interval of a state without a configured timeout is in force in it, and the timer repeats
where it has to. -/
structure Wound (k : Clocked) : Prop where
  interval (c : CommonState) (hwaits : k.core.state.Waits) :
    k.interval = k.core.state.kind.interval c
  repeats : Repeats k.core.state.kind k.core.common.timer

private theorem wound_start : Wound start where
  interval _ _ := rfl
  repeats := ⟨nofun, nofun⟩

private theorem step_entered {k : Clocked} {input : Nat × Event} {core : Core}
    (hcore : k.core.step input = some core) (hkind : core.state.kind ≠ k.core.state.kind) :
    k.step input = some ⟨core, input.1, core.state.kind.interval core.common⟩ := by
  rw [step, hcore, Option.map_some, if_pos hkind]

private theorem step_fired {k : Clocked} {now : Nat} {core : Core}
    (hcore : k.core.step (now, .timer) = some core) (hkind : core.state.kind = k.core.state.kind) :
    k.step (now, .timer) = some { k with core, since := max k.since now } := by
  rw [step, hcore, Option.map_some, if_neg (not_not_intro hkind)]

private theorem step_stays {k : Clocked} {now : Nat} {ev : Event} {core : Core}
    (hcore : k.core.step (now, ev) = some core) (hkind : core.state.kind = k.core.state.kind)
    (hev : ev ≠ .timer) : k.step (now, ev) = some { k with core } := by
  rw [step, hcore, Option.map_some, if_neg (not_not_intro hkind)]
  cases ev with
  | timer => exact absurd rfl hev
  | _ => rfl

private theorem step_same {k : Clocked} {input : Nat × Event} {core : Core}
    (hcore : k.core.step input = some core) (hkind : core.state.kind = k.core.state.kind) :
    ∃ since, k.step input = some ⟨core, since, k.interval⟩ := by
  obtain ⟨now, ev⟩ := input
  cases ev with
  | timer => exact ⟨_, step_fired hcore hkind⟩
  | _ => exact ⟨_, step_stays hcore hkind nofun⟩

private theorem interval_of_waits {s : States} (h : s.Waits) (c c' : CommonState) :
    s.kind.interval c = s.kind.interval c' := by
  rcases h with h | h | h <;> rw [h] <;> rfl

private theorem step_wound {k k' : Clocked} {input : Nat × Event} (hk : Wound k)
    (hstep : k.step input = some k') : Wound k' := by
  obtain ⟨core, hcore, _⟩ := Option.map_eq_some_iff.mp hstep
  have hrepeats := Core.repeats_step hk.repeats hcore
  by_cases hkind : core.state.kind = k.core.state.kind
  · obtain ⟨since, hsame⟩ := step_same hcore hkind
    obtain rfl := Option.some.inj (hsame.symm.trans hstep)
    refine ⟨?_, hrepeats⟩
    intro c hwaits
    rw [hkind]
    rw [States.Waits, hkind] at hwaits
    exact hk.interval c hwaits
  · rw [step_entered hcore hkind] at hstep
    cases hstep
    exact ⟨fun c hwaits => interval_of_waits hwaits _ c, hrepeats⟩

private theorem deadline_of_disconnected {k : Clocked} (hk : Wound k) (hon : k.OnTime)
    (hdisc : k.core.state.kind = .disconnected) : k.core.common.timer.deadline = none := by
  rw [OnTime, hk.interval k.core.common (Or.inl hdisc), hdisc] at hon
  exact hon

private theorem inTime_fired {k : Clocked} {now : Nat} {timer : Deadline} (hk : Wound k)
    (hon : k.OnTime) (hwaits : k.core.state.Waits)
    (hpoll : k.core.common.timer.poll now = some timer) : InTime timer.deadline now k.interval := by
  obtain ⟨harmed, rfl⟩ := Deadline.poll_eq hpoll
  rw [hk.interval k.core.common hwaits]
  rcases hwaits with hkind | hkind | hkind
  · exact absurd (deadline_of_disconnected hk hon hkind) harmed
  · rw [hkind, hk.repeats.1 hkind]
    exact inTime_armed now epochMismatchTimerInterval
  · rw [hkind, hk.repeats.2 hkind]
    exact inTime_armed now connectedTimerInterval

/-- A step keeps the deadline in time exactly when it meets its condition. -/
theorem onTime_step_iff {k k' : Clocked} {input : Nat × Event} (hk : Wound k) (hon : k.OnTime)
    (hstep : k.step input = some k') : k'.OnTime ↔ Core.Prompt k.core input := by
  obtain ⟨now, ev⟩ := input
  obtain ⟨core, hcore, _⟩ := Option.map_eq_some_iff.mp hstep
  cases Core.step_timer hcore with
  | stays hev hkind htimer =>
      rw [step_stays hcore hkind hev] at hstep
      cases hstep
      refine iff_of_true ?_ (Core.prompt_of_step hcore (.inl hkind))
      simp only [OnTime, htimer]
      exact hon
  | cleared hkind hdisc htimer =>
      obtain ⟨since, hsame⟩ := step_same hcore hkind
      obtain rfl := Option.some.inj (hsame.symm.trans hstep)
      refine iff_of_true ?_ (Core.prompt_of_step hcore (.inl hkind))
      rw [OnTime, htimer, hk.interval k.core.common (Or.inl hdisc), hdisc]
      rfl
  | fired hev hkind hwaits hpoll =>
      cases hev
      rw [step_fired hcore hkind] at hstep
      cases hstep
      refine iff_of_true ?_ (Core.prompt_of_step hcore (.inl hkind))
      exact (inTime_fired hk hon hwaits hpoll).mono (le_max_right _ _)
  | entered hkind hother _ hdue =>
      rw [step_entered hcore hkind] at hstep
      cases hstep
      exact iff_of_true hdue (Core.prompt_of_step hcore (.inr hother))
  | mismatched timer hkind hmismatch hfrom htimer =>
      rw [step_entered hcore hkind] at hstep
      cases hstep
      rw [OnTime, htimer, hmismatch]
      refine (Deadline.modifyRepeat_inTime_iff timer now epochMismatchTimerInterval).trans ?_
      have hne : k.core.state.kind ≠ .epochMismatch := fun h => hkind (hmismatch.trans h.symm)
      by_cases hdisc : k.core.state.kind = .disconnected
      · have hnone := deadline_of_disconnected hk hon hdisc
        refine iff_of_true ?_ fun henters => absurd hdisc henters.kind_ne
        rcases hfrom with ⟨_, rfl⟩ | ⟨_, hpoll⟩
        · rw [hnone]
          nofun
        · exact absurd hnone (Deadline.poll_eq hpoll).1
      · have henters := Core.entersMismatch_of_step hcore hmismatch hne hdisc
        rcases hfrom with ⟨_, rfl⟩ | ⟨hev, _⟩
        · exact ⟨fun hdue _ => hdue, fun hprompt => hprompt henters⟩
        · exact absurd hev henters.ev_ne

end Clocked

/-- The armed deadline suits every state of a run exactly when, each time `Connecting` or
`Connected` is left for `EpochMismatch`, the deadline that was armed is due within two seconds. -/
theorem timer_matches_iff_prompt (inputs : List (Nat × Event)) :
    AllReached Clocked.step Clocked.OnTime Clocked.start inputs ↔
      AllSteps Clocked.step (fun k input => k.core.Prompt input) Clocked.start inputs := by
  apply allReached_iff_allSteps
  · intro k input k' hk hon hstep
    exact Clocked.onTime_step_iff hk hon hstep
  · intro k input k' hk _ _ hstep
    exact Clocked.step_wound hk hstep
  · intro k input _ _ hstep henters
    obtain ⟨core, hcore, _⟩ := henters.step
    rw [Clocked.step, hcore] at hstep
    cases hstep
  · exact Clocked.wound_start
  · rfl

/-- A minute is left of the attempt to connect when the first link is added at once: the state is
entered at zero and its timer fires after a minute, not after two seconds. -/
theorem mismatch_keeps_minute :
    ∃ k, run Clocked.step Clocked.start
        [(0, .command .connect), (0, .command (.addLink steadyLink))] = some k ∧
      k.core.state.kind = .epochMismatch ∧ k.since = 0 ∧
      k.core.common.timer.deadline = some (seconds 60) ∧ ¬ k.OnTime := by
  refine ⟨_, rfl, rfl, rfl, rfl, ?_⟩
  rintro ⟨due, harmed, hdue⟩
  cases harmed
  exact absurd hdue (by decide)

end LinkSet
