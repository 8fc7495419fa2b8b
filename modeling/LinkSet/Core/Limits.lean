import LinkSet.Core.Transitions

/-!
# Rounds that panic

`Core.step` has time and memory without end, and of a panic it only says that there is no state
after it. The source also panics on a deadline that no `Instant` can hold, which a long timeout
leads to, and on a buffer that no vector can hold, which the peer may ask for. What a round had
handed out until then stays with the user and the links. `Core.round` is a round with all this.
-/

namespace LinkSet

open Framework

/-- The first time that an `Instant` cannot hold: its seconds are a signed 64-bit number. -/
def instantEnd : Nat := seconds (2 ^ 63)

/-- The `Instant + Duration` that armed the deadline did not overflow. -/
def Deadline.fits (d : Deadline) : Bool := d.deadline.all fun due => due < instantEnd

/-- `recv` makes an entry for the sequence, and `vec![0; seq_len]` is too large for a vector. -/
def MessageManager.overAllocates (m : MessageManager) (seq firstIndex seqLen : Nat) : Bool :=
  m.recvInRange seq firstIndex seqLen == some true && (m.incomingSlices.get seq).isNone &&
    decide (isizeMax < seqLen)

def LinkProtocol.overAllocates (e : Epoch) (m : MessageManager) : LinkProtocol → Bool
  | .msgSlice epoch seq seqLen firstIndex _ =>
      epoch == e.toInt && m.overAllocates seq firstIndex seqLen
  | _ => false

def States.overAllocates (s : States) (msg : LinkProtocol) : Bool :=
  match s with
  | .connected s => msg.overAllocates s.epoch s.msgMgr
  | .reconnecting s => msg.overAllocates s.epoch s.msgMgr
  | .gracePeriod s => msg.overAllocates s.epoch s.msgMgr
  | _ => false

/-- How a round of the loop ends. -/
inductive RoundResult where
  /-- There is nothing to do for the event. -/
  | idle
  | done (core : Core)
  /-- What the round had handed out when it panicked. -/
  | panicked (record : List Effect)

def RoundResult.done? : RoundResult → Option Core
  | .done core => some core
  | _ => none

namespace Core

/-- The loop has something to do for the event. -/
def awaits (core : Core) (now : Nat) : Event → Bool
  | .frame id _ => id ∈ core.common.readers
  | .timer => (core.common.timer.poll now).isSome
  | _ => true

/-- The round panics before its handler has done anything: in `SliceManager::new`, or where the
timer that fires is armed again. -/
def failsFirst (core : Core) (now : Nat) : Event → Bool
  | .frame _ msg => core.state.overAllocates msg
  | .timer => (core.common.timer.poll now).any fun timer => !timer.fits
  | _ => false

/-- What a round hands out before it arms the timer, which is the last that a transition does
except for the one from `Reconnecting` to `Connecting`. -/
def handedOut (core core' : Core) : List Effect :=
  match core.state, core'.state with
  | .reconnecting _, .connecting _ => []
  | _, _ => core'.common.record.drop core.common.record.length

def round (core : Core) (now : Nat) (ev : Event) : RoundResult :=
  if core.awaits now ev = false then .idle
  else if core.failsFirst now ev then .panicked []
  else
    match core.step (now, ev) with
    -- a number overflows before anything is handed out, as no queue has `2 ^ 64` messages
    | none => .panicked []
    | some core' =>
        if core'.common.timer.fits then .done core' else .panicked (core.handedOut core')

variable {core core' : Core} {now : Nat} {ev : Event}

private theorem awaits_of_step (h : core.step (now, ev) = some core') :
    core.awaits now ev = true := by
  cases step_round h with
  | fires hpoll _ _ => simp [awaits, hpoll]
  | frame hid _ => simpa [awaits] using hid
  | _ => rfl

theorem round_eq_done :
    core.round now ev = .done core' ↔
      core.failsFirst now ev = false ∧ core.step (now, ev) = some core' ∧
        core'.common.timer.fits = true := by
  constructor
  · intro h
    unfold round at h
    split at h
    · cases h
    split at h
    · cases h
    · next hfirst =>
        split at h
        · cases h
        · next hstep =>
            split at h
            · next hfits =>
                cases h
                exact ⟨by simpa using hfirst, hstep, hfits⟩
            · cases h
  · rintro ⟨hfirst, hstep, hfits⟩
    have hawaits := awaits_of_step hstep
    simp only [round, hawaits, hfirst, hstep, hfits, Bool.true_eq_false, Bool.false_eq_true,
      if_false, if_true]

end Core

/-- The durations that a core in its present configuration arms its timer for. -/
def CommonState.durations (c : CommonState) : List Nat :=
  epochMismatchTimerInterval :: connectedTimerInterval ::
    (c.connectingTimeout.toList ++ c.reconnectingTimeout.toList ++ c.gracePeriodTimeout.toList)

/-- All of them can be added to the time. -/
def CommonState.Addable (c : CommonState) (now : Nat) : Prop :=
  ∀ d ∈ c.durations, now + d < instantEnd

instance (c : CommonState) (now : Nat) : Decidable (c.Addable now) :=
  inferInstanceAs (Decidable (∀ d ∈ c.durations, now + d < instantEnd))

/-- The deadline that is armed fits, and so does the one to be armed next. -/
structure Deadline.Sane (d : Deadline) : Prop where
  fits : d.fits = true
  interval : ∀ i, d.interval = some i → i ≤ connectedTimerInterval

namespace Deadline

variable {d d' : Deadline} {now timeout : Nat}

theorem sane_new : Deadline.new.Sane := ⟨rfl, nofun⟩

private theorem sane_clear (d : Deadline) : d.clear.Sane := ⟨rfl, nofun⟩

private theorem Sane.clearRepeat (h : d.Sane) : d.clearRepeat.Sane := ⟨h.fits, nofun⟩

private theorem Sane.modifyDeadlineFromNow (h : d.Sane) (hfits : now + timeout < instantEnd) :
    (d.modifyDeadlineFromNow now timeout).Sane :=
  ⟨by simpa [Deadline.fits, Deadline.modifyDeadlineFromNow] using hfits, h.interval⟩

private theorem Sane.modifyRepeat (h : d.Sane) (hle : timeout ≤ connectedTimerInterval)
    (hfits : now + timeout < instantEnd) : (d.modifyRepeat now timeout).Sane := by
  refine ⟨?_, ?_⟩
  · have hold := h.fits
    cases hdue : d.deadline with
    | none => simpa [Deadline.fits, Deadline.modifyRepeat, hdue] using hfits
    | some due => simpa [Deadline.fits, Deadline.modifyRepeat, hdue] using hold
  · intro i hi
    cases hi
    exact hle

private theorem Sane.poll (h : d.Sane) (hfits : now + connectedTimerInterval < instantEnd)
    (hpoll : d.poll now = some d') : d'.Sane := by
  unfold Deadline.poll at hpoll
  split at hpoll
  · cases hpoll
  · obtain ⟨_, hpoll⟩ := Option.ite_none_right_eq_some.mp hpoll
    cases hpoll
    refine ⟨?_, h.interval⟩
    cases hi : d.interval with
    | none => rfl
    | some i =>
        have hle := h.interval i hi
        simp only [Deadline.fits, Option.map_some, Option.all_some, decide_eq_true_eq]
        omega

end Deadline

section timers

variable {now : Nat} {s : States} {c c' : CommonState} {r : States × CommonState}

private theorem CommonState.SameSettings.durations (h : c.SameSettings c') :
    c'.durations = c.durations := by
  simp only [CommonState.durations, h.connectingTimeout, h.reconnectingTimeout,
    h.gracePeriodTimeout]

private theorem CommonState.SameSettings.addable (h : c.SameSettings c') (hadd : c.Addable now) :
    c'.Addable now := by
  rw [CommonState.Addable, h.durations]
  exact hadd

private theorem CommonState.Addable.mismatch (h : c.Addable now) :
    now + epochMismatchTimerInterval < instantEnd :=
  h _ (by simp [CommonState.durations])

private theorem CommonState.Addable.connected (h : c.Addable now) :
    now + connectedTimerInterval < instantEnd :=
  h _ (by simp [CommonState.durations])

private theorem Connecting.determineTimer_sane (h : c.timer.Sane) (hadd : c.Addable now) :
    (determineTimer c now).timer.Sane := by
  unfold determineTimer
  split
  · next timeout htimeout =>
      exact h.clearRepeat.modifyDeadlineFromNow
        (hadd timeout (by simp [CommonState.durations, htimeout]))
  · exact c.timer.sane_clear

private theorem Reconnecting.fromConnected_sane (old : Connected) (h : c.timer.Sane)
    (hadd : c.Addable now) : (fromConnected old c now).2.timer.Sane := by
  unfold fromConnected
  simp only
  split
  · next timeout htimeout =>
      exact h.modifyDeadlineFromNow (hadd timeout (by
        have htimeout' : c.reconnectingTimeout = some timeout := htimeout
        simp [CommonState.durations, htimeout']))
  · exact c.timer.sane_clear

private theorem GracePeriod.fromConnected_sane (old : Connected) (h : c.timer.Sane)
    (hadd : c.Addable now) : (fromConnected old c now).2.timer.Sane := by
  unfold fromConnected
  simp only
  split
  · next timeout htimeout =>
      exact h.modifyDeadlineFromNow (hadd timeout (by simp [CommonState.durations, htimeout]))
  · exact c.timer.sane_clear

private theorem Deadline.Sane.mismatch {d : Deadline} (h : d.Sane) (hadd : c.Addable now) :
    (d.modifyRepeat now epochMismatchTimerInterval).Sane :=
  h.modifyRepeat (by decide) hadd.mismatch

private theorem Deadline.sane_connected (d : Deadline) (hadd : c.Addable now) :
    (d.clear.modifyRepeat now connectedTimerInterval).Sane :=
  (sane_clear d).modifyRepeat (le_refl _) hadd.connected

private theorem Transition.sane (t : Transition now s c r) (h : c.timer.Sane)
    (hadd : c.Addable now) : r.2.timer.Sane := by
  cases t with
  | connect s c => exact Connecting.determineTimer_sane h hadd
  | firstLink s c link => exact h.mismatch hadd
  | linkMade s c link => exact h.mismatch hadd
  | retry s c => exact Connecting.determineTimer_sane h hadd
  | agree s c hagree =>
      obtain ⟨_, _, hagree⟩ := Option.bind_eq_some_iff.mp hagree
      cases hagree
      exact Deadline.sane_connected c.timer hadd
  | mismatch s c => exact h.mismatch hadd
  | reconnect s c => exact Reconnecting.fromConnected_sane s h hadd
  | wait s c => exact GracePeriod.fromConnected_sane s h hadd
  | reconnectRestarts s c => exact Connecting.determineTimer_sane h hadd
  | reconnected s c link => exact Deadline.sane_connected c.timer hadd
  | graceRestarts s c => exact Connecting.determineTimer_sane h hadd
  | returned s c link => exact Deadline.sane_connected c.timer hadd
  | _ => exact c.timer.sane_clear

private theorem Course.sane (hcourse : Course now s c r) (h : c.timer.Sane) (hadd : c.Addable now) :
    r.2.timer.Sane := by
  cases hcourse with
  | stays halike =>
      rw [halike.settings.timer]
      exact h
  | leaves t halike =>
      have hsame := halike.settings
      exact t.sane (by rw [hsame.timer]; exact h) (hsame.addable hadd)
  | clears _ => exact c.timer.sane_clear

end timers

namespace Core

variable {core core' : Core} {now : Nat} {ev : Event}

/-- As long as the durations can be added to the time, every deadline fits. -/
theorem sane_step (h : core.common.timer.Sane) (hadd : core.common.Addable now)
    (hstep : core.step (now, ev) = some core') : core'.common.timer.Sane := by
  have hcommand : ∀ {cmd : LinkSetControlCommand Payload} {r : States × CommonState},
      Course now core.state (tagged core.common cmd).2 r → r.2.timer.Sane := by
    intro cmd r hcourse
    have hsame := tagged_sameSettings core.common cmd
    exact hcourse.sane (by rw [hsame.timer]; exact h) (hsame.addable hadd)
  cases step_round hstep with
  | config conf => cases conf <;> exact h
  | fires hpoll _ hcourse => exact hcourse.sane (h.poll hadd.connected hpoll) hadd
  | frame _ hcourse => exact hcourse.sane h hadd
  | debug _ halike =>
      rw [halike.settings.timer]
      exact h
  | permits _ _ halike =>
      rw [halike.settings.timer]
      exact h
  | @command cmd r hobeys =>
      cases cmd with
      | connect =>
          cases hobeys with
          | connect hcourse => exact hcommand hcourse
      | disconnect =>
          cases hobeys with
          | disconnect hcourse => exact hcommand hcourse
      | addLink link =>
          cases hobeys with
          | link _ hcourse => exact hcommand hcourse
      | addAddress addr =>
          cases hobeys with
          | address _ => exact h
      | addConnector conn =>
          cases hobeys with
          | connector _ => exact h
      | message data epoch =>
          cases hobeys with
          | enqueue _ _ => exact h
          | connectFor _ _ _ => exact Connecting.determineTimer_sane h hadd
          | message _ _ _ _ hcourse => exact hcommand hcourse

/-- A step is a whole round unless the buffer of a slice is too large. -/
theorem round_of_step (h : core.common.timer.Sane) (hadd : core.common.Addable now)
    (halloc : ∀ id msg, ev = .frame id msg → core.state.overAllocates msg = false)
    (hstep : core.step (now, ev) = some core') : core.round now ev = .done core' := by
  refine round_eq_done.mpr ⟨?_, hstep, (sane_step h hadd hstep).fits⟩
  cases ev with
  | frame id msg => exact halloc id msg rfl
  | timer =>
      cases hpoll : core.common.timer.poll now with
      | none => simp [failsFirst, hpoll]
      | some timer => simp [failsFirst, hpoll, (h.poll hadd.connected hpoll).fits]
  | _ => rfl

end Core

end LinkSet
