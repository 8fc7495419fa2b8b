import LinkSet.Session.Epochs

/-!
# Telling the user that a connection was lost

`Disconnected` is reported by each transition that ends a session, except by the one to
`EpochMismatch`, which expects the session to be renewed. If it is not, the user is never told.
-/

namespace LinkSet

open Framework

/-- The event that a signal reports, if it is one of the two that say whether there is a
connection. -/
def Signal.status : Signal → Option LinkSetMessage
  | .connected e => some (.connected e)
  | .disconnected => some .disconnected
  | _ => none

def statuses (out : List Signal) : List LinkSetMessage := out.filterMap Signal.status

theorem statuses_append (r t : List Signal) : statuses (r ++ t) = statuses r ++ statuses t :=
  List.filterMap_append

theorem Perhaps.statuses_eq {ep : Option Epoch} {req : Bool} {out : List Signal}
    (h : Perhaps (.reset ep req) out) : statuses out = [] := by
  rcases h with rfl | rfl <;> rfl

theorem Chatter.statuses_eq {e : Epoch} {out : List Signal} (h : Chatter e out) :
    statuses out = [] := by
  induction out with
  | nil => rfl
  | cons s out ih =>
      have htail := ih fun t ht => h t (by simp [ht])
      rcases h s (by simp) with rfl | rfl <;> exact htail

/-- The two states in which there is no connection and none is being negotiated. -/
def Phase.offline : Phase → Bool
  | .disconnected _ => true
  | .connecting _ => true
  | _ => false

private theorem Phase.Step.offline_stimulus {ep : Option Epoch} {p' : Phase} {stim : Stimulus}
    {out : List Signal} (h : Phase.Step (.mismatch ep) stim p' out) (hoff : p'.offline = true) :
    stim = .disconnect ∨ stim = .timer := by
  cases h with
  | abandon hstim => exact hstim
  | retry => exact Or.inr rfl
  | _ => cases hoff

private theorem Phase.session_of_offline {p : Phase} (h : p.offline = true) : p.session = none := by
  cases p with
  | disconnected _ => rfl
  | connecting _ => rfl
  | _ => cases h

/-- What a step reports. A session that ends is reported unless a mismatch ends it. -/
private theorem Phase.Step.statuses_cases {p p' : Phase} {stim : Stimulus} {out : List Signal}
    (h : Step p stim p' out) :
    (statuses out = [] ∧ (p'.session = p.session ∨ p'.offline = false ∧ p'.session = none)) ∨
    (∃ e, statuses out = [.connected e] ∧ p'.session = some e) ∨
    (statuses out = [.disconnected] ∧ p.session ≠ none ∧ p'.session = none) := by
  cases h with
  | idle => exact Or.inl ⟨rfl, Or.inl rfl⟩
  | connect => exact Or.inl ⟨rfl, Or.inl rfl⟩
  | firstLink hout => exact Or.inl ⟨hout.statuses_eq, Or.inl rfl⟩
  | giveUp => exact Or.inl ⟨rfl, Or.inl rfl⟩
  | linkMade hout =>
      refine Or.inl ⟨?_, Or.inl rfl⟩
      rw [statuses_append, hout.statuses_eq]
      rfl
  | abandon => exact Or.inl ⟨rfl, Or.inl rfl⟩
  | retry => exact Or.inl ⟨rfl, Or.inl rfl⟩
  | request hout => exact Or.inl ⟨hout.statuses_eq, Or.inl rfl⟩
  | insist _ hout => exact Or.inl ⟨hout.statuses_eq, Or.inl rfl⟩
  | @confirm e _ _ hout =>
      refine Or.inr (Or.inl ⟨e, ?_, rfl⟩)
      rw [statuses_append, hout.statuses_eq]
      rfl
  | adopt _ hout =>
      refine Or.inr (Or.inl ⟨_, ?_, rfl⟩)
      rw [statuses_append, hout.statuses_eq]
      rfl
  | talk hout => exact Or.inl ⟨hout.statuses_eq, Or.inl rfl⟩
  | close => exact Or.inr (Or.inr ⟨rfl, nofun, rfl⟩)
  | lost hout =>
      refine Or.inr (Or.inr ⟨?_, nofun, rfl⟩)
      rw [statuses_append, hout.statuses_eq]
      rfl
  | reconnect hout =>
      refine Or.inl ⟨?_, Or.inl rfl⟩
      rw [statuses_append, hout.statuses_eq]
      rfl
  | wait hout => exact Or.inl ⟨hout.statuses_eq, Or.inl rfl⟩
  | mismatch _ hout => exact Or.inl ⟨hout.statuses_eq, Or.inr ⟨rfl, rfl⟩⟩
  | listenReconnecting hout => exact Or.inl ⟨hout.statuses_eq, Or.inl rfl⟩
  | listenGracePeriod hout => exact Or.inl ⟨hout.statuses_eq, Or.inl rfl⟩
  | reconnected => exact Or.inl ⟨rfl, Or.inl rfl⟩
  | returned => exact Or.inl ⟨rfl, Or.inl rfl⟩
  | reconnectEnds => exact Or.inr (Or.inr ⟨rfl, nofun, rfl⟩)
  | reconnectRestarts => exact Or.inr (Or.inr ⟨rfl, nofun, rfl⟩)
  | graceEnds => exact Or.inr (Or.inr ⟨rfl, nofun, rfl⟩)
  | graceRestarts => exact Or.inr (Or.inr ⟨rfl, nofun, rfl⟩)

/-- The most recent event among `Connected` and `Disconnected`. -/
def lastStatus (record : List Effect) : Option LinkSetMessage :=
  (record.filterMap fun
    | .toCtrl (.connected e) => some (.connected e)
    | .toCtrl .disconnected => some .disconnected
    | _ => none).getLast?

private theorem lastStatus_eq (record : List Effect) :
    lastStatus record = (statuses (signals record)).getLast? := by
  unfold lastStatus statuses signals
  rw [List.filterMap_filterMap]
  congr 1
  apply List.filterMap_congr
  intro eff _
  cases eff with
  | toCtrl msg => cases msg <;> rfl
  | toLink id frame => cases frame <;> rfl
  | newManager _ => rfl
  | inserted _ _ _ => rfl

theorem lastStatus_append (record delta : List Effect) :
    lastStatus (record ++ delta) =
      ((statuses (signals delta)).getLast?).or (lastStatus record) := by
  rw [lastStatus_eq, lastStatus_eq, signals_append, statuses_append, List.getLast?_append]

theorem lastStatus_cases {record : List Effect} {msg : LinkSetMessage}
    (h : lastStatus record = some msg) : msg = .disconnected ∨ ∃ e, msg = .connected e := by
  rw [lastStatus_eq] at h
  obtain ⟨s, _, hs⟩ := List.mem_filterMap.mp (List.mem_of_getLast? h)
  cases s with
  | disconnected => exact Or.inl (Option.some.inj hs).symm
  | connected e => exact Or.inr ⟨e, (Option.some.inj hs).symm⟩
  | _ => cases hs

/-- The links that upkeep removes. -/
def LinkEntry.failing (e : LinkEntry) : Prop := e.closed = true ∨ maxLatency ≤ e.latency

theorem LinkManager.upkeep_isEmpty_iff (m : LinkManager) (now : Nat) :
    (m.upkeep.pingAll now).1.isEmpty = true ↔ ∀ link ∈ m.links, link.failing := by
  simp only [LinkManager.isEmpty, LinkManager.pingAll, LinkManager.upkeep, List.isEmpty_map,
    List.isEmpty_iff, List.filter_eq_nil_iff, LinkEntry.failing]
  apply forall_congr'
  intro link
  apply imp_congr_right
  intro _
  cases link.closed <;> simp

namespace Core

/-- In `Disconnected` and `Connecting` the last status the user was told, if any, is
`Disconnected`. -/
def Told (core : Core) : Prop :=
  core.state.phase.offline = true →
    ∀ msg, lastStatus core.common.record = some msg → msg = .disconnected

/-- In a session the last status is that it was entered. -/
def Announced (core : Core) : Prop :=
  ∀ e, core.state.phase.session = some e → lastStatus core.common.record = some (.connected e)

/-- The inputs that make `EpochMismatch` give up: a disconnect, and the timer when no link is
left to negotiate over. -/
def GivesUp (core : Core) (s : EpochMismatch) (input : Nat × Event) : Prop :=
  input.2 = .command .disconnect ∨
    (input.2 = .timer ∧ (core.common.timer.poll input.1).isSome = true ∧
      ∀ link ∈ s.links.links, link.failing)

/-- The condition on a step: it does not give up the negotiation that follows a session. -/
def KeepsNegotiating (core : Core) (input : Nat × Event) : Prop :=
  ∀ s e, core.state = .epochMismatch s → lastStatus core.common.record = some (.connected e) →
    ¬ GivesUp core s input

private theorem timer_offline (s : EpochMismatch) (c : CommonState) (now : Nat)
    (hempty : (s.links.upkeep.pingAll now).1.isEmpty = true) :
    ∃ r, s.timer c now = some r ∧ r.1.phase.offline = true := by
  unfold EpochMismatch.timer
  simp only [if_pos hempty]
  split
  · exact ⟨_, rfl, rfl⟩
  · exact ⟨_, rfl, rfl⟩

/-- `EpochMismatch` goes offline exactly on the inputs that make it give up. -/
theorem offline_iff_givesUp {core : Core} {s : EpochMismatch} (hs : core.state = .epochMismatch s)
    (input : Nat × Event) :
    (∃ core', core.step input = some core' ∧ core'.state.phase.offline = true) ↔
      GivesUp core s input := by
  obtain ⟨now, ev⟩ := input
  have hlinks := s.links.upkeep_isEmpty_iff now
  constructor
  · intro h
    obtain ⟨core', hstep, hoff⟩ := h
    obtain ⟨_, _, hphase⟩ := step_phase hstep
    rw [hs] at hphase
    rcases hphase.offline_stimulus hoff with hstim | hstim
    · exact Or.inl (Event.eq_disconnect hstim)
    · obtain rfl := Event.eq_timer hstim
      obtain ⟨r, hr, rfl⟩ := Option.map_eq_some_iff.mp hstep
      obtain ⟨timer, htimer, hr⟩ := Option.bind_eq_some_iff.mp hr
      rw [hs] at hr
      refine Or.inr ⟨rfl, by rw [htimer]; rfl, ?_⟩
      by_contra hleft
      simp only [States.timer, EpochMismatch.timer, if_neg (fun h => hleft (hlinks.mp h))] at hr
      cases hr
      cases hoff
  · intro h
    rcases h with hdisc | ⟨htimer, hdue, hfail⟩
    · obtain rfl : ev = .command .disconnect := hdisc
      have hstep : core.step (now, .command .disconnect) =
          some ⟨.disconnected (Disconnected.fromEpochMismatch s core.common).1,
            (Disconnected.fromEpochMismatch s core.common).2⟩ := by
        unfold step handle
        rw [hs]
        rfl
      exact ⟨_, hstep, rfl⟩
    · obtain rfl : ev = .timer := htimer
      obtain ⟨timer, hpoll⟩ := Option.isSome_iff_exists.mp hdue
      obtain ⟨r, hr, hoff⟩ := timer_offline s { core.common with timer } now (hlinks.mpr hfail)
      refine ⟨⟨r.1, r.2⟩, ?_, hoff⟩
      unfold step handle
      simp only [hpoll, hs, Option.bind_eq_bind, Option.bind_some, States.timer, hr,
        Option.map_some]

theorem announced_step (core : Core) (input : Nat × Event) (core' : Core) (h : Announced core)
    (hstep : core.step input = some core') : Announced core' := by
  obtain ⟨delta, hrecord, hphase⟩ := step_phase hstep
  intro e he
  rw [hrecord, lastStatus_append]
  rcases hphase.statuses_cases with ⟨hnone, hkeep | hmis⟩ | ⟨e', hconn, he'⟩ | ⟨_, _, hno⟩
  · rw [hnone, h e (hkeep ▸ he)]
    rfl
  · rw [hmis.2] at he
    cases he
  · rw [he'] at he
    cases he
    rw [hconn]
    rfl
  · rw [hno] at he
    cases he

private theorem status_of_offline {core core' : Core} {input : Nat × Event} (htold : Told core)
    (hcond : KeepsNegotiating core input) (hstep : core.step input = some core')
    (hoff : core'.state.phase.offline = true) (hsession : core.state.phase.session = none)
    {msg : LinkSetMessage} (hmsg : lastStatus core.common.record = some msg) :
    msg = .disconnected := by
  cases hs : core.state with
  | disconnected s => exact htold (by rw [hs]; rfl) msg hmsg
  | connecting s => exact htold (by rw [hs]; rfl) msg hmsg
  | epochMismatch s =>
      have hgive := (offline_iff_givesUp hs input).mp ⟨core', hstep, hoff⟩
      rcases lastStatus_cases hmsg with hdisc | ⟨e, rfl⟩
      · exact hdisc
      · exact absurd hgive (hcond s e hs hmsg)
  | connected s =>
      rw [hs] at hsession
      cases hsession
  | reconnecting s =>
      rw [hs] at hsession
      cases hsession
  | gracePeriod s =>
      rw [hs] at hsession
      cases hsession

/-- From a state in which the user is told, a step leads to one exactly when it meets the
condition. -/
theorem told_step_iff (core : Core) (input : Nat × Event) (core' : Core) (htold : Told core)
    (hstep : core.step input = some core') :
    Told core' ↔ KeepsNegotiating core input := by
  obtain ⟨delta, hrecord, hphase⟩ := step_phase hstep
  have hlast := lastStatus_append core.common.record delta
  rw [← hrecord] at hlast
  by_cases hoff : core'.state.phase.offline = true
  · rcases hphase.statuses_cases with ⟨hnone, hkeep | hmis⟩ | ⟨e', _, he'⟩ | ⟨hdisc, hwas, _⟩
    · rw [hnone] at hlast
      have hsame : lastStatus core'.common.record = lastStatus core.common.record := hlast
      constructor
      · intro htold' s e _ he
        cases htold' hoff _ (hsame.trans he)
      · intro hcond _ msg hmsg
        rw [hsame] at hmsg
        exact status_of_offline htold hcond hstep hoff
          (hkeep ▸ Phase.session_of_offline hoff) hmsg
    · rw [hmis.1] at hoff
      cases hoff
    · rw [Phase.session_of_offline hoff] at he'
      cases he'
    · rw [hdisc] at hlast
      constructor
      · intro _ s e hs _ _
        rw [hs] at hwas
        exact hwas rfl
      · intro _ _ msg hmsg
        exact Option.some.inj (hmsg.symm.trans hlast)
  · constructor
    · intro _ s e hs _ hgive
      obtain ⟨t, ht, hoff'⟩ := (offline_iff_givesUp hs input).mpr hgive
      obtain rfl := Option.some.inj (hstep.symm.trans ht)
      exact hoff hoff'
    · intro _ hoff'
      exact absurd hoff' hoff

private theorem told_start : Told start := by
  intro _ msg hmsg
  cases hmsg

private theorem keepsNegotiating_of_stuck (core : Core) (input : Nat × Event)
    (hstuck : core.step input = none) : KeepsNegotiating core input := by
  intro s e hs _ hgive
  obtain ⟨core', hstep, _⟩ := (offline_iff_givesUp hs input).mpr hgive
  rw [hstuck] at hstep
  cases hstep

/-- Throughout a run the user is told of a lost connection exactly when no step gives up a
negotiation that follows a session. -/
theorem told_iff_keepsNegotiating (inputs : List (Nat × Event)) :
    AllReached step Told start inputs ↔ AllSteps step KeepsNegotiating start inputs := by
  refine allReached_iff_allSteps
    (fun core input core' (_ : True) => told_step_iff core input core') ?_ ?_ inputs trivial
    told_start
  · intros
    trivial
  · intro core input _ _ hstuck
    exact keepsNegotiating_of_stuck core input hstuck

/-- The peer asks for a new epoch twice and the user gives up the second negotiation. -/
theorem not_told_after_mismatch :
    ∃ core s, run step start
        [(0, .command (.addLink steadyLink)), (0, .frame 0 (.reset none true)),
          (0, .frame 0 (.reset none true)), (0, .command .disconnect)] = some core ∧
      core.state = .disconnected s ∧
      lastStatus core.common.record = some (.connected Epoch.one) :=
  ⟨_, _, rfl, rfl, rfl⟩

end Core

end LinkSet
