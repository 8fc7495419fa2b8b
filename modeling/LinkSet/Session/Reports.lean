import LinkSet.Session.Notice
import LinkSet.Core.Transitions

/-!
# What the user is told agrees with the state

Neither the events nor the flag `is_active` are computed from the state; every transition
reports for itself. Messages are reported in the session they belong to, the attempts to
connect begin and end in turn, and the flag is set in `Connected` only.
-/

namespace LinkSet

open Framework

section messages

private theorem Chatter.message_place {e e' : Epoch} {out tail pre post : List Signal}
    (h : Chatter e out) (htail : .message e' ∉ tail)
    (hsplit : out ++ tail = pre ++ .message e' :: post) : e' = e ∧ statuses pre = [] := by
  induction out generalizing pre with
  | nil =>
      rw [List.nil_append] at hsplit
      exact absurd (by simp [hsplit]) htail
  | cons s out ih =>
      cases pre with
      | nil =>
          obtain ⟨rfl, _⟩ := List.cons.inj hsplit
          rcases h (.message e') (by simp) with heq | heq
          · exact ⟨Signal.message.inj heq, rfl⟩
          · cases heq
      | cons s' pre =>
          obtain ⟨rfl, hrest⟩ := List.cons.inj hsplit
          have hout : Chatter e out := fun t ht => h t (by simp [ht])
          obtain ⟨he, hpre⟩ := ih hout hrest
          refine ⟨he, ?_⟩
          rcases h s (by simp) with rfl | rfl <;> exact hpre

private theorem Perhaps.message_not_mem {ep : Option Epoch} {req : Bool} {out : List Signal}
    (e : Epoch) (h : Perhaps (.reset ep req) out) : .message e ∉ out := by
  rcases h with rfl | rfl <;> simp

private theorem Phase.Step.message_place {p p' : Phase} {stim : Stimulus} {e : Epoch}
    {out pre post : List Signal} (h : Step p stim p' out) (hsplit : out = pre ++ .message e :: post) :
    p.session = some e ∧ statuses pre = [] := by
  have hmem : .message e ∈ out := by simp [hsplit]
  have hchatter : ∀ {e' : Epoch} {talk tail : List Signal}, Chatter e' talk → .message e ∉ tail →
      out = talk ++ tail → some e' = some e ∧ statuses pre = [] := by
    intro e' talk tail htalk htail hout
    obtain ⟨he, hpre⟩ := htalk.message_place htail (hout.symm.trans hsplit)
    exact ⟨by rw [he], hpre⟩
  cases h with
  | talk hout => exact hchatter hout List.not_mem_nil (List.append_nil out).symm
  | lost hout => exact hchatter hout (by simp) rfl
  | reconnect hout => exact hchatter hout (by simp) rfl
  | wait hout => exact hchatter hout List.not_mem_nil (List.append_nil out).symm
  | listenReconnecting hout => exact hchatter hout List.not_mem_nil (List.append_nil out).symm
  | listenGracePeriod hout => exact hchatter hout List.not_mem_nil (List.append_nil out).symm
  | firstLink hout => exact absurd hmem (hout.message_not_mem e)
  | linkMade hout => simp [hout.message_not_mem e] at hmem
  | request hout => exact absurd hmem (hout.message_not_mem e)
  | insist _ hout => exact absurd hmem (hout.message_not_mem e)
  | confirm hout => simp [hout.message_not_mem e] at hmem
  | adopt _ hout => simp [hout.message_not_mem e] at hmem
  | mismatch _ hout => exact absurd hmem (hout.message_not_mem e)
  | _ => simp at hmem

end messages

namespace Core

/-- The status before every message is that its epoch was entered. -/
def Placed (record : List Effect) : Prop :=
  ∀ pre data e post, record = pre ++ .toCtrl (.message data e) :: post →
    lastStatus pre = some (.connected e)

theorem placed_step (core : Core) (input : Nat × Event) (core' : Core)
    (h : Announced core ∧ Placed core.common.record) (hstep : core.step input = some core') :
    Announced core' ∧ Placed core'.common.record := by
  refine ⟨announced_step core input core' h.1 hstep, ?_⟩
  obtain ⟨delta, hrecord, hphase⟩ := step_phase hstep
  intro pre data e post hsplit
  rw [hrecord] at hsplit
  rcases List.append_eq_append_iff.mp hsplit with ⟨new, rfl, hdelta⟩ | ⟨rest, hpre, hpost⟩
  · have hsignals : signals delta = signals new ++ .message e :: signals post := by
      rw [hdelta, signals_append]
      rfl
    obtain ⟨hsession, hnone⟩ := hphase.message_place hsignals
    rw [lastStatus_append, hnone, h.1 e hsession]
    rfl
  · cases rest with
    | nil =>
        rw [List.append_nil] at hpre
        have hsignals : signals delta = [] ++ .message e :: signals post := by
          rw [← List.nil_append delta, ← hpost]
          rfl
        obtain ⟨hsession, _⟩ := hphase.message_place hsignals
        rw [← hpre]
        exact h.1 e hsession
    | cons eff rest =>
        obtain ⟨rfl, _⟩ := List.cons.inj hpost
        exact h.2 pre data e rest hpre

/-- In every run, what comes last among `Connected` and `Disconnected` before a message with
the epoch `e` is `Connected(e)`. -/
theorem messages_belong_to_announced_epoch (inputs : List (Nat × Event)) {core : Core}
    (hrun : run step start inputs = some core) {pre post : List Effect} {data : List UInt8}
    {e : Epoch} (hsplit : core.common.record = pre ++ .toCtrl (.message data e) :: post) :
    lastStatus pre = some (.connected e) := by
  have hstart : Announced start ∧ Placed start.common.record := by
    constructor
    · intro e he
      cases he
    · intro pre data e post hnil
      simp [start, CommonState.new] at hnil
  exact (run_invariant placed_step hstart hrun).2 pre data e post hsplit

/-- A link is added, an epoch agreed on and a message received. -/
def firstMessage : List (Nat × Event) :=
  [(0, .command (.addLink steadyLink)), (0, .frame 0 (.reset none true)),
    (0, .frame 0 (.msgSlice 1 0 1 0 [7]))]

theorem messages_belong_to_announced_epoch_one :
    ∃ core pre, run step start firstMessage = some core ∧
      core.common.record = pre ++ [.toCtrl (.message [7] Epoch.one)] ∧
      lastStatus pre = some (.connected Epoch.one) :=
  ⟨_, [.toLink 0 .ping, .toLink 0 (.reset none true), .toLink 0 (.reset (some Epoch.one) false),
      .toCtrl (.connected Epoch.one), .newManager Epoch.one, .toLink 0 (.ack 1 1 0)],
    rfl, rfl, messages_belong_to_announced_epoch firstMessage rfl rfl⟩

end Core

section attempts

def Signal.attempt : Signal → Option Bool
  | .attempting active => some active
  | _ => none

private theorem Chatter.attempts_eq {e : Epoch} {out : List Signal} (h : Chatter e out) :
    out.filterMap Signal.attempt = [] := by
  apply List.filterMap_eq_nil_iff.mpr
  intro s hs
  rcases h s hs with rfl | rfl <;> rfl

private theorem Perhaps.attempts_eq {ep : Option Epoch} {req : Bool} {out : List Signal}
    (h : Perhaps (.reset ep req) out) : out.filterMap Signal.attempt = [] := by
  rcases h with rfl | rfl <;> rfl

/-- The two states in which the endpoint tries to connect. -/
def Phase.attempting : Phase → Bool
  | .connecting _ => true
  | .reconnecting _ => true
  | _ => false

private theorem Phase.Step.attempts_eq {p p' : Phase} {stim : Stimulus} {out : List Signal}
    (h : Step p stim p' out) :
    out.filterMap Signal.attempt =
      if p'.attempting = p.attempting then [] else [p'.attempting] := by
  cases h with
  | idle => simp
  | firstLink hout => simpa [Phase.attempting] using hout.attempts_eq
  | linkMade hout =>
      rw [List.filterMap_append, hout.attempts_eq]
      rfl
  | request hout => simpa [Phase.attempting] using hout.attempts_eq
  | insist _ hout => simpa [Phase.attempting] using hout.attempts_eq
  | confirm hout =>
      rw [List.filterMap_append, hout.attempts_eq]
      rfl
  | adopt _ hout =>
      rw [List.filterMap_append, hout.attempts_eq]
      rfl
  | talk hout => simpa using hout.attempts_eq
  | lost hout =>
      rw [List.filterMap_append, hout.attempts_eq]
      rfl
  | reconnect hout =>
      rw [List.filterMap_append, hout.attempts_eq]
      rfl
  | wait hout => simpa [Phase.attempting] using hout.attempts_eq
  | mismatch _ hout => simpa [Phase.attempting] using hout.attempts_eq
  | listenReconnecting hout => simpa using hout.attempts_eq
  | listenGracePeriod hout => simpa using hout.attempts_eq
  | _ => rfl

/-- The reported attempts: whether each one begins or ends. -/
def attempts (record : List Effect) : List Bool :=
  record.filterMap fun
    | .toCtrl (.attemptingConnection active) => some active
    | _ => none

private theorem attempts_eq (record : List Effect) :
    attempts record = (signals record).filterMap Signal.attempt := by
  unfold attempts signals
  rw [List.filterMap_filterMap]
  apply List.filterMap_congr
  intro eff _
  cases eff with
  | toCtrl msg => cases msg <;> rfl
  | toLink id frame => cases frame <;> rfl
  | newManager _ => rfl
  | inserted _ _ _ => rfl

/-- `true` and `false` in turn, `true` first. -/
def Alternates (l : List Bool) : Prop := ∀ i b, l[i]? = some b → b = decide (i % 2 = 0)

private theorem Alternates.append {l : List Bool} (h : Alternates l) :
    Alternates (l ++ [decide (l.length % 2 = 0)]) := by
  intro i b hb
  rw [List.getElem?_append] at hb
  split at hb
  · exact h i b hb
  · next hge =>
      obtain ⟨hi, rfl⟩ := List.getElem?_eq_some_iff.mp hb
      rw [List.length_singleton] at hi
      have : i = l.length := by omega
      simp [this]

private theorem Alternates.getLast?_eq {l : List Bool} (h : Alternates l) :
    l.getLast? = some true ↔ l.length % 2 = 1 := by
  rw [List.getLast?_eq_getElem?]
  constructor
  · intro hlast
    obtain ⟨hlt, _⟩ := List.getElem?_eq_some_iff.mp hlast
    have := h _ _ hlast
    simp only [true_eq_decide_iff] at this
    omega
  · intro hodd
    have hlt : l.length - 1 < l.length := by omega
    have heven : (l.length - 1) % 2 = 0 := by omega
    have := h _ _ (List.getElem?_eq_getElem hlt)
    rw [List.getElem?_eq_getElem hlt, this, decide_eq_true heven]

end attempts

@[simp]
theorem Connecting.determineTimer_isActive (c : CommonState) (now : Nat) :
    (determineTimer c now).isActive = c.isActive := by
  unfold determineTimer
  split <;> rfl

private theorem Transition.isActive_eq {now : Nat} {s : States} {c : CommonState}
    {r : States × CommonState} (t : Transition now s c r)
    (h : c.isActive = decide (s.kind = .connected)) :
    r.2.isActive = decide (r.1.kind = .connected) := by
  cases t with
  | agree s c hagree =>
      obtain ⟨_, _, hagree⟩ := Option.bind_eq_some_iff.mp hagree
      cases hagree
      rfl
  | connect s c => exact (Connecting.determineTimer_isActive _ now).trans h
  | firstLink s c link => exact h
  | giveUp s c => exact h
  | linkMade s c link => exact h
  | abandon s c => exact h
  | retry s c => exact (Connecting.determineTimer_isActive _ now).trans h
  | reconnectEnds s c => exact h
  | reconnectRestarts s c => exact (Connecting.determineTimer_isActive _ now).trans h
  | graceEnds s c => exact h
  | graceRestarts s c => exact (Connecting.determineTimer_isActive _ now).trans h
  | _ => rfl

private theorem Course.isActive_eq {now : Nat} {s : States} {c : CommonState}
    {r : States × CommonState} (h : Course now s c r)
    (hflag : c.isActive = decide (s.kind = .connected)) :
    r.2.isActive = decide (r.1.kind = .connected) := by
  cases h with
  | stays halike => rw [halike.settings.isActive, halike.kind, hflag]
  | leaves t halike =>
      apply t.isActive_eq
      rw [← halike.kind] at hflag
      exact halike.settings.isActive.trans hflag
  | clears _ => exact hflag

private theorem Obeys.isActive_eq {now : Nat} {s : States} {c : CommonState}
    {r : States × CommonState} {cmd : LinkSetControlCommand Submission} (h : Obeys now s c cmd r)
    (hflag : c.isActive = decide (s.kind = .connected)) :
    r.2.isActive = decide (r.1.kind = .connected) := by
  cases h with
  | connector hconn => rw [(States.addConnector_keeps hconn).1, hflag]
  | address addr => rw [(States.addAddress_keeps _ _).1, hflag]
  | enqueue msg _ => rw [States.enqueue_kind, hflag]
  | connectFor hs _ msg =>
      subst hs
      exact (Connecting.determineTimer_isActive _ now).trans hflag
  | connect h => exact h.isActive_eq hflag
  | disconnect h => exact h.isActive_eq hflag
  | link _ h => exact h.isActive_eq hflag
  | message _ _ _ _ h => exact h.isActive_eq hflag

namespace Core

private theorem isActive_step (core : Core) (input : Nat × Event) (core' : Core)
    (h : core.common.isActive = decide (core.state.kind = .connected))
    (hstep : core.step input = some core') :
    core'.common.isActive = decide (core'.state.kind = .connected) := by
  obtain ⟨now, ev⟩ := input
  cases step_round hstep with
  | command hobeys =>
      exact hobeys.isActive_eq ((tagged_sameSettings core.common _).isActive.trans h)
  | config conf => cases conf <;> exact h
  | fires _ _ hcourse => exact hcourse.isActive_eq h
  | frame _ hcourse => exact hcourse.isActive_eq h
  | debug _ halike => rw [halike.settings.isActive, halike.kind, h]
  | permits _ _ halike => rw [halike.settings.isActive, halike.kind, h]

/-- The reported attempts alternate, and there is an odd number of them while one is under
way. -/
def Counted (core : Core) : Prop :=
  Alternates (attempts core.common.record) ∧
    core.state.phase.attempting = decide ((attempts core.common.record).length % 2 = 1)

private theorem counted_step (core : Core) (input : Nat × Event) (core' : Core) (h : Counted core)
    (hstep : core.step input = some core') : Counted core' := by
  obtain ⟨delta, hrecord, hphase⟩ := step_phase hstep
  have hattempts : attempts core'.common.record = attempts core.common.record ++
      if core'.state.phase.attempting = core.state.phase.attempting then []
      else [core'.state.phase.attempting] := by
    rw [← hphase.attempts_eq, attempts_eq, attempts_eq, hrecord, signals_append,
      List.filterMap_append]
  obtain ⟨halternates, hcount⟩ := h
  unfold Counted
  split at hattempts
  · next heq =>
      rw [List.append_nil] at hattempts
      rw [hattempts, heq]
      exact ⟨halternates, hcount⟩
  · next hne =>
      -- the step turns the attempt round, and so does the next place in the list
      have hnext : core'.state.phase.attempting =
          decide ((attempts core.common.record).length % 2 = 0) := by
        rw [hcount] at hne
        rcases Nat.mod_two_eq_zero_or_one (attempts core.common.record).length with hmod | hmod <;>
          simpa [hmod] using hne
      rw [hattempts, hnext]
      refine ⟨halternates.append, ?_⟩
      rw [List.length_append, List.length_singleton]
      apply decide_eq_decide.mpr
      omega

theorem attempting_iff (s : States) :
    s.phase.attempting = true ↔ s.kind = .connecting ∨ s.kind = .reconnecting := by
  cases s <;> simp [States.phase, Phase.attempting, States.kind, States.holding]

/-- The reported status agrees with the state in every run: the attempts to connect begin and
end in turn, the last one reported is under way exactly in `Connecting` and `Reconnecting`, and
the flag is set exactly in `Connected`. -/
theorem reports_agree_with_state (inputs : List (Nat × Event)) {core : Core}
    (hrun : run step start inputs = some core) :
    Alternates (attempts core.common.record) ∧
    ((attempts core.common.record).getLast? = some true ↔
      core.state.kind = .connecting ∨ core.state.kind = .reconnecting) ∧
    (core.common.isActive = true ↔ core.state.kind = .connected) := by
  have hcounted : Counted core := by
    refine run_invariant counted_step ⟨?_, rfl⟩ hrun
    intro i b hb
    simp [start, CommonState.new, attempts] at hb
  have hflag : core.common.isActive = decide (core.state.kind = .connected) :=
    run_invariant isActive_step rfl hrun
  refine ⟨hcounted.1, ?_, by simp [hflag]⟩
  rw [hcounted.1.getLast?_eq, ← attempting_iff, hcounted.2, decide_eq_true_iff]

/-- A connection is attempted and made, its link is evicted, and the next timer attempts to
connect again. -/
def secondAttempt : List (Nat × Event) :=
  [(0, .config (.reconnectTimeout none)), (0, .command .connect),
    (0, .command (.addLink steadyLink)), (0, .frame 0 (.reset none true)),
    (0, .debug (.evictLink 0)), (seconds 5, .timer)]

theorem reports_agree_with_state_again :
    ∃ core, run step start secondAttempt = some core ∧
      attempts core.common.record = [true, false, true] ∧ core.state.kind = .reconnecting ∧
      (attempts core.common.record).getLast? = some true :=
  ⟨_, rfl, rfl, rfl, (reports_agree_with_state secondAttempt rfl).2.1.mpr (Or.inr rfl)⟩

end Core

end LinkSet
