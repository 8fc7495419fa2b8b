import LinkSet.Core.Transitions
import LinkSet.Session.Notice

/-!
# Messages queued for the next session

A message without an epoch that is submitted in `Connecting` or `EpochMismatch` is kept, and
the first thing a new session does is to insert what was kept. The queue is handed from state
to state by the transitions; the one from `EpochMismatch` back to `Connecting` starts a new one.
-/

namespace LinkSet

open Framework

namespace MessageManager

/-- The messages are inserted one after the other; the numbers they get are returned. -/
def insertAll : MessageManager → List Payload → Option (List Nat × MessageManager)
  | m, [] => some ([], m)
  | m, msg :: msgs => do
      let (seq, m) ← m.insertMsg msg.bytes
      let (seqs, m) ← m.insertAll msgs
      return (seq :: seqs, m)

theorem insertAll_eq_some {m m' : MessageManager} {msgs : List Payload} {seqs : List Nat}
    (h : m.insertAll msgs = some (seqs, m')) :
    seqs = List.range' m.nextSeq msgs.length ∧ m'.nextSeq = m.nextSeq + msgs.length := by
  induction msgs generalizing m seqs with
  | nil =>
      cases h
      exact ⟨rfl, rfl⟩
  | cons msg msgs ih =>
      obtain ⟨⟨seq, m₁⟩, hinsert, h⟩ := Option.bind_eq_some_iff.mp h
      obtain ⟨⟨rest, m₂⟩, hrest, h⟩ := Option.bind_eq_some_iff.mp h
      cases h
      obtain ⟨_, rfl, rfl⟩ := insertMsg_eq_some.mp hinsert
      obtain ⟨hseqs, hnext⟩ := ih hrest
      refine ⟨?_, ?_⟩
      · rw [hseqs, List.length_cons, List.range'_succ]
      · rw [hnext, List.length_cons]
        simp only
        omega

end MessageManager

private theorem Connected.sendAllQueued_insertAll {mgr mgr' : MessageManager}
    {links links' : LinkManager} {c c' : CommonState} {msgs : List Submission}
    (h : sendAllQueued mgr links c msgs = some (mgr', links', c')) :
    ∃ seqs, mgr.insertAll (msgs.map Submission.payload) = some (seqs, mgr') := by
  induction msgs generalizing mgr links c with
  | nil =>
      cases h
      exact ⟨[], rfl⟩
  | cons msg msgs ih =>
      obtain ⟨⟨mgr₁, links₁, c₁⟩, hsend, h⟩ := Option.bind_eq_some_iff.mp h
      obtain ⟨seqs, hrest⟩ := ih h
      obtain ⟨⟨seq, mgr₂⟩, hinsert, hsend⟩ := Option.bind_eq_some_iff.mp hsend
      obtain ⟨_, _, hsend⟩ := Option.bind_eq_some_iff.mp hsend
      obtain ⟨_, _, hsend⟩ := Option.bind_eq_some_iff.mp hsend
      cases hsend
      refine ⟨seq :: seqs, ?_⟩
      simp only [List.map_cons, MessageManager.insertAll, hinsert, hrest, Option.bind_eq_bind,
        Option.bind_some]
      rfl

/-- The messages kept for the next session. -/
def States.queued (s : States) : List Payload := s.holding.queue.map Submission.payload

private theorem Alike.queued {s : States} {c : CommonState} {r : States × CommonState}
    (h : Alike s c r) :
    r.1.queued = s.queued :=
  congrArg (fun x => x.queue.map Submission.payload) h.holding

private theorem Alike.negotiating {s : States} {c : CommonState} {r : States × CommonState}
    (h : Alike s c r) : r.1.Negotiating ↔ s.Negotiating := by
  unfold States.Negotiating
  rw [h.kind]

theorem States.queued_eq_nil {s : States} (h : ¬s.Negotiating) : s.queued = [] := by
  cases s with
  | connecting s => exact absurd (Or.inl rfl) h
  | epochMismatch s => exact absurd (Or.inr rfl) h
  | _ => rfl

private theorem States.enqueue_queued {s : States} (h : s.Negotiating) (msg : Submission) :
    (s.enqueue msg).queued = s.queued ++ [msg.payload] := by
  cases s with
  | connecting s => simp [enqueue, queued, holding]
  | epochMismatch s => simp [enqueue, queued, holding]
  | _ => rcases h with h | h <;> cases h

private theorem States.exists_epochMismatch {s : States} (h : s.kind = .epochMismatch) :
    ∃ st, s = .epochMismatch st := by
  cases s with
  | epochMismatch st => exact ⟨st, rfl⟩
  | _ => cases h

section handlers

variable {now : Nat} {s : States} {c : CommonState} {r : States × CommonState}

private theorem Transition.queued_begins (t : Transition now s c r) (hs : ¬s.Negotiating) :
    r.1.queued = [] := by
  cases t with
  | linkMade s c link => exact absurd (Or.inl rfl) hs
  | _ => rfl

private theorem Course.queued_begins (h : Course now s c r) (hs : ¬s.Negotiating) :
    r.1.queued = [] := by
  cases h with
  | stays halike => exact halike.queued.trans (States.queued_eq_nil hs)
  | leaves t halike => exact t.queued_begins fun hm => hs (halike.negotiating.mp hm)
  | clears _ => exact States.queued_eq_nil hs

/-- The queue is handed on, except from `EpochMismatch` to `Connecting`. -/
private theorem Transition.queued_kept (t : Transition now s c r) (hs : s.Negotiating)
    (hr : r.1.Negotiating) (hretry : ¬(s.kind = .epochMismatch ∧ r.1.kind = .connecting)) :
    r.1.queued = s.queued := by
  cases t with
  | giveUp s c => rcases hr with hr | hr <;> cases hr
  | linkMade s c link => rfl
  | abandon s c => rcases hr with hr | hr <;> cases hr
  | retry s c => exact absurd ⟨rfl, rfl⟩ hretry
  | agree s c hagree => rcases hr with hr | hr <;> cases hr
  | _ => rcases hs with hs | hs <;> cases hs

private theorem Course.queued_kept (h : Course now s c r) (hs : s.Negotiating)
    (hr : r.1.Negotiating) (hretry : ¬(s.kind = .epochMismatch ∧ r.1.kind = .connecting)) :
    r.1.queued = s.queued := by
  cases h with
  | stays halike => exact halike.queued
  | leaves t halike =>
      rw [← halike.queued]
      apply t.queued_kept (halike.negotiating.mpr hs) hr
      rw [halike.kind]
      exact hretry
  | clears _ => rfl

private theorem Course.queued_retried (h : Course now s c r) (hs : s.kind = .epochMismatch)
    (hr : r.1.kind = .connecting) : r.1.queued = [] := by
  cases h with
  | stays halike =>
      rw [halike.kind, hs] at hr
      cases hr
  | leaves t halike =>
      rw [← halike.kind] at hs
      cases t with
      | linkMade s c link => cases hs
      | _ => rfl
  | clears _ =>
      rw [hs] at hr
      cases hr

private theorem Transition.queued_inserted {st : Connected} (t : Transition now s c r)
    (hs : s.Negotiating) (hr : r.1 = .connected st) :
    ∃ seqs, (MessageManager.new st.epoch).insertAll s.queued = some (seqs, st.msgMgr) := by
  cases t with
  | giveUp s c => cases hr
  | linkMade s c link => cases hr
  | abandon s c => cases hr
  | retry s c => cases hr
  | agree s c hagree =>
      obtain ⟨⟨mgr, links, c'⟩, hsend, hagree⟩ := Option.bind_eq_some_iff.mp hagree
      cases hagree
      cases hr
      exact Connected.sendAllQueued_insertAll hsend
  | _ => rcases hs with hs | hs <;> cases hs

private theorem Course.queued_inserted {st : Connected} (h : Course now s c r) (hs : s.Negotiating)
    (hr : r.1 = .connected st) :
    ∃ seqs, (MessageManager.new st.epoch).insertAll s.queued = some (seqs, st.msgMgr) := by
  cases h with
  | stays halike =>
      have hneg := halike.negotiating.mpr hs
      rw [hr] at hneg
      rcases hneg with hneg | hneg <;> cases hneg
  | leaves t halike =>
      rw [← halike.queued]
      exact t.queued_inserted (halike.negotiating.mpr hs) hr
  | clears hkind =>
      unfold States.Negotiating at hs
      rw [hkind] at hs
      rcases hs with hs | hs <;> cases hs

end handlers

namespace Core

/-- The messages submitted without an epoch. -/
def unaddressed (inputs : List (Nat × Event)) : List Payload :=
  inputs.filterMap fun
    | (_, .command (.message data none)) => some data
    | _ => none

/-- `EpochMismatch` gives its queue up: its timer finds that all links fail, and it goes back to
`Connecting`. -/
def Drops (core : Core) (input : Nat × Event) : Prop :=
  ∃ s, core.state = .epochMismatch s ∧ s.queuedMsgs ≠ [] ∧ core.common.autoConnect = true ∧
    input.2 = .timer ∧ (core.common.timer.poll input.1).isSome = true ∧
    ∀ link ∈ s.links.links, link.failing

/-- The condition on a step: it does not give up a queue. -/
def KeepsQueue (core : Core) (input : Nat × Event) : Prop := ¬Drops core input

theorem unaddressed_append (inputs inputs' : List (Nat × Event)) :
    unaddressed (inputs ++ inputs') = unaddressed inputs ++ unaddressed inputs' :=
  List.filterMap_append

theorem unaddressed_cons (input : Nat × Event) (inputs : List (Nat × Event)) :
    unaddressed (input :: inputs) = unaddressed [input] ++ unaddressed inputs :=
  unaddressed_append [input] inputs

/-- The timer of `EpochMismatch` goes back to `Connecting` exactly when all links fail and the
endpoint connects on its own. -/
theorem timer_retries_iff {s : EpochMismatch} {c : CommonState} {now : Nat}
    {r : States × CommonState} (h : s.timer c now = some r) :
    r.1.kind = .connecting ↔
      c.autoConnect = true ∧ ∀ link ∈ s.links.links, link.failing := by
  rw [← s.links.upkeep_isEmpty_iff now]
  simp only [EpochMismatch.timer] at h
  split at h
  · next hempty =>
      split at h
      · next hauto =>
          cases h
          exact iff_of_true rfl ⟨hauto, hempty⟩
      · next hauto =>
          cases h
          refine iff_of_false ?_ fun hr => hauto hr.1
          intro hkind
          cases hkind
  · next hempty =>
      cases h
      refine iff_of_false ?_ fun hr => hempty hr.2
      intro hkind
      cases hkind

section steps

variable {core core' : Core} {input : Nat × Event}

theorem retries_iff {s : EpochMismatch} (hs : core.state = .epochMismatch s)
    (hstep : core.step input = some core') :
    core'.state.kind = .connecting ↔
      core.common.autoConnect = true ∧ input.2 = .timer ∧
        (core.common.timer.poll input.1).isSome = true ∧ ∀ link ∈ s.links.links, link.failing := by
  obtain ⟨now, ev⟩ := input
  by_cases hev : ev = .timer
  · subst hev
    obtain ⟨r, hr, rfl⟩ := Option.map_eq_some_iff.mp hstep
    obtain ⟨timer, hpoll, hr⟩ := Option.bind_eq_some_iff.mp hr
    rw [hs] at hr
    rw [timer_retries_iff hr]
    simp [hpoll]
  · refine iff_of_false ?_ fun h => hev h.2.1
    intro hkind
    have hoff : core'.state.phase.offline = true := by
      cases hc : core'.state with
      | connecting st => rfl
      | _ =>
          rw [hc] at hkind
          cases hkind
    rcases (offline_iff_givesUp hs _).mp ⟨core', hstep, hoff⟩ with hdisc | htimer
    · obtain rfl : ev = .command .disconnect := hdisc
      simp only [step, handle, tagged, hs] at hstep
      cases hstep
      cases hkind
    · exact hev htimer.1

private theorem queued_obeys {now : Nat} {s : States} {c : CommonState} {r : States × CommonState}
    {cmd : LinkSetControlCommand Payload}
    (h : Obeys now s (tagged c cmd).2 (tagged c cmd).1 r) (hs : s.Negotiating)
    (hr : r.1.Negotiating) (hretry : ¬(s.kind = .epochMismatch ∧ r.1.kind = .connecting)) :
    r.1.queued = s.queued ++ unaddressed [(now, .command cmd)] := by
  have hcourse : Course now s (tagged c cmd).2 r → r.1.queued = s.queued ++ [] := by
    intro hcourse
    rw [List.append_nil]
    exact hcourse.queued_kept hs hr hretry
  cases cmd with
  | connect =>
      cases h with
      | connect h => exact hcourse h
  | disconnect =>
      cases h with
      | disconnect h => exact hcourse h
  | addLink link =>
      cases h with
      | link _ h => exact hcourse h
  | addAddress addr =>
      cases h with
      | address _ =>
          rw [States.queued, (States.addAddress_keeps s addr).2]
          exact (List.append_nil _).symm
  | addConnector conn =>
      cases h with
      | connector hconn =>
          rw [States.queued, (States.addConnector_keeps hconn).2]
          exact (List.append_nil _).symm
  | message data epoch =>
      cases h with
      | enqueue _ _ => exact States.enqueue_queued hs _
      | connectFor hdisc _ _ =>
          subst hdisc
          rcases hs with hs | hs <;> cases hs
      | message _ _ hqueued _ h =>
          cases epoch with
          | none => exact absurd ⟨rfl, hs⟩ hqueued
          | some e => exact hcourse h

private theorem retry_queued (hkind : core.state.kind = .epochMismatch)
    (hkind' : core'.state.kind = .connecting) (hstep : core.step input = some core') :
    core'.state.queued = [] := by
  obtain ⟨s, hs⟩ := States.exists_epochMismatch hkind
  have htimer := ((retries_iff hs hstep).mp hkind').2.1
  obtain ⟨now, ev⟩ := input
  cases htimer
  cases step_round hstep with
  | fires _ _ hcourse => exact hcourse.queued_retried hkind hkind'

/-- A step of a negotiation keeps the queue, with the message it submits, or gives it up. -/
private theorem queued_step (hneg : core.state.Negotiating) (hneg' : core'.state.Negotiating)
    (hstep : core.step input = some core') :
    (KeepsQueue core input ∧ core'.state.queued = core.state.queued ++ unaddressed [input]) ∨
      (¬KeepsQueue core input ∧ core'.state.queued = [] ∧ core.state.queued ≠ []) := by
  by_cases hretry : core.state.kind = .epochMismatch ∧ core'.state.kind = .connecting
  · obtain ⟨s, hs⟩ := States.exists_epochMismatch hretry.1
    obtain ⟨hauto, htimer, hpoll, hfail⟩ := (retries_iff hs hstep).mp hretry.2
    have hnone : unaddressed [input] = [] := by
      obtain ⟨now, ev⟩ := input
      cases htimer
      rfl
    have hqueued : core.state.queued = s.queuedMsgs.map Submission.payload := by rw [hs]; rfl
    have hempty := retry_queued hretry.1 hretry.2 hstep
    by_cases hmsgs : s.queuedMsgs = []
    · left
      refine ⟨?_, by rw [hempty, hqueued, hmsgs, hnone]; rfl⟩
      rintro ⟨s', hs', hne, _⟩
      cases hs.symm.trans hs'
      exact hne hmsgs
    · right
      refine ⟨not_not.mpr ⟨s, hs, hmsgs, hauto, htimer, hpoll, hfail⟩, hempty, ?_⟩
      rw [hqueued]
      simpa using hmsgs
  · left
    constructor
    · rintro ⟨s, hs, _, hdrops⟩
      exact hretry ⟨by rw [hs]; rfl, (retries_iff hs hstep).mpr hdrops⟩
    · obtain ⟨now, ev⟩ := input
      have hcourse : ∀ {c : CommonState} {r : States × CommonState}, core' = ⟨r.1, r.2⟩ →
          Course now core.state c r → core'.state.queued = core.state.queued ++ [] := by
        rintro c r rfl hcourse
        rw [List.append_nil]
        exact hcourse.queued_kept hneg hneg' hretry
      cases step_round hstep with
      | command hobeys => exact queued_obeys hobeys hneg hneg' hretry
      | config conf => exact (List.append_nil _).symm
      | fires _ _ h => exact hcourse rfl h
      | frame _ h => exact hcourse rfl h
      | debug _ halike => exact halike.queued.trans (List.append_nil _).symm
      | permits _ _ halike => exact halike.queued.trans (List.append_nil _).symm

private theorem queued_first (hneg : ¬core.state.Negotiating) (hneg' : core'.state.Negotiating)
    (hstep : core.step input = some core') : core'.state.queued = unaddressed [input] := by
  obtain ⟨now, ev⟩ := input
  cases step_round hstep with
  | config conf => exact absurd hneg' hneg
  | fires _ _ hcourse => exact hcourse.queued_begins hneg
  | frame _ hcourse => exact hcourse.queued_begins hneg
  | debug _ halike => exact absurd (halike.negotiating.mp hneg') hneg
  | permits _ _ halike => exact absurd (halike.negotiating.mp hneg') hneg
  | @command cmd r hobeys =>
      cases cmd with
      | connect =>
          cases hobeys with
          | connect hcourse => exact hcourse.queued_begins hneg
      | disconnect =>
          cases hobeys with
          | disconnect hcourse => exact hcourse.queued_begins hneg
      | addLink link =>
          cases hobeys with
          | link _ hcourse => exact hcourse.queued_begins hneg
      | addAddress addr =>
          cases hobeys with
          | address _ =>
              unfold States.Negotiating at hneg hneg'
              rw [(States.addAddress_keeps _ _).1] at hneg'
              exact absurd hneg' hneg
      | addConnector conn =>
          cases hobeys with
          | connector hconn =>
              unfold States.Negotiating at hneg hneg'
              rw [(States.addConnector_keeps hconn).1] at hneg'
              exact absurd hneg' hneg
      | message data epoch =>
          cases hobeys with
          | enqueue _ h => exact absurd h hneg
          | connectFor hs _ _ => rfl
          | message _ _ _ hbegins _ => exact absurd (hbegins hneg') hneg

private theorem queued_last {s : Connected} (hneg : core.state.Negotiating)
    (hstep : core.step input = some core') (hs : core'.state = .connected s) :
    unaddressed [input] = [] ∧
      ∃ seqs, (MessageManager.new s.epoch).insertAll core.state.queued = some (seqs, s.msgMgr) := by
  have hkind : core'.state.kind ≠ core.state.kind := by
    intro heq
    unfold States.Negotiating at hneg
    rw [← heq, hs] at hneg
    rcases hneg with hneg | hneg <;> cases hneg
  obtain ⟨now, ev⟩ := input
  cases step_round hstep with
  | config conf => exact absurd rfl hkind
  | fires _ _ hcourse => exact ⟨rfl, hcourse.queued_inserted hneg hs⟩
  | frame _ hcourse => exact ⟨rfl, hcourse.queued_inserted hneg hs⟩
  | debug _ halike => exact absurd halike.kind hkind
  | permits _ _ halike => exact absurd halike.kind hkind
  | @command cmd r hobeys =>
      cases cmd with
      | connect =>
          cases hobeys with
          | connect hcourse => exact ⟨rfl, hcourse.queued_inserted hneg hs⟩
      | disconnect =>
          cases hobeys with
          | disconnect hcourse => exact ⟨rfl, hcourse.queued_inserted hneg hs⟩
      | addLink link =>
          cases hobeys with
          | link _ hcourse => exact ⟨rfl, hcourse.queued_inserted hneg hs⟩
      | addAddress addr =>
          cases hobeys with
          | address _ => exact absurd (States.addAddress_keeps _ _).1 hkind
      | addConnector conn =>
          cases hobeys with
          | connector hconn => exact absurd (States.addConnector_keeps hconn).1 hkind
      | message data epoch =>
          cases hobeys with
          | enqueue _ _ => exact absurd (States.enqueue_kind _ _) hkind
          | connectFor _ _ _ => cases hs
          | message _ _ hqueued _ hcourse =>
              cases epoch with
              | none => exact absurd ⟨rfl, hneg⟩ hqueued
              | some e => exact ⟨rfl, hcourse.queued_inserted hneg hs⟩

end steps

private theorem queued_run {inputs : List (Nat × Event)} {core core' : Core}
    (hrun : run step core inputs = some core')
    (hneg : AllReached step (fun core => core.state.Negotiating) core inputs) :
    (AllSteps step KeepsQueue core inputs ∧
        core'.state.queued = core.state.queued ++ unaddressed inputs) ∨
      (¬AllSteps step KeepsQueue core inputs ∧
        core'.state.queued.length < (core.state.queued ++ unaddressed inputs).length) := by
  induction inputs generalizing core with
  | nil =>
      obtain rfl := Option.some.inj hrun
      exact Or.inl ⟨trivial, (List.append_nil _).symm⟩
  | cons input inputs ih =>
      obtain ⟨core₁, hstep, hrun⟩ := run_cons.mp hrun
      have hrest := hneg.2 core₁ hstep
      have hsteps : AllSteps step KeepsQueue core (input :: inputs) ↔
          KeepsQueue core input ∧ AllSteps step KeepsQueue core₁ inputs := by
        simp only [AllSteps, hstep, Option.some.injEq, forall_eq']
      rw [hsteps, unaddressed_cons]
      rcases queued_step hneg.1 hrest.head hstep with ⟨hkeeps, hqueued⟩ | ⟨hdrops, hqueued, hne⟩
      · rw [← List.append_assoc, ← hqueued]
        rcases ih hrun hrest with ⟨hall, heq⟩ | ⟨hnot, hlt⟩
        · exact Or.inl ⟨⟨hkeeps, hall⟩, heq⟩
        · exact Or.inr ⟨fun h => hnot h.2, hlt⟩
      · right
        refine ⟨fun h => hdrops h.1, ?_⟩
        have hle : core'.state.queued.length ≤ (unaddressed inputs).length := by
          rcases ih hrun hrest with ⟨_, heq⟩ | ⟨_, hlt⟩
          · rw [heq, hqueued, List.nil_append]
          · rw [hqueued, List.nil_append] at hlt
            exact hlt.le
        have hpos := List.length_pos_iff.mpr hne
        simp only [List.length_append]
        omega

/-- In every negotiation that leads to a session, the messages submitted for it are exactly the
ones inserted into its manager, in the order of submission and numbered from zero, if and only
if no step gives up the queue. -/
theorem queued_inserted_iff (core : Core) (first : Nat × Event) (mid : List (Nat × Event))
    (last : Nat × Event) {core₁ core₂ core₃ : Core} {s : Connected} (hbefore : ¬core.state.Negotiating)
    (hfirst : core.step first = some core₁) (hmid : run step core₁ mid = some core₂)
    (hneg : AllReached step (fun core => core.state.Negotiating) core₁ mid)
    (hlast : core₂.step last = some core₃) (hs : core₃.state = .connected s) :
    (MessageManager.new s.epoch).insertAll (unaddressed (first :: mid ++ [last])) =
        some (List.range (unaddressed (first :: mid ++ [last])).length, s.msgMgr) ↔
      AllSteps step KeepsQueue core₁ mid := by
  obtain ⟨hnone, seqs, hinsert⟩ := queued_last (hneg.final hmid) hlast hs
  have hsubmitted : unaddressed (first :: mid ++ [last]) =
      core₁.state.queued ++ unaddressed mid := by
    rw [unaddressed_append, unaddressed_cons, hnone, List.append_nil,
      queued_first hbefore hneg.head hfirst]
  obtain ⟨hseqs, hnext⟩ := MessageManager.insertAll_eq_some hinsert
  rw [hsubmitted]
  rcases queued_run hmid hneg with ⟨hall, hqueued⟩ | ⟨hnot, hlt⟩
  · refine iff_of_true ?_ hall
    rw [← hqueued, hinsert, hseqs, List.range_eq_range']
    rfl
  · refine iff_of_false ?_ hnot
    intro hall
    have hcount := (MessageManager.insertAll_eq_some hall).2
    omega

/-- A link that is closed when it is asked again. -/
def closingLink : Link := { steadyLink with isClosed := fun calls => Nat.blt 0 calls }

private theorem keepsQueue_of_ne_timer {core : Core} {input : Nat × Event} (h : input.2 ≠ .timer) :
    KeepsQueue core input := by
  rintro ⟨s, _, _, _, htimer, _⟩
  exact h htimer

/-- A message is submitted while disconnected and another one while connecting, then a link is
made and an epoch agreed on. -/
theorem queued_inserted_iff_two :
    ∃ core₁ core₂ core₃ s, start.step (0, .command (.message ⟨[7], by decide⟩ none)) = some core₁ ∧
      run step core₁ [(0, .command (.message ⟨[8], by decide⟩ none)),
        (0, .command (.addLink steadyLink))] = some core₂ ∧
      core₂.step (0, .frame 0 (.reset none true)) = some core₃ ∧ core₃.state = .connected s ∧
      (MessageManager.new s.epoch).insertAll [⟨[7], by decide⟩, ⟨[8], by decide⟩] =
        some ([0, 1], s.msgMgr) := by
  refine ⟨_, _, _, _, rfl, rfl, rfl, rfl, ?_⟩
  refine (queued_inserted_iff start (0, .command (.message ⟨[7], by decide⟩ none))
    [(0, .command (.message ⟨[8], by decide⟩ none)), (0, .command (.addLink steadyLink))]
    (0, .frame 0 (.reset none true)) (by decide) rfl rfl (by decide) rfl rfl).mpr ?_
  refine ⟨keepsQueue_of_ne_timer nofun, fun _ _ => ⟨keepsQueue_of_ne_timer nofun, ?_⟩⟩
  exact fun _ _ => trivial

/-- A message is queued, the only link closes during the negotiation, and the next one makes a
session without the message. -/
theorem queue_lost_on_retry :
    ∃ core s, run step start [(0, .command (.message ⟨[7], by decide⟩ none)),
        (0, .command (.addLink closingLink)), (seconds 60, .timer),
        (seconds 60, .command (.addLink steadyLink)), (seconds 60, .frame 1 (.reset none true))] =
          some core ∧
      core.state = .connected s ∧ s.msgMgr.nextSeq = 0 :=
  ⟨_, _, rfl, rfl, rfl⟩

end Core

end LinkSet
