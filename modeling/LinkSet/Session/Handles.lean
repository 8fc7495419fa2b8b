import LinkSet.Core.Limits
import LinkSet.Session.Reports

/-!
# What the user sees of the core

The user holds a `LinkSet`, clones of its sending half and perhaps a `LinkSetReader` that took the
receiving half. All of them share one cell with the current epoch, which only the receiving half
sets, as it takes the events of the core. The core goes on in the meantime and may panic; the
events that it has sent until then can still be received.
-/

namespace LinkSet

open Framework

/-- The errors that `recv` reports. -/
inductive LinkSetError (E : Type) where
  | sendableDeserialization (e : E)
  | receiverTaken
  | terminated

/-- `LinkSetMessage<M>`, where `LinkSetMessage` is what the core sends. -/
inductive UserMessage (M : Type) where
  | disconnected
  | connected (epoch : Epoch)
  | attemptingConnection (active : Bool)
  | message (msg : M) (epoch : Epoch)

variable {M E : Type}

/-- `fromBytes` is that of the `LinkSetSendable` of the user. -/
def LinkSetMessage.tryInto (fromBytes : List UInt8 → Except E M) :
    LinkSetMessage → Except (LinkSetError E) (UserMessage M)
  | .disconnected => .ok .disconnected
  | .connected epoch => .ok (.connected epoch)
  | .attemptingConnection active => .ok (.attemptingConnection active)
  | .message data epoch =>
      match fromBytes data with
      | .ok msg => .ok (.message msg epoch)
      | .error e => .error (.sendableDeserialization e)

/-- What an event that is received writes into the cell of the epoch. -/
def UserMessage.epochAfter (epoch : Option Epoch) : UserMessage M → Option Epoch
  | .connected e => some e
  | .disconnected => none
  | _ => epoch

/-- The events for the user among the entries of a record. -/
def events (record : List Effect) : List LinkSetMessage :=
  record.filterMap fun
    | .toCtrl msg => some msg
    | _ => none

/-- Who has the receiver of the events: the `LinkSet` that was made with it, the `LinkSetReader`
that took it, or nobody. -/
inductive Holder where
  | linkSet
  | reader
  | nobody
deriving DecidableEq

/-- The kinds of handles: the `LinkSet` that was made first, clones of it, and the reader. -/
inductive Handle where
  | linkSet
  | clone
  | reader
deriving DecidableEq

/-- The core, which runs until it panics, and what the handles share. -/
structure Handles where
  core : Core
  running : Bool
  /-- How many events have been received. -/
  taken : Nat
  epoch : Option Epoch
  holder : Holder

namespace Handles

def new : Handles := ⟨Core.start, true, 0, none, .linkSet⟩

/-- The events in the channel. -/
def waiting (h : Handles) : List LinkSetMessage := (events h.core.common.record).drop h.taken

/-- `from_core.is_closed() && from_core.is_empty()`. -/
def isOver (h : Handles) : Bool := !h.running && h.waiting.isEmpty

def isTerminated (h : Handles) : Bool := !h.running

def isActive (h : Handles) : Bool := h.core.common.isActive && !h.isTerminated

def currentEpoch (h : Handles) : Handle → Option Epoch
  | .linkSet => if h.holder = .linkSet ∧ h.isOver then none else h.epoch
  | .clone => h.epoch
  | .reader => if h.isOver then none else h.epoch

/-- The common part of both `recv`, with what the cell becomes on the end of the events. Nothing
is returned as long as there is nothing to receive. -/
def receive (fromBytes : List UInt8 → Except E M) (h : Handles) (atEnd : Option Epoch) :
    Option (Except (LinkSetError E) (UserMessage M) × Handles) :=
  match h.waiting with
  | [] => if h.running then none else some (.error .terminated, { h with epoch := atEnd })
  | ev :: _ =>
      match ev.tryInto fromBytes with
      | .error e => some (.error e, { h with taken := h.taken + 1 })
      | .ok msg =>
          some (.ok msg, { h with taken := h.taken + 1, epoch := msg.epochAfter h.epoch })

/-- `LinkSet::recv` of the first handle and of a clone, and `LinkSetReader::recv`. Only the last
one clears the cell when the core has terminated. -/
def recv (fromBytes : List UInt8 → Except E M) (h : Handles) :
    Handle → Option (Except (LinkSetError E) (UserMessage M) × Handles)
  | .linkSet =>
      if h.holder = .linkSet then h.receive fromBytes h.epoch else some (.error .receiverTaken, h)
  | .clone => some (.error .receiverTaken, h)
  | .reader => if h.holder = .reader then h.receive fromBytes none else none

/-- `take_recv`; a second call returns `None`. -/
def takeRecv (h : Handles) : Handles :=
  if h.holder = .linkSet then { h with holder := .reader } else h

inductive Action where
  | round (now : Nat) (ev : Event)
  | recv (handle : Handle)
  | takeRecv
  | dropLinkSet
  | dropReader

/-- The core panics when it has handed out what is in the record. -/
def panicked (h : Handles) (record : List Effect) : Handles :=
  { h with core := { h.core with common := h.core.common.log record }, running := false }

def round (h : Handles) (now : Nat) (ev : Event) : Option Handles :=
  if h.running then
    match h.core.round now ev with
    | .idle => none
    | .done core => some { h with core }
    | .panicked record => some (h.panicked record)
  else none

/-- Only the reader has a `Drop` that clears the cell. -/
def step (fromBytes : List UInt8 → Except E M) (h : Handles) : Action → Option Handles
  | .round now ev => h.round now ev
  | .recv handle => (h.recv fromBytes handle).map Prod.snd
  | .takeRecv => some h.takeRecv
  | .dropLinkSet => some (if h.holder = .linkSet then { h with holder := .nobody } else h)
  | .dropReader =>
      if h.holder = .reader then some { h with holder := .nobody, epoch := none } else none

end Handles

section status

variable {fromBytes : List UInt8 → Except E M} {ev : LinkSetMessage}

/-- What an event of the core says about the epoch. -/
def LinkSetMessage.epochAfter (epoch : Option Epoch) : LinkSetMessage → Option Epoch
  | .connected e => some e
  | .disconnected => none
  | _ => epoch

/-- The epoch that the events say, one after the other. -/
def epochOf (evs : List LinkSetMessage) : Option Epoch := evs.foldl LinkSetMessage.epochAfter none

private theorem epochOf_concat (evs : List LinkSetMessage) (ev : LinkSetMessage) :
    epochOf (evs ++ [ev]) = ev.epochAfter (epochOf evs) := by
  simp only [epochOf, List.foldl_append, List.foldl_cons, List.foldl_nil]

private theorem LinkSetMessage.tryInto_epochAfter {msg : UserMessage M}
    (h : ev.tryInto fromBytes = .ok msg) (epoch : Option Epoch) :
    msg.epochAfter epoch = ev.epochAfter epoch := by
  cases ev with
  | message data e =>
      simp only [tryInto] at h
      split at h
      · cases h
        rfl
      · cases h
  | _ =>
      cases h
      rfl

private theorem LinkSetMessage.tryInto_error {e : LinkSetError E}
    (h : ev.tryInto fromBytes = .error e) (epoch : Option Epoch) : ev.epochAfter epoch = epoch := by
  cases ev with
  | message data e => rfl
  | _ => cases h

private theorem LinkSetMessage.tryInto_message {msg : M} {e : Epoch}
    (h : ev.tryInto fromBytes = .ok (.message msg e)) : ∃ data, ev = .message data e := by
  cases ev with
  | message data e' =>
      simp only [tryInto] at h
      split at h
      · cases h
        exact ⟨data, rfl⟩
      · cases h
  | _ => cases h

@[simp] theorem events_append (r t : List Effect) : events (r ++ t) = events r ++ events t :=
  List.filterMap_append

private theorem epochOf_events (record : List Effect) (e : Epoch) :
    epochOf (events record) = some e ↔ lastStatus record = some (.connected e) := by
  induction record using List.reverseRecOn with
  | nil => simp [epochOf, events, lastStatus]
  | append_singleton record eff ih =>
      rw [events_append, lastStatus_append]
      cases eff with
      | toCtrl msg =>
          change epochOf (events record ++ [msg]) = some e ↔ _
          rw [epochOf_concat]
          cases msg with
          | connected e' =>
              change some e' = some e ↔ some (LinkSetMessage.connected e') = some (.connected e)
              simp
          | disconnected =>
              change none = some e ↔ some LinkSetMessage.disconnected = some (.connected e)
              simp
          | _ => exact ih
      | toLink id frame =>
          change epochOf (events record ++ []) = some e ↔ _
          rw [List.append_nil]
          cases frame <;> exact ih
      | _ =>
          change epochOf (events record ++ []) = some e ↔ _
          rw [List.append_nil]
          exact ih

private theorem Core.Placed.epochOf {record : List Effect} (h : Core.Placed record)
    {pre post : List LinkSetMessage} {data : List UInt8} {e : Epoch}
    (hsplit : events record = pre ++ .message data e :: post) : LinkSet.epochOf pre = some e := by
  obtain ⟨before, rest, hrecord, hpre, hrest⟩ := List.filterMap_eq_append_iff.mp hsplit
  obtain ⟨skipped, eff, after, hrest', hskipped, heff, _⟩ := List.filterMap_eq_cons_iff.mp hrest
  have hmsg : eff = .toCtrl (.message data e) := by
    cases eff with
    | toCtrl msg => exact congrArg Effect.toCtrl (Option.some.inj heff)
    | _ => cases heff
  subst hmsg
  have hnone : events skipped = [] := List.filterMap_eq_nil_iff.mpr hskipped
  have hbefore : events (before ++ skipped) = pre := by
    rw [events_append, hnone, List.append_nil]
    exact hpre
  rw [← hbefore, epochOf_events]
  exact h (before ++ skipped) data e after (by rw [hrecord, hrest', List.append_assoc])

end status

/-- A round that panics has handed out nothing, or as much as it would have had it gone on. -/
private theorem Core.round_panicked {core : Core} {now : Nat} {ev : Event} {record : List Effect}
    (h : core.round now ev = .panicked record) :
    record = [] ∨ ∃ core', core.step (now, ev) = some core' ∧
      core.common.record ++ record = core'.common.record := by
  unfold Core.round at h
  split at h
  · cases h
  split at h
  · cases h
    exact Or.inl rfl
  split at h
  · cases h
    exact Or.inl rfl
  · next core' hstep =>
      split at h
      · cases h
      · cases h
        unfold Core.handedOut
        split
        · exact Or.inl rfl
        · obtain ⟨delta, hrecord, _⟩ := Core.step_phase hstep
          exact Or.inr ⟨core', hstep, by rw [hrecord, List.drop_left]⟩

namespace Handles

variable {fromBytes : List UInt8 → Except E M} {h h' : Handles}

def received (h : Handles) : List LinkSetMessage := (events h.core.common.record).take h.taken

private theorem received_append_waiting (h : Handles) :
    h.received ++ h.waiting = events h.core.common.record := List.take_append_drop _ _

private theorem receive_cases {atEnd : Option Epoch} {res : Except (LinkSetError E) (UserMessage M)}
    (hr : h.receive fromBytes atEnd = some (res, h')) :
    (h.isOver = true ∧ res = .error .terminated ∧ h' = { h with epoch := atEnd }) ∨
    (∃ ev rest, h.waiting = ev :: rest ∧ res = ev.tryInto fromBytes ∧
      h' = { h with taken := h.taken + 1, epoch := ev.epochAfter h.epoch }) := by
  unfold receive at hr
  split at hr
  · next hnil =>
      obtain ⟨hrunning, hr⟩ := Option.ite_none_left_eq_some.mp hr
      cases hr
      refine Or.inl ⟨?_, rfl, rfl⟩
      simp [isOver, hnil, hrunning]
  · next ev rest hcons =>
      refine Or.inr ⟨ev, rest, hcons, ?_⟩
      split at hr
      · next e htry =>
          cases hr
          exact ⟨htry.symm, by rw [LinkSetMessage.tryInto_error htry]⟩
      · next msg htry =>
          cases hr
          exact ⟨htry.symm, by rw [LinkSetMessage.tryInto_epochAfter htry]⟩

private theorem recv_ok {handle : Handle} {msg : UserMessage M}
    (hr : h.recv fromBytes handle = some (.ok msg, h')) :
    ∃ atEnd, h.holder ≠ .nobody ∧ h.receive fromBytes atEnd = some (.ok msg, h') := by
  cases handle with
  | linkSet =>
      simp only [recv] at hr
      split at hr
      · next hholder => exact ⟨h.epoch, by rw [hholder]; nofun, hr⟩
      · cases hr
  | clone => cases hr
  | reader =>
      obtain ⟨hholder, hr⟩ := Option.ite_none_right_eq_some.mp hr
      exact ⟨none, by rw [hholder]; nofun, hr⟩

/-- What holds of the handles in every run. The cell is behind the events that were received only
where the reader has met their end. -/
structure Sound (h : Handles) : Prop where
  announced : h.running = true → h.core.Announced
  placed : Core.Placed h.core.common.record
  taken_le : h.taken ≤ (events h.core.common.record).length
  epoch : h.holder ≠ .nobody →
    h.epoch = epochOf h.received ∨ (h.holder = .reader ∧ h.isOver = true ∧ h.epoch = none)

namespace Sound

private theorem new : Handles.new.Sound where
  announced := by
    intro _ e he
    cases he
  placed := by
    intro pre data e post hnil
    simp [Handles.new, Core.start, CommonState.new] at hnil
  taken_le := Nat.le_refl _
  epoch := fun _ => Or.inl rfl

private theorem epoch_eq (hs : h.Sound) (hholder : h.holder ≠ .nobody)
    (hmore : h.holder = .linkSet ∨ h.isOver = false) : h.epoch = epochOf h.received := by
  rcases hs.epoch hholder with heq | ⟨hreader, hover, _⟩
  · exact heq
  · rcases hmore with hlinkSet | hopen
    · rw [hreader] at hlinkSet
      cases hlinkSet
    · rw [hover] at hopen
      cases hopen

private theorem grow {core : Core} {running : Bool} {delta : List Effect} (hs : h.Sound)
    (hrunning : h.running = true) (hrecord : core.common.record = h.core.common.record ++ delta)
    (hann : running = true → core.Announced) (hplaced : Core.Placed core.common.record) :
    Sound { h with core, running } := by
  have hopen : h.isOver = false := by simp [isOver, hrunning]
  have hle := hs.taken_le
  have hsame : (events core.common.record).take h.taken = h.received := by
    rw [hrecord, events_append]
    exact List.take_append_of_le_length hle
  refine ⟨hann, hplaced, ?_, ?_⟩
  · simp only [hrecord, events_append, List.length_append]
    omega
  · intro hholder
    exact Or.inl ((hs.epoch_eq hholder (Or.inr hopen)).trans (congrArg epochOf hsame.symm))

private theorem round {now : Nat} {ev : Event} (hs : h.Sound) (hr : h.round now ev = some h') :
    h'.Sound := by
  unfold Handles.round at hr
  obtain ⟨hrunning, hr⟩ := Option.ite_none_right_eq_some.mp hr
  have hann := hs.announced hrunning
  split at hr
  · cases hr
  · next core hround =>
      cases hr
      obtain ⟨_, hstep, _⟩ := Core.round_eq_done.mp hround
      obtain ⟨hann', hplaced⟩ := Core.placed_step h.core _ core ⟨hann, hs.placed⟩ hstep
      obtain ⟨delta, hrecord, _⟩ := Core.step_phase hstep
      exact hs.grow hrunning hrecord (fun _ => hann') hplaced
  · next record hround =>
      cases hr
      refine hs.grow hrunning rfl nofun ?_
      rcases Core.round_panicked hround with rfl | ⟨core, hstep, hrecord⟩
      · rw [CommonState.log_record, List.append_nil]
        exact hs.placed
      · rw [CommonState.log_record, hrecord]
        exact (Core.placed_step h.core _ core ⟨hann, hs.placed⟩ hstep).2

private theorem taken {ev : LinkSetMessage} {rest : List LinkSetMessage} (hs : h.Sound)
    (hholder : h.holder ≠ .nobody) (hwaiting : h.waiting = ev :: rest) :
    Sound { h with taken := h.taken + 1, epoch := ev.epochAfter h.epoch } := by
  have hopen : h.isOver = false := by simp [isOver, hwaiting]
  have hevents := h.received_append_waiting
  rw [hwaiting] at hevents
  have hlen : h.received.length = h.taken := List.length_take_of_le hs.taken_le
  have hnext : (events h.core.common.record).take (h.taken + 1) = h.received ++ [ev] := by
    rw [← hevents, ← hlen, List.take_append, List.take_of_length_le (by omega)]
    simp
  refine ⟨hs.announced, hs.placed, ?_, ?_⟩
  · simp only [← hevents, List.length_append, List.length_cons, hlen]
    omega
  · intro _
    apply Or.inl
    change ev.epochAfter h.epoch = epochOf ((events h.core.common.record).take (h.taken + 1))
    rw [hnext, epochOf_concat, hs.epoch_eq hholder (Or.inr hopen)]

private theorem receive {atEnd : Option Epoch} {res : Except (LinkSetError E) (UserMessage M)}
    (hs : h.Sound) (hholder : h.holder ≠ .nobody)
    (hover : atEnd = h.epoch ∨ (h.holder = .reader ∧ atEnd = none))
    (hr : h.receive fromBytes atEnd = some (res, h')) : h'.Sound := by
  rcases receive_cases hr with ⟨hend, _, rfl⟩ | ⟨ev, rest, hwaiting, _, rfl⟩
  · refine ⟨hs.announced, hs.placed, hs.taken_le, fun _ => ?_⟩
    rcases hover with rfl | ⟨hreader, rfl⟩
    · exact hs.epoch hholder
    · exact Or.inr ⟨hreader, hend, rfl⟩
  · exact hs.taken hholder hwaiting

private theorem recv {handle : Handle} {res : Except (LinkSetError E) (UserMessage M)}
    (hs : h.Sound) (hr : h.recv fromBytes handle = some (res, h')) : h'.Sound := by
  cases handle with
  | linkSet =>
      simp only [Handles.recv] at hr
      split at hr
      · next hholder => exact hs.receive (by rw [hholder]; nofun) (Or.inl rfl) hr
      · cases hr
        exact hs
  | clone =>
      cases hr
      exact hs
  | reader =>
      obtain ⟨hholder, hr⟩ := Option.ite_none_right_eq_some.mp hr
      exact hs.receive (by rw [hholder]; nofun) (Or.inr ⟨hholder, rfl⟩) hr

private theorem step {a : Action} (hs : h.Sound) (hstep : h.step fromBytes a = some h') :
    h'.Sound := by
  cases a with
  | round now ev => exact hs.round hstep
  | recv handle =>
      obtain ⟨⟨res, t⟩, hr, rfl⟩ := Option.map_eq_some_iff.mp hstep
      exact hs.recv hr
  | takeRecv =>
      cases hstep
      unfold Handles.takeRecv
      split
      · next hholder =>
          refine ⟨hs.announced, hs.placed, hs.taken_le, fun _ => Or.inl ?_⟩
          exact hs.epoch_eq (by rw [hholder]; nofun) (Or.inl hholder)
      · exact hs
  | dropLinkSet =>
      cases hstep
      split
      · exact ⟨hs.announced, hs.placed, hs.taken_le, fun hholder => absurd rfl hholder⟩
      · exact hs
  | dropReader =>
      obtain ⟨_, hstep⟩ := Option.ite_none_right_eq_some.mp hstep
      cases hstep
      exact ⟨hs.announced, hs.placed, hs.taken_le, fun hholder => absurd rfl hholder⟩

private theorem of_run {actions : List Action}
    (hrun : run (Handles.step fromBytes) Handles.new actions = some h) : h.Sound :=
  run_invariant (fun _ _ _ => step) new hrun

end Sound

private theorem currentEpoch_eq (hopen : h.isOver = false) (handle : Handle) :
    h.currentEpoch handle = h.epoch := by
  cases handle <;> simp [currentEpoch, hopen]

/-- In every run, when `recv` returns a message of epoch `e`, whichever handle it is called on, the
clones say that `e` is current, and so do all handles unless the core has panicked and there are
no more events. -/
theorem received_epoch_current (fromBytes : List UInt8 → Except E M) (actions : List Action)
    (h : Handles) (hrun : run (Handles.step fromBytes) Handles.new actions = some h)
    (handle : Handle) (msg : M) (e : Epoch) (h' : Handles)
    (hrecv : h.recv fromBytes handle = some (.ok (.message msg e), h')) :
    h'.currentEpoch .clone = some e ∧
      (h'.running = true ∨ h'.waiting ≠ [] → ∀ other, h'.currentEpoch other = some e) := by
  have hs := Sound.of_run hrun
  obtain ⟨atEnd, hholder, hreceive⟩ := recv_ok hrecv
  have hepoch : h'.epoch = some e := by
    rcases receive_cases hreceive with ⟨_, hres, _⟩ | ⟨ev, rest, hwaiting, hres, rfl⟩
    · cases hres
    · obtain ⟨data, rfl⟩ := LinkSetMessage.tryInto_message hres.symm
      have hopen : h.isOver = false := by simp [isOver, hwaiting]
      have hsplit := h.received_append_waiting
      rw [hwaiting] at hsplit
      exact (hs.epoch_eq hholder (Or.inr hopen)).trans (hs.placed.epochOf hsplit.symm)
  refine ⟨hepoch, ?_⟩
  intro hmore other
  have hopen : h'.isOver = false := by
    rcases hmore with hrunning | hwaiting
    · simp [isOver, hrunning]
    · simp [isOver, hwaiting]
  rw [currentEpoch_eq hopen, hepoch]

/-- The messages of the user are single bytes. -/
private def oneByte : List UInt8 → Except Unit UInt8
  | [b] => .ok b
  | _ => .error ()

/-- The reader is taken before the message of the peer is received. -/
private def messageToReader : List Action :=
  [.round 0 (.command (.addLink steadyLink)), .round 0 (.frame 0 (.reset none true)),
    .round 0 (.frame 0 (.msgSlice 1 0 1 0 [7])), .recv .linkSet, .takeRecv]

theorem received_epoch_current_reader :
    ∃ h h', run (Handles.step oneByte) Handles.new messageToReader = some h ∧
      h.recv oneByte .reader = some (.ok (.message 7 Epoch.one), h') ∧
      h'.currentEpoch .linkSet = some Epoch.one := by
  refine ⟨_, _, rfl, rfl, ?_⟩
  exact (received_epoch_current oneByte messageToReader _ rfl .reader 7 Epoch.one _ rfl).2
    (Or.inl rfl) .linkSet

/-- In every run, as long as the receiving half is held: once the user has received all events of a
core that still runs, every handle says the epoch of the session the core is in. When there is
neither a session nor a negotiation they all say that there is none exactly when the last status was
not that one was entered. -/
theorem caught_up_epoch (fromBytes : List UInt8 → Except E M) (actions : List Action)
    (h : Handles) (hrun : run (Handles.step fromBytes) Handles.new actions = some h)
    (hholder : h.holder ≠ .nobody) (hrunning : h.running = true) (hwaiting : h.waiting = []) :
    (∀ e, h.core.state.phase.session = some e → ∀ handle, h.currentEpoch handle = some e) ∧
    (h.core.state.phase.offline = true →
      ((∀ handle, h.currentEpoch handle = none) ↔ h.core.Told)) := by
  have hs := Sound.of_run hrun
  have hopen : h.isOver = false := by simp [isOver, hrunning]
  have hall : h.received = events h.core.common.record := by
    rw [← h.received_append_waiting, hwaiting, List.append_nil]
  have hepoch : h.epoch = epochOf (events h.core.common.record) := by
    rw [← hall]
    exact hs.epoch_eq hholder (Or.inr hopen)
  refine ⟨?_, ?_⟩
  · intro e he handle
    rw [currentEpoch_eq hopen, hepoch, epochOf_events]
    exact hs.announced hrunning e he
  · intro hoff
    constructor
    · intro hnone _ msg hmsg
      rcases lastStatus_cases hmsg with hdisc | ⟨e, rfl⟩
      · exact hdisc
      · have hsome := (epochOf_events _ e).mpr hmsg
        rw [← hepoch] at hsome
        cases (hnone .clone).symm.trans hsome
    · intro htold handle
      rw [currentEpoch_eq hopen, hepoch]
      cases hsome : epochOf (events h.core.common.record) with
      | none => rfl
      | some e => cases htold hoff _ ((epochOf_events _ e).mp hsome)

theorem caught_up_epoch_reader :
    ∃ h, run (Handles.step oneByte) Handles.new (messageToReader ++ [.recv .reader]) = some h ∧
      h.waiting = [] ∧ h.currentEpoch .clone = some Epoch.one := by
  refine ⟨_, rfl, rfl, ?_⟩
  exact (caught_up_epoch oneByte (messageToReader ++ [.recv .reader]) _ rfl nofun rfl rfl).1
    Epoch.one rfl .clone

/-- A timeout that no `Instant` can hold makes the core panic when the grace period is over, after
the end of the session is reported. -/
private def timeoutPanics : List Action :=
  [.round 0 (.config (.gracePeriod (some (seconds 1)))),
    .round 0 (.config (.connectTimeout (some (seconds (2 ^ 64 - 1))))),
    .round 0 (.command (.addLink steadyLink)), .round 0 (.frame 0 (.reset none true)),
    .round 0 (.debug (.evictLink 0)), .round (seconds 5) .timer, .round (seconds 6) .timer,
    .recv .linkSet, .recv .linkSet, .recv .linkSet]

example : (run (Handles.step oneByte) Handles.new timeoutPanics).map
    (fun h => (h.running, h.isOver, h.currentEpoch .clone)) = some (false, true, none) := by
  decide +kernel

end Handles

end LinkSet
