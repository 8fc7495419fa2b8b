import LinkSet.Core.Handlers
import LinkSet.Session.Phase

/-!
# The core refines the session protocol

Every round of the event loop is a move of the protocol, and the signals of the move are what
the round adds to the record.
-/

namespace LinkSet

open Framework

def States.phase : States → Phase
  | .disconnected s => .disconnected s.epoch
  | .connecting s => .connecting s.epoch
  | .epochMismatch s => .mismatch s.epoch
  | .connected s => .connected s.epoch
  | .reconnecting s => .reconnecting s.epoch
  | .gracePeriod s => .gracePeriod s.epoch

def LinkSetControlCommand.stimulus {μ : Type} : LinkSetControlCommand μ → Stimulus
  | .connect => .connect
  | .disconnect => .disconnect
  | .addConnector _ => .other
  | .addAddress _ => .other
  | .addLink _ => .addLink
  | .message _ epoch => .message epoch

def Event.stimulus : Event → Stimulus
  | .command cmd => cmd.stimulus
  | .config _ => .other
  | .frame _ msg => .frame msg
  | .timer => .timer
  | .debug _ => .other
  | .permits _ _ => .other

theorem Event.eq_disconnect {ev : Event} (h : ev.stimulus = .disconnect) :
    ev = .command .disconnect := by
  cases ev with
  | command cmd =>
      cases cmd with
      | disconnect => rfl
      | _ => cases h
  | _ => cases h

theorem Event.eq_timer {ev : Event} (h : ev.stimulus = .timer) : ev = .timer := by
  cases ev with
  | timer => rfl
  | command cmd => cases cmd <;> cases h
  | _ => cases h

theorem Event.eq_addLink {ev : Event} (h : ev.stimulus = .addLink) :
    ∃ link, ev = .command (.addLink link) := by
  cases ev with
  | command cmd =>
      cases cmd with
      | addLink link => exact ⟨link, rfl⟩
      | _ => cases h
  | _ => cases h

theorem Event.eq_frame {ev : Event} {msg : LinkProtocol} (h : ev.stimulus = .frame msg) :
    ∃ id, ev = .frame id msg := by
  cases ev with
  | frame id msg' =>
      cases h
      exact ⟨id, rfl⟩
  | command cmd => cases cmd <;> cases h
  | _ => cases h

def Effect.signal : Effect → Option Signal
  | .toCtrl .disconnected => some .disconnected
  | .toCtrl (.connected epoch) => some (.connected epoch)
  | .toCtrl (.attemptingConnection active) => some (.attempting active)
  | .toCtrl (.message _ epoch) => some (.message epoch)
  | .toLink _ (.reset epoch request) => some (.reset epoch request)
  | .toLink _ _ => none
  | .newManager epoch => some (.fresh epoch)
  | .inserted _ _ _ => none

def signals (record : List Effect) : List Signal := record.filterMap Effect.signal

@[simp] theorem signals_nil : signals [] = [] := rfl

@[simp] theorem signals_append (r t : List Effect) : signals (r ++ t) = signals r ++ signals t :=
  List.filterMap_append

@[simp] theorem signals_toCtrl_disconnected (r : List Effect) :
    signals (.toCtrl .disconnected :: r) = .disconnected :: signals r := rfl

@[simp] theorem signals_toCtrl_connected (e : Epoch) (r : List Effect) :
    signals (.toCtrl (.connected e) :: r) = .connected e :: signals r := rfl

@[simp] theorem signals_toCtrl_attempting (b : Bool) (r : List Effect) :
    signals (.toCtrl (.attemptingConnection b) :: r) = .attempting b :: signals r := rfl

@[simp] theorem signals_newManager (e : Epoch) (r : List Effect) :
    signals (.newManager e :: r) = .fresh e :: signals r := rfl

@[simp] theorem signals_inserted (tag seq : Nat) (e : Epoch) (r : List Effect) :
    signals (.inserted tag e seq :: r) = signals r := rfl

section quiet

theorem signals_wire_eq_nil {frames : List Sent}
    (h : ∀ f ∈ frames, ∀ epoch request, f.2 ≠ .reset epoch request) : signals (wire frames) = [] := by
  induction frames with
  | nil => rfl
  | cons f frames ih =>
      have htail := ih fun g hg => h g (by simp [hg])
      have hhead := h f (by simp)
      obtain ⟨id, frame⟩ := f
      cases frame with
      | reset epoch request => exact absurd rfl (hhead epoch request)
      | ack _ _ _ => exact htail
      | msgSlice _ _ _ _ _ => exact htail
      | ping => exact htail
      | pong => exact htail

private theorem signals_pingAll (m : LinkManager) (now : Nat) :
    signals (wire (m.pingAll now).2) = [] := by
  apply signals_wire_eq_nil
  intro f hf epoch request
  obtain ⟨e, _, rfl⟩ := List.mem_map.mp hf
  exact fun h => LinkProtocol.noConfusion h

private theorem signals_pong (m : LinkManager) (id : Nat) : signals (wire (m.pong id).2) = [] := by
  unfold LinkManager.pong
  split <;> rfl

private theorem signals_ack (m : LinkManager) (epoch : Epoch) (ack : Nat × Nat) :
    signals (wire (m.ack epoch ack).frames) = [] := by
  rcases m.sendProto_frames (.ack epoch.toInt ack.1 ack.2) with h | ⟨id, h⟩ <;>
    simp [LinkManager.ack, h, wire, signals, Effect.signal]

private theorem signals_sendSlices {m : LinkManager} {sliceMgr : SliceManager} {out : Outcome}
    (h : m.sendSlices sliceMgr = some out) : signals (wire out.frames) = [] := by
  apply signals_wire_eq_nil
  intro f hf epoch request heq
  obtain ⟨_, _, hslice, _⟩ := LinkManager.sendSlices_pieces h f hf
  rw [hslice] at heq
  cases heq

private theorem signals_reset (m : LinkManager) (epoch : Option Epoch) (request : Bool) :
    Perhaps (.reset epoch request) (signals (wire (m.reset epoch request).frames)) := by
  rcases m.sendProto_frames (.reset epoch request) with h | ⟨id, h⟩
  · left
    simp [LinkManager.reset, h, wire]
  · right
    simp [LinkManager.reset, h, wire, signals, Effect.signal]

private theorem signals_deliver (epoch : Epoch) (msgs : List (List UInt8)) :
    Chatter epoch (signals (msgs.map fun msg => .toCtrl (.message msg epoch))) := by
  intro s hs
  obtain ⟨eff, heff, hsig⟩ := List.mem_filterMap.mp hs
  obtain ⟨msg, _, rfl⟩ := List.mem_map.mp heff
  exact Or.inl (Option.some.inj hsig).symm

end quiet

/-- The handled event is a move of the protocol. -/
def Refines (p : Phase) (c : CommonState) (stim : Stimulus) (r : States × CommonState) : Prop :=
  ∃ delta, r.2.record = c.record ++ delta ∧ Phase.Step p stim r.1.phase (signals delta)

private theorem Refines.silent {p : Phase} {c : CommonState} {stim : Stimulus}
    {r : States × CommonState} (hrecord : r.2.record = c.record)
    (hstep : Phase.Step p stim r.1.phase []) :
    Refines p c stim r :=
  ⟨[], by rw [hrecord, List.append_nil], hstep⟩

private theorem Refines.idle {p : Phase} {c : CommonState} (stim : Stimulus)
    {r : States × CommonState} (hp : p.session = none) (hrecord : r.2.record = c.record)
    (hphase : r.1.phase = p) :
    Refines p c stim r :=
  Refines.silent hrecord (hphase ▸ Phase.Step.idle p stim hp)

theorem chatter_nil (e : Epoch) : Chatter e [] := by simp [Chatter]

namespace Disconnected

variable {s : Disconnected} {c : CommonState} {now : Nat} {r : States × CommonState}

private theorem ctrlMsg_refines {cmd : LinkSetControlCommand Submission}
    (h : s.ctrlMsg c now cmd = some r) : Refines (.disconnected s.epoch) c cmd.stimulus r := by
  cases cmd with
  | connect =>
      cases h
      exact ⟨[.toCtrl (.attemptingConnection true)], Connecting.determineTimer_record _ _,
        Phase.Step.connect (Or.inl rfl)⟩
  | disconnect =>
      cases h
      exact Refines.idle _ rfl rfl rfl
  | addConnector conn =>
      cases h
      exact Refines.idle _ rfl rfl rfl
  | addAddress addr =>
      cases h
      exact Refines.idle _ rfl rfl rfl
  | addLink link =>
      obtain ⟨⟨entry, c'⟩, hwrap, h⟩ := Option.bind_eq_some_iff.mp h
      have hrecord := CommonState.wrapLink_record hwrap
      cases entry with
      | none =>
          cases h
          exact Refines.idle _ rfl hrecord rfl
      | some link =>
          cases h
          let links := (LinkManager.new.addLink link).pingAll now
          refine ⟨wire links.2 ++ wire (links.1.reset s.epoch true).frames, ?_, ?_⟩
          · show c'.record ++ wire links.2 ++ wire (links.1.reset s.epoch true).frames = _
            rw [hrecord, List.append_assoc]
          · rw [signals_append, signals_pingAll]
            exact Phase.Step.firstLink (signals_reset _ _ _)
  | message data epoch =>
      simp only [ctrlMsg] at h
      split at h
      · next hnone =>
          cases h
          exact ⟨[.toCtrl (.attemptingConnection true)], Connecting.determineTimer_record _ _,
            Phase.Step.connect (Or.inr (congrArg Stimulus.message hnone.2))⟩
      · cases h
        exact Refines.idle _ rfl rfl rfl

end Disconnected

namespace Connecting

variable {s : Connecting} {c : CommonState} {now : Nat} {r : States × CommonState}

private theorem ctrlMsg_refines {cmd : LinkSetControlCommand Submission}
    (h : s.ctrlMsg c now cmd = some r) : Refines (.connecting s.epoch) c cmd.stimulus r := by
  cases cmd with
  | connect =>
      cases h
      exact Refines.idle _ rfl rfl rfl
  | disconnect =>
      cases h
      exact ⟨[.toCtrl (.attemptingConnection false)], rfl, Phase.Step.giveUp (Or.inl rfl)⟩
  | addConnector conn =>
      obtain ⟨connector, _, h⟩ := Option.bind_eq_some_iff.mp h
      cases h
      exact Refines.idle _ rfl rfl rfl
  | addAddress addr =>
      cases h
      exact Refines.idle _ rfl rfl rfl
  | addLink link =>
      obtain ⟨⟨entry, c'⟩, hwrap, h⟩ := Option.bind_eq_some_iff.mp h
      have hrecord := CommonState.wrapLink_record hwrap
      cases entry with
      | none =>
          cases h
          exact Refines.idle _ rfl hrecord rfl
      | some link =>
          cases h
          let links := (LinkManager.new.addLink link).pingAll now
          refine ⟨wire links.2 ++ (wire (links.1.reset s.epoch true).frames ++
            [.toCtrl (.attemptingConnection false)]), ?_, ?_⟩
          · show c'.record ++ wire links.2 ++ wire (links.1.reset s.epoch true).frames ++
              [.toCtrl (.attemptingConnection false)] = _
            rw [hrecord, List.append_assoc, List.append_assoc]
          · rw [signals_append, signals_append, signals_pingAll]
            exact Phase.Step.linkMade (signals_reset _ _ _)
  | message data epoch =>
      simp only [ctrlMsg] at h
      split at h
      · cases h
        exact Refines.idle _ rfl rfl rfl
      · cases h
        exact Refines.idle _ rfl rfl rfl

private theorem timer_refines (h : s.timer c = some r) :
    Refines (.connecting s.epoch) c .timer r := by
  cases h
  exact ⟨[.toCtrl (.attemptingConnection false)], rfl, Phase.Step.giveUp (Or.inr rfl)⟩

end Connecting

private theorem Connected.sendAllQueued_signals {mgr mgr' : MessageManager}
    {links links' : LinkManager} {c c' : CommonState} {msgs : List Submission}
    (h : sendAllQueued mgr links c msgs = some (mgr', links', c')) :
    ∃ delta, c'.record = c.record ++ delta ∧ signals delta = [] := by
  induction msgs generalizing mgr links c with
  | nil =>
      obtain ⟨_, _, rfl⟩ : mgr = mgr' ∧ links = links' ∧ c = c' := by
        simpa [sendAllQueued] using h
      exact ⟨[], (List.append_nil _).symm, rfl⟩
  | cons msg msgs ih =>
      obtain ⟨⟨mgr₁, links₁, c₁⟩, hone, hrest⟩ := Option.bind_eq_some_iff.mp h
      obtain ⟨⟨seq, mgr₂⟩, _, hone⟩ := Option.bind_eq_some_iff.mp hone
      obtain ⟨sliceMgr, _, hone⟩ := Option.bind_eq_some_iff.mp hone
      obtain ⟨out, hout, hone⟩ := Option.bind_eq_some_iff.mp hone
      obtain ⟨delta, hdelta, hsig⟩ := ih hrest
      obtain rfl : (c.log [.inserted msg.tag mgr₂.epoch seq]).sent out.frames = c₁ :=
        congrArg (fun r => r.2.2) (Option.some.inj hone)
      refine ⟨.inserted msg.tag mgr₂.epoch seq :: wire out.frames ++ delta, ?_, ?_⟩
      · simp [hdelta]
      · simp [signals_sendSlices hout, hsig]

private theorem Connected.fromEpochMismatch_signals {old : EpochMismatch} {c : CommonState}
    {now : Nat} {epoch : Epoch} {r : Connected × CommonState}
    (h : fromEpochMismatch old c now epoch = some r) :
    r.1.epoch = epoch ∧ ∃ delta, r.2.record = c.record ++ delta ∧
      signals delta = [.connected epoch, .fresh epoch] := by
  obtain ⟨⟨mgr, links, c'⟩, hqueue, h⟩ := Option.bind_eq_some_iff.mp h
  obtain ⟨delta, hdelta, hsig⟩ := sendAllQueued_signals hqueue
  cases h
  refine ⟨rfl, .toCtrl (.connected epoch) :: .newManager epoch :: delta, ?_, ?_⟩
  · show c'.record = _
    simp [hdelta]
  · simp [hsig]

namespace EpochMismatch

variable {s : EpochMismatch} {c : CommonState} {now id : Nat} {r : States × CommonState}

private theorem ctrlMsg_refines {cmd : LinkSetControlCommand Submission}
    (h : s.ctrlMsg c cmd = some r) : Refines (.mismatch s.epoch) c cmd.stimulus r := by
  cases cmd with
  | connect =>
      cases h
      exact Refines.idle _ rfl rfl rfl
  | disconnect =>
      cases h
      exact Refines.silent rfl (Phase.Step.abandon (Or.inl rfl))
  | addConnector conn =>
      cases h
      exact Refines.idle _ rfl rfl rfl
  | addAddress addr =>
      cases h
      exact Refines.idle _ rfl rfl rfl
  | addLink link =>
      obtain ⟨⟨entry, c'⟩, hwrap, h⟩ := Option.bind_eq_some_iff.mp h
      have hrecord := CommonState.wrapLink_record hwrap
      cases entry with
      | none =>
          cases h
          exact Refines.idle _ rfl hrecord rfl
      | some link =>
          cases h
          exact Refines.idle _ rfl hrecord rfl
  | message data epoch =>
      simp only [ctrlMsg] at h
      split at h
      · cases h
        exact Refines.idle _ rfl rfl rfl
      · cases h
        exact Refines.idle _ rfl rfl rfl

private theorem linkReset_refines {epoch : Option Epoch} {request : Bool}
    (h : s.linkReset c now epoch request = some r) :
    Refines (.mismatch s.epoch) c (.frame (.reset epoch request)) r := by
  unfold linkReset at h
  cases hcmp : compareEpochs s.epoch epoch with
  | gt =>
      rw [hcmp] at h
      cases h
      exact ⟨_, rfl, Phase.Step.insist hcmp (signals_reset _ _ _)⟩
  | eq =>
      rw [hcmp] at h
      obtain ⟨e, he, h⟩ := Option.bind_eq_some_iff.mp h
      obtain ⟨⟨s', c'⟩, hconn, h⟩ := Option.bind_eq_some_iff.mp h
      cases h
      obtain ⟨hepoch, delta, hdelta, hsig⟩ := Connected.fromEpochMismatch_signals hconn
      obtain rfl : s'.epoch = e := hepoch
      obtain rfl : epoch = some s'.epoch := (compareEpochs_eq_eq.mp hcmp).1 ▸ he
      rw [he] at hdelta ⊢
      cases request with
      | true =>
          refine ⟨wire (s.links.reset (some s'.epoch) false).frames ++ delta, ?_, ?_⟩
          · rw [hdelta]
            exact List.append_assoc _ _ _
          · rw [signals_append, hsig]
            exact Phase.Step.confirm (signals_reset _ _ _)
      | false =>
          refine ⟨delta, hdelta, ?_⟩
          rw [hsig]
          show Phase.Step _ _ _ ([] ++ [.connected s'.epoch, .fresh s'.epoch])
          exact Phase.Step.confirm (Or.inl rfl)
  | lt =>
      rw [hcmp] at h
      obtain ⟨⟨s', c'⟩, hconn, h⟩ := Option.bind_eq_some_iff.mp h
      cases h
      obtain ⟨hepoch, delta, hdelta, hsig⟩ := Connected.fromEpochMismatch_signals hconn
      refine ⟨wire (s.links.reset (some (epoch.getD Epoch.one)) false).frames ++ delta, ?_, ?_⟩
      · rw [hdelta]
        exact List.append_assoc _ _ _
      · rw [signals_append, hsig]
        show Phase.Step _ _ (.connected s'.epoch) _
        rw [hepoch]
        exact Phase.Step.adopt hcmp (signals_reset _ _ _)

private theorem linkMsg_refines {msg : LinkProtocol} (h : s.linkMsg c now id msg = some r) :
    Refines (.mismatch s.epoch) c (.frame msg) r := by
  cases msg with
  | reset epoch request => exact linkReset_refines h
  | ack _ _ _ =>
      cases h
      exact Refines.idle _ rfl rfl rfl
  | msgSlice _ _ _ _ _ =>
      cases h
      exact Refines.idle _ rfl rfl rfl
  | ping =>
      cases h
      refine ⟨wire (s.links.pong id).2, rfl, ?_⟩
      rw [signals_pong]
      exact Phase.Step.idle _ _ rfl
  | pong =>
      cases h
      exact Refines.idle _ rfl rfl rfl

private theorem timer_refines (h : s.timer c now = some r) :
    Refines (.mismatch s.epoch) c .timer r := by
  let links := s.links.upkeep.pingAll now
  have hpings : signals (wire links.2) = [] := signals_pingAll _ _
  simp only [timer] at h
  split at h
  · split at h
    · cases h
      refine ⟨wire links.2 ++ [.toCtrl (.attemptingConnection true)], ?_, ?_⟩
      · simp [Connecting.fromEpochMismatch, links]
      · rw [signals_append, hpings]
        exact Phase.Step.retry
    · cases h
      refine ⟨wire links.2, rfl, ?_⟩
      rw [hpings]
      exact Phase.Step.abandon (Or.inr rfl)
  · cases h
    refine ⟨wire links.2 ++ wire (links.1.reset s.epoch true).frames,
      List.append_assoc _ _ _, ?_⟩
    rw [signals_append, hpings]
    exact Phase.Step.request (signals_reset _ _ _)

end EpochMismatch

namespace Connected

variable {s : Connected} {c : CommonState} {now id : Nat} {r : States × CommonState}

private theorem determineState_refines {s' : Connected} {c' : CommonState} {stim : Stimulus}
    {delta : List Effect} (h : s'.determineState c' now = some r) (hepoch : s'.epoch = s.epoch)
    (hrecord : c'.record = c.record ++ delta) (hchat : Chatter s.epoch (signals delta)) :
    Refines (.connected s.epoch) c stim r := by
  rw [← hepoch] at hchat ⊢
  unfold determineState at h
  split at h
  · split at h
    · cases h
      refine ⟨delta ++ [.toCtrl (.attemptingConnection true)], ?_, ?_⟩
      · apply (Reconnecting.fromConnected_record s' c' now).trans
        rw [hrecord, List.append_assoc]
      · rw [signals_append]
        exact Phase.Step.reconnect hchat
    · split at h
      · cases h
        exact ⟨delta, (GracePeriod.fromConnected_record s' c' now).trans hrecord,
          Phase.Step.wait hchat⟩
      · cases h
        refine ⟨delta ++ [.toCtrl .disconnected], ?_, ?_⟩
        · show c'.record ++ [.toCtrl .disconnected] = _
          rw [hrecord, List.append_assoc]
        · rw [signals_append]
          exact Phase.Step.lost hchat
  · cases h
    exact ⟨delta, hrecord, Phase.Step.talk hchat⟩

private theorem stays_refines {s' : Connected} (stim : Stimulus) (hepoch : s'.epoch = s.epoch)
    {c' : CommonState} {delta : List Effect} (hrecord : c'.record = c.record ++ delta)
    (hsig : signals delta = []) : Refines (.connected s.epoch) c stim (.connected s', c') := by
  refine ⟨delta, hrecord, ?_⟩
  show Phase.Step _ _ (.connected s'.epoch) _
  rw [hsig, hepoch]
  exact Phase.Step.talk (chatter_nil _)

private theorem sendIfSome_signals {links links' : LinkManager} {c' : CommonState}
    {sliceMgr : Option SliceManager} (h : sendIfSome links c sliceMgr = some (links', c')) :
    ∃ delta, c'.record = c.record ++ delta ∧ signals delta = [] := by
  cases sliceMgr with
  | none =>
      obtain rfl := congrArg Prod.snd (Option.some.inj h)
      exact ⟨[], (List.append_nil _).symm, rfl⟩
  | some sliceMgr =>
      obtain ⟨out, hout, h⟩ := Option.map_eq_some_iff.mp h
      obtain rfl := congrArg Prod.snd h
      exact ⟨wire out.frames, rfl, signals_sendSlices hout⟩

private theorem ctrlMsg_refines {cmd : LinkSetControlCommand Submission}
    (h : s.ctrlMsg c now cmd = some r) : Refines (.connected s.epoch) c cmd.stimulus r := by
  cases cmd with
  | connect =>
      cases h
      exact stays_refines _ rfl (List.append_nil _).symm rfl
  | disconnect =>
      cases h
      exact ⟨[.toCtrl .disconnected], rfl, Phase.Step.close⟩
  | addConnector conn =>
      cases h
      exact stays_refines _ rfl (List.append_nil _).symm rfl
  | addAddress addr =>
      cases h
      exact stays_refines _ rfl (List.append_nil _).symm rfl
  | addLink link =>
      obtain ⟨⟨entry, c'⟩, hwrap, h⟩ := Option.bind_eq_some_iff.mp h
      have hrecord : c'.record = c.record ++ [] := by
        rw [CommonState.wrapLink_record hwrap, List.append_nil]
      cases entry with
      | none =>
          cases h
          exact stays_refines _ rfl hrecord rfl
      | some link =>
          cases h
          exact stays_refines _ rfl hrecord rfl
  | message data epoch =>
      simp only [ctrlMsg] at h
      split at h
      · cases h
        exact stays_refines _ rfl (List.append_nil _).symm rfl
      · obtain ⟨⟨seq, mgr⟩, _, h⟩ := Option.bind_eq_some_iff.mp h
        obtain ⟨⟨links, c'⟩, hsend, h⟩ := Option.bind_eq_some_iff.mp h
        obtain ⟨delta, hdelta, hsig⟩ := sendIfSome_signals hsend
        have hrecord : c'.record = c.record ++ (.inserted data.tag mgr.epoch seq :: delta) := by
          simp [hdelta]
        refine determineState_refines h rfl hrecord ?_
        rw [signals_inserted, hsig]
        exact chatter_nil _

private theorem linkReset_refines {epoch : Option Epoch} {request : Bool}
    (h : s.linkReset c now epoch request = some r) :
    Refines (.connected s.epoch) c (.frame (.reset epoch request)) r := by
  unfold linkReset at h
  cases request with
  | false =>
      cases h
      exact stays_refines _ rfl (List.append_nil _).symm rfl
  | true =>
      rw [if_pos rfl] at h
      split at h
      · refine determineState_refines h rfl rfl ?_
        intro sig hsig
        rcases signals_reset s.links (some s.epoch) false with hnone | hone
        · rw [hnone] at hsig
          cases hsig
        · rw [hone] at hsig
          exact Or.inr (List.mem_singleton.mp hsig)
      · next hne =>
          cases h
          exact ⟨_, rfl, Phase.Step.mismatch hne (signals_reset _ _ _)⟩

private theorem linkSlice_refines {epoch seq seqLen firstIndex : Nat} {data : List UInt8}
    (h : s.linkSlice c now epoch seq seqLen firstIndex data = some r) :
    Refines (.connected s.epoch) c (.frame (.msgSlice epoch seq seqLen firstIndex data)) r := by
  unfold linkSlice at h
  split at h
  · obtain ⟨⟨shouldAck, mgr⟩, _, h⟩ := Option.bind_eq_some_iff.mp h
    obtain ⟨⟨msgs, mgr'⟩, _, h⟩ := Option.bind_eq_some_iff.mp h
    have hmsgs := signals_deliver s.epoch msgs
    cases shouldAck with
    | true =>
        refine determineState_refines h rfl (List.append_assoc _ _ _) ?_
        rw [signals_append, signals_ack]
        exact hmsgs
    | false => exact determineState_refines h rfl rfl hmsgs
  · cases h
    exact stays_refines _ rfl (List.append_nil _).symm rfl

private theorem linkMsg_refines {msg : LinkProtocol} (h : s.linkMsg c now id msg = some r) :
    Refines (.connected s.epoch) c (.frame msg) r := by
  cases msg with
  | reset epoch request => exact linkReset_refines h
  | ack epoch seq lastIndex =>
      simp only [linkMsg] at h
      split at h
      · cases h
        exact stays_refines _ rfl (List.append_nil _).symm rfl
      · cases h
        exact stays_refines _ rfl (List.append_nil _).symm rfl
  | msgSlice _ _ _ _ _ => exact linkSlice_refines h
  | ping =>
      cases h
      exact stays_refines _ rfl rfl (signals_pong s.links id)
  | pong =>
      cases h
      exact stays_refines _ rfl (List.append_nil _).symm rfl

private theorem signals_pingIfDue (s : Connected) (now : Nat) :
    signals (wire (s.pingIfDue now).2) = [] := by
  unfold pingIfDue
  split
  · exact signals_pingAll _ _
  · rfl

private theorem timer_refines (h : s.timer c now = some r) :
    Refines (.connected s.epoch) c .timer r := by
  simp only [timer] at h
  obtain ⟨⟨links, c'⟩, hsend, h⟩ := Option.bind_eq_some_iff.mp h
  obtain ⟨delta, hdelta, hsig⟩ := sendIfSome_signals hsend
  refine determineState_refines h rfl (hdelta.trans (List.append_assoc _ _ _)) ?_
  rw [signals_append, hsig, signals_pingIfDue]
  exact chatter_nil _

end Connected

private theorem recvDetached_signals {mgr mgr' : MessageManager} {epoch : Epoch}
    {c c' : CommonState} {seq seqLen firstIndex : Nat} {data : List UInt8}
    (h : recvDetached mgr epoch c seq seqLen firstIndex data = some (mgr', c')) :
    ∃ delta, c'.record = c.record ++ delta ∧ Chatter epoch (signals delta) := by
  obtain ⟨⟨_, mgr₁⟩, _, h⟩ := Option.bind_eq_some_iff.mp h
  obtain ⟨⟨msgs, mgr₂⟩, _, h⟩ := Option.bind_eq_some_iff.mp h
  obtain rfl := congrArg Prod.snd (Option.some.inj h)
  exact ⟨_, rfl, signals_deliver epoch msgs⟩

private theorem linkDetached_refines {p : Phase} {mgr : MessageManager} {epoch : Epoch}
    {c : CommonState} {stay : MessageManager → States} {leave r : States × CommonState}
    {msg : LinkProtocol} (h : linkDetached mgr epoch c stay leave msg = some r)
    (hstay : ∀ mgr' c' delta, c'.record = c.record ++ delta → Chatter epoch (signals delta) →
      Refines p c (.frame msg) (stay mgr', c'))
    (hleave : msg = .reset (some epoch) true → Refines p c (.frame msg) leave) :
    Refines p c (.frame msg) r := by
  have hquiet : ∀ mgr', Refines p c (.frame msg) (stay mgr', c) := fun mgr' =>
    hstay mgr' c [] (List.append_nil _).symm (chatter_nil _)
  cases msg with
  | reset ep request =>
      simp only [linkDetached] at h
      split at h
      · next hreq =>
          cases h
          exact hleave (by rw [hreq.1, hreq.2])
      · cases h
        exact hquiet _
  | ack ep seq lastIndex =>
      simp only [linkDetached] at h
      split at h
      · cases h
        exact hquiet _
      · cases h
        exact hquiet _
  | msgSlice ep seq seqLen firstIndex data =>
      simp only [linkDetached] at h
      split at h
      · obtain ⟨⟨mgr', c'⟩, hrecv, h⟩ := Option.bind_eq_some_iff.mp h
        obtain ⟨delta, hdelta, hsig⟩ := recvDetached_signals hrecv
        cases h
        exact hstay _ _ delta hdelta hsig
      · cases h
        exact hquiet _
  | ping =>
      cases h
      exact hquiet _
  | pong =>
      cases h
      exact hquiet _

namespace Reconnecting

variable {s : Reconnecting} {c : CommonState} {now : Nat} {r : States × CommonState}

private theorem stays_refines {s' : Reconnecting} (stim : Stimulus) (hepoch : s'.epoch = s.epoch)
    {c' : CommonState} {delta : List Effect} (hrecord : c'.record = c.record ++ delta)
    (hsig : Chatter s.epoch (signals delta)) :
    Refines (.reconnecting s.epoch) c stim (.reconnecting s', c') := by
  refine ⟨delta, hrecord, ?_⟩
  show Phase.Step _ _ (.reconnecting s'.epoch) _
  rw [hepoch]
  exact Phase.Step.listenReconnecting hsig

private theorem quiet_refines {s' : Reconnecting} (stim : Stimulus) (hepoch : s'.epoch = s.epoch)
    {c' : CommonState} (hrecord : c'.record = c.record) :
    Refines (.reconnecting s.epoch) c stim (.reconnecting s', c') :=
  stays_refines stim hepoch (hrecord.trans (List.append_nil _).symm) (chatter_nil _)

private theorem ctrlMsg_refines {cmd : LinkSetControlCommand Submission}
    (h : s.ctrlMsg c now cmd = some r) : Refines (.reconnecting s.epoch) c cmd.stimulus r := by
  cases cmd with
  | connect =>
      cases h
      exact quiet_refines _ rfl rfl
  | disconnect =>
      cases h
      exact ⟨[.toCtrl (.attemptingConnection false), .toCtrl .disconnected],
        List.append_assoc _ _ _, Phase.Step.reconnectEnds (Or.inl rfl)⟩
  | addConnector conn =>
      obtain ⟨connector, _, h⟩ := Option.bind_eq_some_iff.mp h
      cases h
      exact quiet_refines _ rfl rfl
  | addAddress addr =>
      cases h
      exact quiet_refines _ rfl rfl
  | addLink link =>
      obtain ⟨⟨entry, c'⟩, hwrap, h⟩ := Option.bind_eq_some_iff.mp h
      have hrecord := CommonState.wrapLink_record hwrap
      cases entry with
      | none =>
          cases h
          exact quiet_refines _ rfl hrecord
      | some link =>
          cases h
          let links := (LinkManager.withLink link).pingAll now
          refine ⟨wire links.2 ++ [.toCtrl (.attemptingConnection false)], ?_, ?_⟩
          · show c'.record ++ wire links.2 ++ [.toCtrl (.attemptingConnection false)] = _
            rw [hrecord, List.append_assoc]
          · rw [signals_append, signals_pingAll]
            exact Phase.Step.reconnected
  | message data epoch =>
      simp only [ctrlMsg] at h
      split at h
      · cases h
        exact quiet_refines _ rfl rfl
      · obtain ⟨⟨seq, mgr⟩, _, h⟩ := Option.bind_eq_some_iff.mp h
        cases h
        exact stays_refines _ rfl rfl (chatter_nil _)

private theorem linkMsg_refines {msg : LinkProtocol} (h : s.linkMsg c now msg = some r) :
    Refines (.reconnecting s.epoch) c (.frame msg) r := by
  unfold linkMsg at h
  refine linkDetached_refines h ?_ ?_
  · intro mgr c' delta hdelta hsig
    exact stays_refines _ rfl hdelta hsig
  · intro hmsg
    refine ⟨[.toCtrl .disconnected], by simp, ?_⟩
    exact Phase.Step.reconnectRestarts (Or.inr (congrArg Stimulus.frame hmsg))

private theorem timer_refines (h : s.timer c now = some r) :
    Refines (.reconnecting s.epoch) c .timer r := by
  unfold timer at h
  split at h
  · cases h
    exact ⟨[.toCtrl .disconnected], by simp, Phase.Step.reconnectRestarts (Or.inl rfl)⟩
  · cases h
    exact ⟨[.toCtrl (.attemptingConnection false), .toCtrl .disconnected],
      List.append_assoc _ _ _, Phase.Step.reconnectEnds (Or.inr rfl)⟩

end Reconnecting

namespace GracePeriod

variable {s : GracePeriod} {c : CommonState} {now : Nat} {r : States × CommonState}

private theorem stays_refines {s' : GracePeriod} (stim : Stimulus) (hepoch : s'.epoch = s.epoch)
    {c' : CommonState} {delta : List Effect} (hrecord : c'.record = c.record ++ delta)
    (hsig : Chatter s.epoch (signals delta)) :
    Refines (.gracePeriod s.epoch) c stim (.gracePeriod s', c') := by
  refine ⟨delta, hrecord, ?_⟩
  show Phase.Step _ _ (.gracePeriod s'.epoch) _
  rw [hepoch]
  exact Phase.Step.listenGracePeriod hsig

private theorem quiet_refines {s' : GracePeriod} (stim : Stimulus) (hepoch : s'.epoch = s.epoch)
    {c' : CommonState} (hrecord : c'.record = c.record) :
    Refines (.gracePeriod s.epoch) c stim (.gracePeriod s', c') :=
  stays_refines stim hepoch (hrecord.trans (List.append_nil _).symm) (chatter_nil _)

private theorem ctrlMsg_refines {cmd : LinkSetControlCommand Submission}
    (h : s.ctrlMsg c now cmd = some r) : Refines (.gracePeriod s.epoch) c cmd.stimulus r := by
  cases cmd with
  | connect =>
      cases h
      exact quiet_refines _ rfl rfl
  | disconnect =>
      cases h
      exact ⟨[.toCtrl .disconnected], rfl, Phase.Step.graceEnds (Or.inl rfl)⟩
  | addConnector conn =>
      cases h
      exact quiet_refines _ rfl rfl
  | addAddress addr =>
      cases h
      exact quiet_refines _ rfl rfl
  | addLink link =>
      obtain ⟨⟨entry, c'⟩, hwrap, h⟩ := Option.bind_eq_some_iff.mp h
      have hrecord := CommonState.wrapLink_record hwrap
      cases entry with
      | none =>
          cases h
          exact quiet_refines _ rfl hrecord
      | some link =>
          cases h
          let links := (LinkManager.withLink link).pingAll now
          refine ⟨wire links.2, ?_, ?_⟩
          · show c'.record ++ wire links.2 = _
            rw [hrecord]
          · rw [signals_pingAll]
            exact Phase.Step.returned
  | message data epoch =>
      simp only [ctrlMsg] at h
      split at h
      · cases h
        exact quiet_refines _ rfl rfl
      · obtain ⟨⟨seq, mgr⟩, _, h⟩ := Option.bind_eq_some_iff.mp h
        cases h
        exact stays_refines _ rfl rfl (chatter_nil _)

private theorem linkMsg_refines {msg : LinkProtocol} (h : s.linkMsg c msg = some r) :
    Refines (.gracePeriod s.epoch) c (.frame msg) r := by
  unfold linkMsg at h
  refine linkDetached_refines h ?_ ?_
  · intro mgr c' delta hdelta hsig
    exact stays_refines _ rfl hdelta hsig
  · intro hmsg
    refine ⟨[.toCtrl .disconnected], rfl, ?_⟩
    exact Phase.Step.graceEnds (Or.inr (Or.inr (congrArg Stimulus.frame hmsg)))

private theorem timer_refines (h : s.timer c now = some r) :
    Refines (.gracePeriod s.epoch) c .timer r := by
  unfold timer at h
  split at h
  · cases h
    exact ⟨[.toCtrl .disconnected, .toCtrl (.attemptingConnection true)],
      (Connecting.determineTimer_record _ _).trans (List.append_assoc _ _ _),
      Phase.Step.graceRestarts⟩
  · cases h
    exact ⟨[.toCtrl .disconnected], rfl, Phase.Step.graceEnds (Or.inr (Or.inl rfl))⟩

end GracePeriod

private theorem States.debug_phase (s : States) (cmd : DebugCommand) :
    (s.debug cmd).phase = s.phase := by
  cases s <;> cases cmd <;> rfl

private theorem States.permits_phase (s : States) (addr : Address) (count : Nat) :
    (s.permits addr count).phase = s.phase := by
  cases s <;> rfl

private theorem Refines.stays {s s' : States} {c c' : CommonState} (stim : Stimulus)
    (hphase : s'.phase = s.phase) (hrecord : c'.record = c.record) :
    Refines s.phase c stim (s', c') := by
  apply Refines.silent hrecord
  rw [hphase]
  cases s with
  | disconnected s => exact Phase.Step.idle _ _ rfl
  | connecting s => exact Phase.Step.idle _ _ rfl
  | epochMismatch s => exact Phase.Step.idle _ _ rfl
  | connected s => exact Phase.Step.talk (chatter_nil _)
  | reconnecting s => exact Phase.Step.listenReconnecting (chatter_nil _)
  | gracePeriod s => exact Phase.Step.listenGracePeriod (chatter_nil _)

namespace States

variable {s : States} {c : CommonState} {now id : Nat} {r : States × CommonState}

private theorem ctrlMsg_refines {cmd : LinkSetControlCommand Submission}
    (h : s.ctrlMsg c now cmd = some r) : Refines s.phase c cmd.stimulus r := by
  cases s with
  | disconnected s => exact s.ctrlMsg_refines h
  | connecting s => exact s.ctrlMsg_refines h
  | epochMismatch s => exact s.ctrlMsg_refines h
  | connected s => exact s.ctrlMsg_refines h
  | reconnecting s => exact s.ctrlMsg_refines h
  | gracePeriod s => exact s.ctrlMsg_refines h

private theorem linkMsg_refines {msg : LinkProtocol} (h : s.linkMsg c now id msg = some r) :
    Refines s.phase c (.frame msg) r := by
  cases s with
  | disconnected s =>
      cases h
      exact Refines.stays _ rfl rfl
  | connecting s =>
      cases h
      exact Refines.stays _ rfl rfl
  | epochMismatch s => exact s.linkMsg_refines h
  | connected s => exact s.linkMsg_refines h
  | reconnecting s => exact s.linkMsg_refines h
  | gracePeriod s => exact s.linkMsg_refines h

private theorem timer_refines (h : s.timer c now = some r) : Refines s.phase c .timer r := by
  cases s with
  | disconnected s =>
      cases h
      exact Refines.stays _ rfl rfl
  | connecting s => exact s.timer_refines h
  | epochMismatch s => exact s.timer_refines h
  | connected s => exact s.timer_refines h
  | reconnecting s => exact s.timer_refines h
  | gracePeriod s => exact s.timer_refines h

end States

namespace Core

private theorem tagged_record (c : CommonState) (cmd : LinkSetControlCommand Payload) :
    (tagged c cmd).2.record = c.record := by
  cases cmd <;> rfl

private theorem tagged_stimulus (c : CommonState) (cmd : LinkSetControlCommand Payload) :
    (tagged c cmd).1.stimulus = cmd.stimulus := by
  cases cmd <;> rfl

private theorem configure_record (c : CommonState) (conf : LinkSetControlConfig) :
    (configure c conf).record = c.record := by
  cases conf <;> rfl

/-- Every round of the loop is a move of the session protocol. -/
theorem step_phase {core core' : Core} {now : Nat} {ev : Event}
    (h : core.step (now, ev) = some core') :
    ∃ delta, core'.common.record = core.common.record ++ delta ∧
      Phase.Step core.state.phase ev.stimulus core'.state.phase (signals delta) := by
  obtain ⟨r, hr, rfl⟩ := Option.map_eq_some_iff.mp h
  suffices hrefines : Refines core.state.phase core.common ev.stimulus r from hrefines
  cases ev with
  | command cmd =>
      have hrefines := States.ctrlMsg_refines hr
      unfold Refines at hrefines ⊢
      rw [tagged_record, tagged_stimulus] at hrefines
      exact hrefines
  | config conf =>
      cases hr
      exact Refines.stays _ rfl (configure_record _ _)
  | frame id msg =>
      simp only [handle] at hr
      split at hr
      · exact States.linkMsg_refines hr
      · cases hr
  | timer =>
      obtain ⟨timer, _, hr⟩ := Option.bind_eq_some_iff.mp hr
      have hrefines := States.timer_refines hr
      exact hrefines
  | debug cmd =>
      cases hr
      exact Refines.stays _ (States.debug_phase _ _) rfl
  | permits addr count =>
      cases hr
      exact Refines.stays _ (States.permits_phase _ _ _) rfl

end Core

end LinkSet
