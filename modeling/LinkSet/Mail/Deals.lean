import Mathlib.Logic.Relation
import LinkSet.Links.Traffic
import LinkSet.Mail.Provenance

/-!
# What a round does to the messages of a session

Seen from the session and the record of the run, a round of a core is a chain of a few kinds of
deals: a session begins or ends, a message is inserted, pieces of an inserted one are sent, a
slice or an acknowledgement of the session is taken, or an entry is noted that concerns no
message. `Core.step_dealt` says so once, for what two endpoints do together.
-/

namespace LinkSet

open Framework Relation

/-- The session of a core with its manager, and the record of its run. -/
structure Books where
  session : Option (Epoch × MessageManager)
  record : List Effect

/-- An entry that concerns no message: no message for the user, no slice, no acknowledgement, no
manager and no insertion. -/
def Effect.neutral : Effect → Bool
  | .toCtrl (.message _ _) => false
  | .toCtrl _ => true
  | .toLink _ (.msgSlice _ _ _ _ _) => false
  | .toLink _ (.ack _ _ _) => false
  | .toLink _ _ => true
  | .newManager _ => false
  | .inserted _ _ _ => false

/-- One deal in the round on `ev`, where `subs` are the messages submitted and `first` is the
session the round finds. -/
inductive Deal (subs : Submitted) (ev : Event) (first : Option (Epoch × MessageManager)) :
    Books → Books → Prop where
  | notes {session record eff} (h : eff.neutral = true) :
      Deal subs ev first ⟨session, record⟩ ⟨session, record ++ [eff]⟩
  | begins {record} (e : Epoch) :
      Deal subs ev first ⟨none, record⟩ ⟨some (e, MessageManager.new e), record ++ [.newManager e]⟩
  | inserts {record e m m' ep seq} {msg : Submission}
      (hsub : subs[msg.tag]? = some (msg.payload, ep))
      (h : m.insertMsg msg.payload.bytes = some (seq, m')) :
      Deal subs ev first ⟨some (e, m), record⟩ ⟨some (e, m'), record ++ [.inserted msg.tag m'.epoch seq]⟩
  /-- The slices go to one link, which may fail in the middle of them. -/
  | emits {record e m k sm size protos id} {sent : List Sent}
      (hget : m.outgoingSlices.get k = some sm) (hpos : 0 < size) (hsize : size < 2 ^ 32)
      (h : sm.getSlices size = some protos) (hsent : sent.map Prod.snd <+: protos)
      (hlink : ∀ f ∈ sent, f.1 = id) :
      Deal subs ev first ⟨some (e, m), record⟩ ⟨some (e, m), record ++ wire sent⟩
  /-- Only a slice that `recv` reports is acknowledged, and not in the states without links. -/
  | receives {record e m m1 m2 id seq seqLen firstIndex data b out} {acks : List Sent}
      (hev : ev = .frame id (.msgSlice e.toInt seq seqLen firstIndex data))
      (hfirst : first = some (e, m)) (hrecv : m.recv seq firstIndex seqLen data = some (b, m1))
      (hacks : ∀ f ∈ acks, b = true ∧ f.2 = .ack e.toInt m1.lastAck.1 m1.lastAck.2)
      (htake : m1.takeRecvd = some (out, m2)) :
      Deal subs ev first ⟨some (e, m), record⟩
        ⟨some (e, m2), record ++ wire acks ++ out.map fun data => .toCtrl (.message data e)⟩
  | acked {record e m id seq lastIndex} (hev : ev = .frame id (.ack e.toInt seq lastIndex)) :
      Deal subs ev first ⟨some (e, m), record⟩ ⟨some (e, m.recvAck (seq, lastIndex)), record⟩
  | ends {record x} : Deal subs ev first ⟨some x, record⟩ ⟨none, record⟩

/-- The deals of a round so far lead from `B` to the given session and common state. -/
def Dealt (subs : Submitted) (ev : Event) (B : Books) (session : Option (Epoch × MessageManager))
    (c : CommonState) : Prop :=
  c.submitted = subs ∧ ReflTransGen (Deal subs ev B.session) B ⟨session, c.record⟩

private theorem CommonState.wrapLink_submitted {c c' : CommonState} {link : Link}
    {entry : Option LinkEntry} (h : c.wrapLink link = some (entry, c')) :
    c'.submitted = c.submitted := by
  obtain ⟨next, _, h⟩ := Option.bind_eq_some_iff.mp h
  simp only at h
  split at h
  · cases h
    rfl
  · split at h <;> cases h <;> rfl

private theorem Reconnecting.fromConnected_submitted (old : Connected) (c : CommonState)
    (now : Nat) : (Reconnecting.fromConnected old c now).2.submitted = c.submitted := by
  unfold Reconnecting.fromConnected
  simp only
  split <;> rfl

private theorem GracePeriod.fromConnected_submitted (old : Connected) (c : CommonState)
    (now : Nat) : (GracePeriod.fromConnected old c now).2.submitted = c.submitted := by
  unfold GracePeriod.fromConnected
  simp only
  split <;> rfl

namespace Dealt

variable {subs : Submitted} {ev : Event} {B : Books} {session : Option (Epoch × MessageManager)}
  {c c' : CommonState} {e : Epoch} {m : MessageManager}

private theorem congr (h : Dealt subs ev B session c) (hsubmitted : c'.submitted = c.submitted)
    (hrecord : c'.record = c.record) : Dealt subs ev B session c' := by
  unfold Dealt
  rw [hsubmitted, hrecord]
  exact h

private theorem deal (h : Dealt subs ev B session c) {session' : Option (Epoch × MessageManager)}
    (hsubmitted : c'.submitted = c.submitted)
    (hdeal : Deal subs ev B.session ⟨session, c.record⟩ ⟨session', c'.record⟩) :
    Dealt subs ev B session' c' := ⟨hsubmitted.trans h.1, h.2.tail hdeal⟩

private theorem log (h : Dealt subs ev B session c) {delta : List Effect}
    (hdelta : ∀ eff ∈ delta, eff.neutral = true) : Dealt subs ev B session (c.log delta) := by
  induction delta generalizing c with
  | nil => exact h.congr rfl (List.append_nil c.record)
  | cons eff delta ih =>
      have hfirst : Dealt subs ev B session (c.log [eff]) :=
        h.deal rfl (.notes (hdelta eff (by simp)))
      have hrest := ih hfirst (fun x hx => hdelta x (by simp [hx]))
      exact hrest.congr rfl (by simp)

private theorem send (h : Dealt subs ev B session c) (msg : LinkSetMessage)
    (hmsg : (Effect.toCtrl msg).neutral = true) : Dealt subs ev B session (c.send msg) :=
  h.log (by simpa using hmsg)

private theorem determineTimer (h : Dealt subs ev B session c) (now : Nat) :
    Dealt subs ev B session (Connecting.determineTimer c now) := by
  unfold Connecting.determineTimer
  split <;> exact h

private theorem wrapLink (h : Dealt subs ev B session c) {link : Link} {entry : Option LinkEntry}
    (hwrap : c.wrapLink link = some (entry, c')) : Dealt subs ev B session c' :=
  h.congr (CommonState.wrapLink_submitted hwrap) (CommonState.wrapLink_record hwrap)

private theorem sent (h : Dealt subs ev B session c) {frames : List Sent}
    (hframes : ∀ f ∈ frames, (Effect.toLink f.1 f.2).neutral = true) :
    Dealt subs ev B session (c.sent frames) := by
  apply h.log
  intro eff heff
  obtain ⟨f, hf, rfl⟩ := List.mem_map.mp heff
  exact hframes f hf

private theorem pings (h : Dealt subs ev B session c) (links : LinkManager) (now : Nat) :
    Dealt subs ev B session (c.sent (links.pingAll now).2) := by
  apply h.sent
  intro f hf
  obtain ⟨link, _, rfl⟩ := List.mem_map.mp hf
  rfl

private theorem pong (h : Dealt subs ev B session c) (links : LinkManager) (id : Nat) :
    Dealt subs ev B session (c.sent (links.pong id).2) := by
  apply h.sent
  simp only [LinkManager.pong]
  split <;> simp [Effect.neutral]

private theorem reset (h : Dealt subs ev B session c) (links : LinkManager) (epoch : Option Epoch)
    (request : Bool) : Dealt subs ev B session (c.sent (links.reset epoch request).frames) := by
  apply h.sent
  intro f hf
  rcases links.sendProto_frames (.reset epoch request) with hnil | ⟨id, hone⟩
  · rw [LinkManager.reset, hnil] at hf
    cases hf
  · rw [LinkManager.reset, hone] at hf
    rw [List.mem_singleton.mp hf]
    rfl

private theorem greet (h : Dealt subs ev B session c) (links : LinkManager) (now : Nat)
    (epoch : Option Epoch) :
    Dealt subs ev B session ((c.sent (links.pingAll now).2).sent
      ((links.pingAll now).1.reset epoch true).frames) := (h.pings links now).reset _ _ _

private theorem ends (h : Dealt subs ev B session c) : Dealt subs ev B none c := by
  cases session with
  | none => exact h
  | some x => exact h.deal rfl .ends

private theorem sendSlices (h : Dealt subs ev B (some (e, m)) c) {k : Nat} {sm : SliceManager}
    (hget : m.outgoingSlices.get k = some sm) {links : LinkManager} {out : Outcome}
    (hout : links.sendSlices sm = some out) :
    Dealt subs ev B (some (e, m)) (c.sent out.frames) := by
  rcases links.sendSlices_emits hout with hnil |
    ⟨size, protos, id, hpos, hsize, hslices, hpre, hlink⟩
  · rw [hnil]
    exact h.congr rfl (List.append_nil c.record)
  · exact h.deal rfl (.emits hget hpos hsize hslices hpre hlink)

private theorem sendIfSome (h : Dealt subs ev B (some (e, m)) c) {links links' : LinkManager}
    {o : Option SliceManager} (ho : ∀ sm, o = some sm → ∃ k, m.outgoingSlices.get k = some sm)
    (hr : Connected.sendIfSome links c o = some (links', c')) :
    Dealt subs ev B (some (e, m)) c' := by
  cases o with
  | none =>
      cases hr
      exact h
  | some sm =>
      obtain ⟨out, hout, hr⟩ := Option.map_eq_some_iff.mp hr
      cases hr
      obtain ⟨k, hk⟩ := ho sm rfl
      exact h.sendSlices hk hout

private theorem insertMsg (h : Dealt subs ev B (some (e, m)) c) {msg : Submission}
    {ep : Option Epoch} (hsub : subs[msg.tag]? = some (msg.payload, ep)) {seq : Nat}
    {m' : MessageManager} (hi : m.insertMsg msg.payload.bytes = some (seq, m')) :
    Dealt subs ev B (some (e, m')) (c.log [.inserted msg.tag m'.epoch seq]) :=
  h.deal rfl (.inserts hsub hi)

private theorem receives {id seq seqLen firstIndex : Nat} {data : List UInt8} {b : Bool}
    {m1 m2 : MessageManager} {out : List (List UInt8)} {a : List Sent}
    (hev : ev = .frame id (.msgSlice e.toInt seq seqLen firstIndex data))
    (h : Dealt subs ev B (some (e, m)) c) (hB : B.session = some (e, m))
    (hrecv : m.recv seq firstIndex seqLen data = some (b, m1))
    (hacks : ∀ f ∈ a, b = true ∧ f.2 = .ack e.toInt m1.lastAck.1 m1.lastAck.2)
    (htake : m1.takeRecvd = some (out, m2)) :
    Dealt subs ev B (some (e, m2)) ((c.sent a).deliver e out) :=
  h.deal rfl (.receives hev hB hrecv hacks htake)

end Dealt

private theorem LinkManager.ack_frames (links : LinkManager) {e : Epoch} {lastAck : Nat × Nat}
    {f : Sent} (hf : f ∈ (links.ack e lastAck).frames) :
    f.2 = .ack e.toInt lastAck.1 lastAck.2 := by
  rcases links.sendProto_frames (.ack e.toInt lastAck.1 lastAck.2) with hnil | ⟨id, hone⟩
  · rw [LinkManager.ack, hnil] at hf
    cases hf
  · rw [LinkManager.ack, hone] at hf
    rw [List.mem_singleton.mp hf]

section handlers

variable {subs : Submitted} {ev : Event} {B : Books} {c c' : CommonState} {now id : Nat}
  {r : States × CommonState} {cmd : LinkSetControlCommand Submission} {msg : LinkProtocol}

/-- The messages that wait were submitted. -/
def Queued (subs : Submitted) (queue : List Submission) : Prop :=
  ∀ msg ∈ queue, subs[msg.tag]? = some (msg.payload, none)

/-- The message of a command, if it has one, was submitted. -/
def LinkSetControlCommand.Listed (subs : Submitted) (cmd : LinkSetControlCommand Submission) :
    Prop := ∀ msg ep, cmd = .message msg ep → subs[msg.tag]? = some (msg.payload, ep)

private theorem Disconnected.ctrlMsg_dealt {s : Disconnected} (h : Dealt subs ev B none c)
    (hr : s.ctrlMsg c now cmd = some r) : Dealt subs ev B r.1.mail.session r.2 := by
  cases cmd with
  | connect =>
      cases hr
      exact (h.send _ rfl).determineTimer now
  | addLink link =>
      obtain ⟨⟨entry, c'⟩, hwrap, hr⟩ := Option.bind_eq_some_iff.mp hr
      have h' := h.wrapLink hwrap
      cases entry with
      | none =>
          cases hr
          exact h'
      | some link =>
          cases hr
          exact h'.greet (LinkManager.new.addLink link) now s.epoch
  | message data epoch =>
      simp only [ctrlMsg] at hr
      split at hr
      · cases hr
        exact (h.send _ rfl).determineTimer now
      · cases hr
        exact h
  | _ =>
      cases hr
      exact h

private theorem Connecting.ctrlMsg_dealt {s : Connecting} (h : Dealt subs ev B none c)
    (hr : s.ctrlMsg c now cmd = some r) : Dealt subs ev B r.1.mail.session r.2 := by
  cases cmd with
  | disconnect =>
      cases hr
      exact h.send _ rfl
  | addConnector conn =>
      obtain ⟨connector, _, hr⟩ := Option.bind_eq_some_iff.mp hr
      cases hr
      exact h
  | addLink link =>
      obtain ⟨⟨entry, c'⟩, hwrap, hr⟩ := Option.bind_eq_some_iff.mp hr
      have h' := h.wrapLink hwrap
      cases entry with
      | none =>
          cases hr
          exact h'
      | some link =>
          cases hr
          have hgreet := h'.greet (LinkManager.new.addLink link) now s.epoch
          exact hgreet.send (.attemptingConnection false) rfl
  | message data epoch =>
      simp only [ctrlMsg] at hr
      split at hr <;> cases hr <;> exact h
  | _ =>
      cases hr
      exact h

private theorem EpochMismatch.ctrlMsg_dealt {s : EpochMismatch} (h : Dealt subs ev B none c)
    (hr : s.ctrlMsg c cmd = some r) : Dealt subs ev B r.1.mail.session r.2 := by
  cases cmd with
  | addLink link =>
      obtain ⟨⟨entry, c'⟩, hwrap, hr⟩ := Option.bind_eq_some_iff.mp hr
      have h' := h.wrapLink hwrap
      cases entry <;> cases hr <;> exact h'
  | message data epoch =>
      simp only [ctrlMsg] at hr
      split at hr <;> cases hr <;> exact h
  | _ =>
      cases hr
      exact h

private theorem Connected.sendAllQueued_dealt {e : Epoch} {m m' : MessageManager}
    {links links' : LinkManager} {queue : List Submission} (h : Dealt subs ev B (some (e, m)) c)
    (hqueue : Queued subs queue) (hr : sendAllQueued m links c queue = some (m', links', c')) :
    Dealt subs ev B (some (e, m')) c' := by
  induction queue generalizing m links c with
  | nil =>
      cases hr
      exact h
  | cons msg queue ih =>
      obtain ⟨⟨m1, links1, c1⟩, hone, hr⟩ := Option.bind_eq_some_iff.mp hr
      obtain ⟨⟨seq, m2⟩, hi, hone⟩ := Option.bind_eq_some_iff.mp hone
      obtain ⟨sm, hget, hone⟩ := Option.bind_eq_some_iff.mp hone
      obtain ⟨out, hout, hone⟩ := Option.bind_eq_some_iff.mp hone
      cases hone
      have hins := h.insertMsg (hqueue msg (by simp)) hi
      exact ih (hins.sendSlices hget hout) (fun x hx => hqueue x (by simp [hx])) hr

private theorem Connected.fromEpochMismatch_dealt {old : EpochMismatch} {e : Epoch} {s : Connected}
    (hr : Connected.fromEpochMismatch old c now e = some (s, c')) (h : Dealt subs ev B none c)
    (hqueue : Queued subs old.queuedMsgs) :
    Dealt subs ev B (States.connected s).mail.session c' := by
  obtain ⟨⟨m, links, c1⟩, hall, hr⟩ := Option.bind_eq_some_iff.mp hr
  cases hr
  have hsend : Dealt subs ev B none (c.send (.connected e)) := h.send _ rfl
  have hnew : Dealt subs ev B (some (e, MessageManager.new e))
      ((c.send (.connected e)).log [.newManager e]) := hsend.deal rfl (.begins e)
  have hdone := Connected.sendAllQueued_dealt hnew hqueue hall
  exact hdone

private theorem EpochMismatch.linkMsg_dealt {s : EpochMismatch} (h : Dealt subs ev B none c)
    (hqueue : Queued subs s.queuedMsgs) (hr : s.linkMsg c now id msg = some r) :
    Dealt subs ev B r.1.mail.session r.2 := by
  cases msg with
  | reset epoch request =>
      simp only [linkMsg, linkReset] at hr
      split at hr
      · cases hr
        exact h.reset _ _ _
      · obtain ⟨e, _, hr⟩ := Option.bind_eq_some_iff.mp hr
        obtain ⟨⟨s', c'⟩, hmade, hlast⟩ := Option.bind_eq_some_iff.mp hr
        cases hlast
        refine Connected.fromEpochMismatch_dealt hmade ?_ hqueue
        cases request with
        | true => exact h.reset _ _ _
        | false => exact h
      · obtain ⟨⟨s', c'⟩, hmade, hlast⟩ := Option.bind_eq_some_iff.mp hr
        cases hlast
        exact Connected.fromEpochMismatch_dealt hmade (h.reset _ _ _) hqueue
  | ping =>
      cases hr
      exact h.pong _ _
  | _ =>
      cases hr
      exact h

private theorem EpochMismatch.timer_dealt {s : EpochMismatch} (h : Dealt subs ev B none c)
    (hr : s.timer c now = some r) : Dealt subs ev B r.1.mail.session r.2 := by
  have hping := h.pings s.links.upkeep now
  simp only [timer] at hr
  split at hr
  · split at hr
    · cases hr
      exact (hping.send _ rfl).determineTimer now
    · cases hr
      exact hping
  · cases hr
    exact hping.reset _ _ _

private theorem Connected.determineState_dealt {s : Connected}
    (hr : determineState s c now = some r) (h : Dealt subs ev B (some (s.epoch, s.msgMgr)) c) :
    Dealt subs ev B r.1.mail.session r.2 := by
  unfold determineState at hr
  split at hr
  · split at hr
    · cases hr
      exact (h.send _ rfl).congr (Reconnecting.fromConnected_submitted s c now)
        (Reconnecting.fromConnected_record s c now)
    · split at hr
      · cases hr
        exact h.congr (GracePeriod.fromConnected_submitted s c now)
          (GracePeriod.fromConnected_record s c now)
      · cases hr
        exact h.ends.send _ rfl
  · cases hr
    exact h

private theorem Connected.ctrlMsg_dealt {s : Connected}
    (h : Dealt subs ev B (some (s.epoch, s.msgMgr)) c) (hcmd : cmd.Listed subs)
    (hr : s.ctrlMsg c now cmd = some r) : Dealt subs ev B r.1.mail.session r.2 := by
  cases cmd with
  | disconnect =>
      cases hr
      exact h.ends.send _ rfl
  | addLink link =>
      obtain ⟨⟨entry, c'⟩, hwrap, hr⟩ := Option.bind_eq_some_iff.mp hr
      have h' := h.wrapLink hwrap
      cases entry <;> cases hr <;> exact h'
  | message data epoch =>
      simp only [ctrlMsg] at hr
      split at hr
      · cases hr
        exact h
      · obtain ⟨⟨seq, m⟩, hi, hr⟩ := Option.bind_eq_some_iff.mp hr
        obtain ⟨⟨links, c'⟩, hsend, hr⟩ := Option.bind_eq_some_iff.mp hr
        have hins := h.insertMsg (hcmd data epoch rfl) hi
        have hsent := hins.sendIfSome (fun sm hsm => ⟨seq, hsm⟩) hsend
        exact Connected.determineState_dealt hr hsent
  | _ =>
      cases hr
      exact h

private theorem Connected.linkMsg_dealt {s : Connected} (hev : ev = .frame id msg)
    (hB : B.session = some (s.epoch, s.msgMgr)) (h : Dealt subs ev B (some (s.epoch, s.msgMgr)) c)
    (hr : s.linkMsg c now id msg = some r) : Dealt subs ev B r.1.mail.session r.2 := by
  cases msg with
  | reset epoch request =>
      simp only [linkMsg, linkReset] at hr
      split at hr
      · split at hr
        · exact Connected.determineState_dealt hr (h.reset _ _ _)
        · cases hr
          exact h.ends.reset _ _ _
      · cases hr
        exact h
  | ack epoch seq lastIndex =>
      simp only [linkMsg] at hr
      split at hr
      · next hepoch =>
          subst hepoch
          cases hr
          exact h.deal rfl (.acked hev)
      · cases hr
        exact h
  | msgSlice epoch seq seqLen firstIndex data =>
      simp only [linkMsg, linkSlice] at hr
      split at hr
      · next hepoch =>
          subst hepoch
          obtain ⟨⟨b, m1⟩, hrecv, hr⟩ := Option.bind_eq_some_iff.mp hr
          obtain ⟨⟨out, m2⟩, htake, hr⟩ := Option.bind_eq_some_iff.mp hr
          refine Connected.determineState_dealt hr ?_
          cases b with
          | true =>
              apply Dealt.receives hev h hB hrecv _ htake
              intro f hf
              exact ⟨rfl, s.links.ack_frames hf⟩
          | false =>
              have hall := Dealt.receives (c := c) hev h hB hrecv (a := []) (by simp) htake
              exact hall.congr rfl (by simp [wire])
      · cases hr
        exact h
  | ping =>
      cases hr
      exact h.pong _ _
  | pong =>
      cases hr
      exact h

private theorem Connected.timer_dealt {s : Connected}
    (h : Dealt subs ev B (some (s.epoch, s.msgMgr)) c) (hr : s.timer c now = some r) :
    Dealt subs ev B r.1.mail.session r.2 := by
  have hping : Dealt subs ev B (some (s.epoch, s.msgMgr)) (c.sent (s.pingIfDue now).2) := by
    unfold pingIfDue
    split
    · exact h.pings s.links now
    · exact h.sent (by simp)
  simp only [timer] at hr
  obtain ⟨⟨links, c'⟩, hsend, hr⟩ := Option.bind_eq_some_iff.mp hr
  refine Connected.determineState_dealt hr (hping.sendIfSome ?_ hsend)
  intro sm hsm
  split at hsm
  · cases hsm
  · exact SortedMap.mem_values.mp (List.mem_of_head? hsm)

private theorem linkDetached_dealt (hev : ev = .frame id msg) {e : Epoch} {m : MessageManager}
    {stay : MessageManager → States} {leave : States × CommonState}
    (hB : B.session = some (e, m)) (h : Dealt subs ev B (some (e, m)) c)
    (hstay : ∀ m, (stay m).mail.session = some (e, m))
    (hleave : Dealt subs ev B leave.1.mail.session leave.2)
    (hr : linkDetached m e c stay leave msg = some r) : Dealt subs ev B r.1.mail.session r.2 := by
  have hkeep : Dealt subs ev B (stay m).mail.session c := (hstay m).symm ▸ h
  cases msg with
  | reset epoch request =>
      simp only [linkDetached] at hr
      split at hr
      · cases hr
        exact hleave
      · cases hr
        exact hkeep
  | ack epoch seq lastIndex =>
      simp only [linkDetached] at hr
      split at hr
      · next hepoch =>
          subst hepoch
          cases hr
          rw [hstay]
          exact h.deal rfl (.acked hev)
      · cases hr
        exact hkeep
  | msgSlice epoch seq seqLen firstIndex data =>
      simp only [linkDetached] at hr
      split at hr
      · next hepoch =>
          subst hepoch
          obtain ⟨⟨m2, c2⟩, hdet, hr⟩ := Option.bind_eq_some_iff.mp hr
          obtain ⟨⟨b, m1⟩, hrecv, hdet⟩ := Option.bind_eq_some_iff.mp hdet
          obtain ⟨⟨out, m3⟩, htake, hdet⟩ := Option.bind_eq_some_iff.mp hdet
          cases hdet
          cases hr
          rw [hstay]
          have hall := Dealt.receives (c := c) hev h hB hrecv (a := []) (by simp) htake
          exact hall.congr rfl (by simp [wire])
      · cases hr
        exact hkeep
  | ping =>
      cases hr
      exact hkeep
  | pong =>
      cases hr
      exact hkeep

private theorem Reconnecting.ctrlMsg_dealt {s : Reconnecting}
    (h : Dealt subs ev B (some (s.epoch, s.msgMgr)) c) (hcmd : cmd.Listed subs)
    (hr : s.ctrlMsg c now cmd = some r) : Dealt subs ev B r.1.mail.session r.2 := by
  cases cmd with
  | disconnect =>
      cases hr
      have hactive := h.ends.send (.attemptingConnection false) rfl
      exact hactive.send _ rfl
  | addConnector conn =>
      obtain ⟨connector, _, hr⟩ := Option.bind_eq_some_iff.mp hr
      cases hr
      exact h
  | addLink link =>
      obtain ⟨⟨entry, c'⟩, hwrap, hr⟩ := Option.bind_eq_some_iff.mp hr
      have h' := h.wrapLink hwrap
      cases entry with
      | none =>
          cases hr
          exact h'
      | some link =>
          cases hr
          have hping := h'.pings (LinkManager.withLink link) now
          exact hping.send (.attemptingConnection false) rfl
  | message data epoch =>
      simp only [ctrlMsg] at hr
      split at hr
      · cases hr
        exact h
      · obtain ⟨⟨seq, m⟩, hi, hr⟩ := Option.bind_eq_some_iff.mp hr
        cases hr
        exact h.insertMsg (hcmd data epoch rfl) hi
  | _ =>
      cases hr
      exact h

private theorem GracePeriod.ctrlMsg_dealt {s : GracePeriod}
    (h : Dealt subs ev B (some (s.epoch, s.msgMgr)) c) (hcmd : cmd.Listed subs)
    (hr : s.ctrlMsg c now cmd = some r) : Dealt subs ev B r.1.mail.session r.2 := by
  cases cmd with
  | disconnect =>
      cases hr
      exact h.ends.send _ rfl
  | addLink link =>
      obtain ⟨⟨entry, c'⟩, hwrap, hr⟩ := Option.bind_eq_some_iff.mp hr
      have h' := h.wrapLink hwrap
      cases entry with
      | none =>
          cases hr
          exact h'
      | some link =>
          cases hr
          exact h'.pings (LinkManager.withLink link) now
  | message data epoch =>
      simp only [ctrlMsg] at hr
      split at hr
      · cases hr
        exact h
      · obtain ⟨⟨seq, m⟩, hi, hr⟩ := Option.bind_eq_some_iff.mp hr
        cases hr
        exact h.insertMsg (hcmd data epoch rfl) hi
  | _ =>
      cases hr
      exact h

private theorem Connecting.fromReconnecting_dealt (s : Reconnecting) (h : Dealt subs ev B none c) :
    Dealt subs ev B none (Connecting.fromReconnecting s c now).2 := (h.determineTimer now).send _ rfl

private theorem Disconnected.fromGracePeriod_dealt (s : GracePeriod) (h : Dealt subs ev B none c) :
    Dealt subs ev B none (Disconnected.fromGracePeriod s c).2 := h.send _ rfl

private theorem Reconnecting.timer_dealt {s : Reconnecting} (h : Dealt subs ev B none c)
    (hr : s.timer c now = some r) : Dealt subs ev B r.1.mail.session r.2 := by
  unfold timer at hr
  split at hr
  · cases hr
    exact Connecting.fromReconnecting_dealt s h
  · cases hr
    have hactive := h.send (.attemptingConnection false) rfl
    exact hactive.send _ rfl

private theorem GracePeriod.timer_dealt {s : GracePeriod} (h : Dealt subs ev B none c)
    (hr : s.timer c now = some r) : Dealt subs ev B r.1.mail.session r.2 := by
  unfold timer at hr
  split at hr
  · cases hr
    have hover := h.send .disconnected rfl
    exact (hover.send _ rfl).determineTimer now
  · cases hr
    exact Disconnected.fromGracePeriod_dealt s h

end handlers

namespace States

variable {subs : Submitted} {ev : Event} {B : Books} {st : States} {c : CommonState}
  {now id : Nat} {r : States × CommonState}

private theorem ctrlMsg_dealt {cmd : LinkSetControlCommand Submission}
    (h : Dealt subs ev B st.mail.session c) (hcmd : cmd.Listed subs)
    (hr : st.ctrlMsg c now cmd = some r) : Dealt subs ev B r.1.mail.session r.2 := by
  cases st with
  | disconnected s => exact Disconnected.ctrlMsg_dealt h hr
  | connecting s => exact Connecting.ctrlMsg_dealt h hr
  | epochMismatch s => exact EpochMismatch.ctrlMsg_dealt h hr
  | connected s => exact Connected.ctrlMsg_dealt h hcmd hr
  | reconnecting s => exact Reconnecting.ctrlMsg_dealt h hcmd hr
  | gracePeriod s => exact GracePeriod.ctrlMsg_dealt h hcmd hr

private theorem linkMsg_dealt {msg : LinkProtocol} (hev : ev = .frame id msg)
    (hB : B.session = st.mail.session) (h : Dealt subs ev B st.mail.session c)
    (hqueue : Queued subs st.mail.queue)
    (hr : st.linkMsg c now id msg = some r) : Dealt subs ev B r.1.mail.session r.2 := by
  cases st with
  | disconnected s =>
      cases hr
      exact h
  | connecting s =>
      cases hr
      exact h
  | epochMismatch s => exact EpochMismatch.linkMsg_dealt h hqueue hr
  | connected s => exact Connected.linkMsg_dealt hev hB h hr
  | reconnecting s =>
      simp only [linkMsg, Reconnecting.linkMsg] at hr
      refine linkDetached_dealt hev hB h ?_ ?_ hr
      · exact fun _ => rfl
      · exact Connecting.fromReconnecting_dealt s h.ends
  | gracePeriod s =>
      simp only [linkMsg, GracePeriod.linkMsg] at hr
      refine linkDetached_dealt hev hB h ?_ ?_ hr
      · exact fun _ => rfl
      · exact Disconnected.fromGracePeriod_dealt s h.ends

private theorem timer_dealt (h : Dealt subs ev B st.mail.session c) (hr : st.timer c now = some r) :
    Dealt subs ev B r.1.mail.session r.2 := by
  cases st with
  | disconnected s =>
      cases hr
      exact h
  | connecting s =>
      cases hr
      exact h.send _ rfl
  | epochMismatch s => exact EpochMismatch.timer_dealt h hr
  | connected s => exact Connected.timer_dealt h hr
  | reconnecting s => exact Reconnecting.timer_dealt h.ends hr
  | gracePeriod s => exact GracePeriod.timer_dealt h.ends hr

end States

namespace Core

def books (core : Core) : Books := ⟨core.state.mail.session, core.common.record⟩

/-- The messages submitted once the event is taken up. -/
def submittedBy (core : Core) : Event → Submitted
  | .command cmd => (tagged core.common cmd).2.submitted
  | _ => core.common.submitted

/-- Every round is a chain of deals, and a submitted message is its only submission. -/
theorem step_dealt {core core' : Core} {now : Nat} {ev : Event}
    (hqueue : Queued core.common.submitted core.state.mail.queue)
    (hstep : core.step (now, ev) = some core') :
    core'.common.submitted = core.submittedBy ev ∧
      ReflTransGen (Deal (core.submittedBy ev) ev core.books.session) core.books core'.books := by
  obtain ⟨r, hr, rfl⟩ := Option.map_eq_some_iff.mp hstep
  have h : ∀ c : CommonState, c.submitted = core.submittedBy ev → c.record = core.common.record →
      Dealt (core.submittedBy ev) ev core.books core.state.mail.session c :=
    fun c hsubmitted hrecord => ⟨hsubmitted, hrecord ▸ ReflTransGen.refl⟩
  cases ev with
  | command cmd =>
      cases cmd with
      | message data epoch =>
          have hlisted : (tagged core.common (.message data epoch)).1.Listed
              (core.submittedBy (.command (.message data epoch))) := by
            intro msg ep hmsg
            cases hmsg
            simp [submittedBy, tagged]
          exact States.ctrlMsg_dealt (h _ rfl rfl) hlisted hr
      | _ => exact States.ctrlMsg_dealt (h _ rfl rfl) (fun _ _ hmsg => by cases hmsg) hr
  | config conf =>
      cases hr
      cases conf <;> exact h _ rfl rfl
  | frame id msg =>
      simp only [handle] at hr
      split at hr
      · exact States.linkMsg_dealt rfl rfl (h _ rfl rfl) hqueue hr
      · cases hr
  | timer =>
      obtain ⟨timer, _, hr⟩ := Option.bind_eq_some_iff.mp hr
      exact States.timer_dealt (h { core.common with timer } rfl rfl) hr
  | debug cmd =>
      cases hr
      simp only [books, States.debug_mail]
      exact h _ rfl rfl
  | permits addr count =>
      cases hr
      simp only [books, States.permits_mail]
      exact h _ rfl rfl

end Core

end LinkSet
