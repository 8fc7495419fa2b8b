import LinkSet.Mail.Ledger
import LinkSet.Messages.Release
import LinkSet.Session.Epochs

/-!
# Where submitted messages go

Each handler moves messages in a few ways only: it queues one, drops a queue or a session, makes
a manager, inserts a message or sends slices of an inserted one. The ledger survives each of
these moves, so it survives every run. What the operations of a manager keep, and what holds of
a new one, is carried along: in every run on decoded frames the receiving half is in order.
-/

namespace LinkSet

open Framework

/-- The mail of a state is in order with respect to the common state, and its manager has the
property. -/
def Mail.Sound (P : MessageManager → Prop) (mail : Mail) (c : CommonState) : Prop :=
  Mailed P c.submitted mail c.record

section quiet

variable {P : MessageManager → Prop} {mail : Mail} {c : CommonState}

private theorem Mail.sound_log_silent {delta : List Effect} (h : ∀ eff ∈ delta, eff.silent = true) :
    mail.Sound P (c.log delta) ↔ mail.Sound P c := Mailed.append_silent_iff h

@[simp] theorem Mail.sound_send (msg : LinkSetMessage) :
    mail.Sound P (c.send msg) ↔ mail.Sound P c :=
  Mail.sound_log_silent (by simp [Effect.silent])

@[simp] theorem Mail.sound_deliver (epoch : Epoch) (msgs : List (List UInt8)) :
    mail.Sound P (c.deliver epoch msgs) ↔ mail.Sound P c :=
  Mail.sound_log_silent (by simp [Effect.silent])

@[simp] theorem Mail.sound_modifyTimer (f : Deadline → Deadline) :
    mail.Sound P (c.modifyTimer f) ↔ mail.Sound P c := Iff.rfl

@[simp] theorem Mail.sound_setActive (active : Bool) :
    mail.Sound P (c.setActive active) ↔ mail.Sound P c := Iff.rfl

@[simp] theorem Mail.sound_determineTimer (now : Nat) :
    mail.Sound P (Connecting.determineTimer c now) ↔ mail.Sound P c := by
  unfold Connecting.determineTimer
  split <;> exact Iff.rfl

private theorem Mail.sound_sent_silent {frames : List Sent}
    (h : ∀ f ∈ frames, (Effect.toLink f.1 f.2).silent = true) :
    mail.Sound P (c.sent frames) ↔ mail.Sound P c := by
  apply Mail.sound_log_silent
  intro eff heff
  obtain ⟨f, hf, rfl⟩ := List.mem_map.mp heff
  exact h f hf

@[simp] theorem Mail.sound_pings (links : List LinkEntry) :
    mail.Sound P (c.sent (links.map fun e => (e.id, .ping))) ↔ mail.Sound P c := by
  apply Mail.sound_sent_silent
  simp [Effect.silent]

@[simp] theorem Mail.sound_pong (links : LinkManager) (id : Nat) :
    mail.Sound P (c.sent (links.pong id).2) ↔ mail.Sound P c := by
  apply Mail.sound_sent_silent
  simp only [LinkManager.pong]
  split <;> simp [Effect.silent]

private theorem Mail.sound_sendProto {links : LinkManager} {proto : LinkProtocol}
    (h : ∀ id, (Effect.toLink id proto).silent = true) :
    mail.Sound P (c.sent (links.sendProto proto).frames) ↔ mail.Sound P c := by
  apply Mail.sound_sent_silent
  intro f hf
  rcases links.sendProto_frames proto with hnil | ⟨id, hone⟩
  · simp [hnil] at hf
  · simp only [hone, List.mem_singleton] at hf
    subst hf
    exact h id

@[simp] theorem Mail.sound_reset (links : LinkManager) (epoch : Option Epoch) (request : Bool) :
    mail.Sound P (c.sent (links.reset epoch request).frames) ↔ mail.Sound P c :=
  Mail.sound_sendProto fun _ => rfl

@[simp] theorem Mail.sound_ack (links : LinkManager) (epoch : Epoch) (ack : Nat × Nat) :
    mail.Sound P (c.sent (links.ack epoch ack).frames) ↔ mail.Sound P c :=
  Mail.sound_sendProto fun _ => rfl

private theorem Mail.sound_wrapLink {c' : CommonState} {link : Link} {entry : Option LinkEntry}
    (h : c.wrapLink link = some (entry, c')) : mail.Sound P c' ↔ mail.Sound P c := by
  have hsubmitted : c'.submitted = c.submitted := by
    obtain ⟨next, _, h⟩ := Option.bind_eq_some_iff.mp h
    simp only at h
    split at h
    · cases h
      rfl
    · split at h
      · cases h
        rfl
      · cases h
        rfl
  simp only [Mail.Sound, hsubmitted, CommonState.wrapLink_record h]

end quiet

def States.mail : States → Mail
  | .disconnected _ => ⟨[], none⟩
  | .connecting s => ⟨s.queuedMsgs, none⟩
  | .epochMismatch s => ⟨s.queuedMsgs, none⟩
  | .connected s => ⟨[], some (s.epoch, s.msgMgr)⟩
  | .reconnecting s => ⟨[], some (s.epoch, s.msgMgr)⟩
  | .gracePeriod s => ⟨[], some (s.epoch, s.msgMgr)⟩

def States.manager : States → Option MessageManager
  | .connected s => some s.msgMgr
  | .reconnecting s => some s.msgMgr
  | .gracePeriod s => some s.msgMgr
  | _ => none

/-- A command whose message, if it has one, is held. -/
def LinkSetControlCommand.HeldBy (cmd : LinkSetControlCommand Submission) (mail : Mail)
    (c : CommonState) : Prop :=
  ∀ msg ep, cmd = .message msg ep → Held c.submitted mail c.record msg ep

section handlers

variable {P : MessageManager → Prop} {c c' : CommonState} {now id : Nat}
  {r : States × CommonState} {cmd : LinkSetControlCommand Submission} {msg : LinkProtocol}

private theorem Disconnected.ctrlMsg_sound {s : Disconnected}
    (h : (States.disconnected s).mail.Sound P c) (hheld : cmd.HeldBy (States.disconnected s).mail c)
    (hr : s.ctrlMsg c now cmd = some r) : r.1.mail.Sound P r.2 := by
  cases cmd with
  | connect =>
      cases hr
      simpa [States.mail, Connecting.fromDisconnected] using h
  | disconnect =>
      cases hr
      exact h
  | addConnector conn =>
      cases hr
      exact h
  | addAddress addr =>
      cases hr
      exact h
  | addLink link =>
      obtain ⟨⟨entry, c'⟩, hwrap, hr⟩ := Option.bind_eq_some_iff.mp hr
      have h' := (Mail.sound_wrapLink hwrap).mpr h
      cases entry with
      | none =>
          cases hr
          exact h'
      | some link =>
          cases hr
          simpa [States.mail, EpochMismatch.fromDisconnected] using h'
  | message data epoch =>
      simp only [ctrlMsg] at hr
      split at hr
      · next hcond =>
          cases hr
          have hq : Mail.Sound P ⟨[data], none⟩ c :=
            Mailed.enqueue h (hcond.2 ▸ hheld data epoch rfl)
          simpa [States.mail, Connecting.fromDisconnectedWith] using hq
      · cases hr
        exact h

private theorem Connecting.ctrlMsg_sound {s : Connecting} (h : (States.connecting s).mail.Sound P c)
    (hheld : cmd.HeldBy (States.connecting s).mail c) (hr : s.ctrlMsg c now cmd = some r) :
    r.1.mail.Sound P r.2 := by
  cases cmd with
  | connect =>
      cases hr
      exact h
  | disconnect =>
      cases hr
      have hclear : Mail.Sound P ⟨[], none⟩ c := Mailed.clearQueue h
      simpa [States.mail, Disconnected.fromConnecting] using hclear
  | addConnector conn =>
      obtain ⟨connector, _, hr⟩ := Option.bind_eq_some_iff.mp hr
      cases hr
      exact h
  | addAddress addr =>
      cases hr
      exact h
  | addLink link =>
      obtain ⟨⟨entry, c'⟩, hwrap, hr⟩ := Option.bind_eq_some_iff.mp hr
      have h' := (Mail.sound_wrapLink hwrap).mpr h
      cases entry with
      | none =>
          cases hr
          exact h'
      | some link =>
          cases hr
          simpa [States.mail, EpochMismatch.fromConnecting] using h'
  | message data epoch =>
      simp only [ctrlMsg] at hr
      split at hr
      · next hepoch =>
          cases hr
          exact Mailed.enqueue h (hepoch ▸ hheld data epoch rfl)
      · cases hr
        exact h

private theorem Connecting.timer_sound {s : Connecting} (h : (States.connecting s).mail.Sound P c)
    (hr : s.timer c = some r) : r.1.mail.Sound P r.2 := by
  cases hr
  have hclear : Mail.Sound P ⟨[], none⟩ c := Mailed.clearQueue h
  simpa [States.mail, Disconnected.fromConnecting] using hclear

private theorem EpochMismatch.ctrlMsg_sound {s : EpochMismatch}
    (h : (States.epochMismatch s).mail.Sound P c)
    (hheld : cmd.HeldBy (States.epochMismatch s).mail c) (hr : s.ctrlMsg c cmd = some r) :
    r.1.mail.Sound P r.2 := by
  cases cmd with
  | connect =>
      cases hr
      exact h
  | disconnect =>
      cases hr
      exact Mailed.clearQueue h
  | addConnector conn =>
      cases hr
      exact h
  | addAddress addr =>
      cases hr
      exact h
  | addLink link =>
      obtain ⟨⟨entry, c'⟩, hwrap, hr⟩ := Option.bind_eq_some_iff.mp hr
      have h' := (Mail.sound_wrapLink hwrap).mpr h
      cases entry with
      | none =>
          cases hr
          exact h'
      | some link =>
          cases hr
          exact h'
  | message data epoch =>
      simp only [ctrlMsg] at hr
      split at hr
      · next hepoch =>
          cases hr
          exact Mailed.enqueue h (hepoch ▸ hheld data epoch rfl)
      · cases hr
        exact h

private theorem Connected.sendAllQueued_sound (hP : Lasts P) {e : Epoch} {m m' : MessageManager}
    {links links' : LinkManager} {queue : List Submission} (h : Mail.Sound P ⟨queue, some (e, m)⟩ c)
    (hr : sendAllQueued m links c queue = some (m', links', c')) :
    Mail.Sound P ⟨[], some (e, m')⟩ c' := by
  induction queue generalizing m links c with
  | nil =>
      cases hr
      exact h
  | cons msg queue ih =>
      obtain ⟨⟨m1, links1, c1⟩, hone, hr⟩ := Option.bind_eq_some_iff.mp hr
      obtain ⟨⟨seq, m2⟩, hi, hone⟩ := Option.bind_eq_some_iff.mp hone
      obtain ⟨sm, hget, hone⟩ := Option.bind_eq_some_iff.mp hone
      obtain ⟨out, hout, hone⟩ := Option.bind_eq_some_iff.mp hone
      cases hone
      obtain ⟨hrest, hheld⟩ := Mailed.dequeue h
      have hins := Mailed.insertMsg hrest hheld (Or.inl rfl) hi (hP.insertMsg hi)
      have hsent : Mail.Sound P ⟨queue, some (e, m1)⟩
          ((c.log [.inserted msg.tag m1.epoch seq]).sent out.frames) :=
        Mailed.sendSlices hins hget hout
      exact ih hsent hr

private theorem Connected.fromEpochMismatch_sound (hP : Lasts P) {old : EpochMismatch} {e : Epoch}
    {s : Connected} (h : Mail.Sound P ⟨old.queuedMsgs, none⟩ c)
    (hr : Connected.fromEpochMismatch old c now e = some (s, c')) :
    (States.connected s).mail.Sound P c' := by
  obtain ⟨⟨m, links, c1⟩, hall, hr⟩ := Option.bind_eq_some_iff.mp hr
  cases hr
  have hsend : Mail.Sound P ⟨old.queuedMsgs, none⟩ (c.send (.connected e)) := by simpa using h
  have hnew : Mail.Sound P ⟨old.queuedMsgs, some (e, MessageManager.new e)⟩
      ((c.send (.connected e)).log [.newManager e]) := Mailed.newManager hsend e (hP.new e)
  have hdone := Connected.sendAllQueued_sound hP hnew hall
  exact hdone

private theorem EpochMismatch.linkReset_sound (hP : Lasts P) {s : EpochMismatch}
    {epoch : Option Epoch} {request : Bool} (h : (States.epochMismatch s).mail.Sound P c)
    (hr : s.linkReset c now epoch request = some r) : r.1.mail.Sound P r.2 := by
  unfold linkReset at hr
  split at hr
  · cases hr
    simpa [States.mail] using h
  · obtain ⟨e, _, hr⟩ := Option.bind_eq_some_iff.mp hr
    obtain ⟨⟨s', c'⟩, hmade, hlast⟩ := Option.bind_eq_some_iff.mp hr
    cases hlast
    refine Connected.fromEpochMismatch_sound hP ?_ hmade
    cases request with
    | true => exact (Mail.sound_reset _ _ _).mpr h
    | false => exact h
  · obtain ⟨⟨s', c'⟩, hmade, hlast⟩ := Option.bind_eq_some_iff.mp hr
    cases hlast
    refine Connected.fromEpochMismatch_sound hP ?_ hmade
    exact (Mail.sound_reset _ _ _).mpr h

private theorem EpochMismatch.linkMsg_sound (hP : Lasts P) {s : EpochMismatch}
    (h : (States.epochMismatch s).mail.Sound P c)
    (hr : s.linkMsg c now id msg = some r) : r.1.mail.Sound P r.2 := by
  cases msg with
  | reset epoch request => exact EpochMismatch.linkReset_sound hP h hr
  | ack _ _ _ =>
      cases hr
      exact h
  | msgSlice _ _ _ _ _ =>
      cases hr
      exact h
  | ping =>
      cases hr
      exact (Mail.sound_pong s.links id).mpr h
  | pong =>
      cases hr
      exact h

private theorem EpochMismatch.timer_sound {s : EpochMismatch}
    (h : (States.epochMismatch s).mail.Sound P c) (hr : s.timer c now = some r) :
    r.1.mail.Sound P r.2 := by
  have hping : (States.epochMismatch s).mail.Sound P (c.sent (s.links.upkeep.pingAll now).2) := by
    simpa [LinkManager.pingAll] using h
  have hclear : Mail.Sound P ⟨[], none⟩ (c.sent (s.links.upkeep.pingAll now).2) :=
    Mailed.clearQueue hping
  simp only [timer] at hr
  split at hr
  · split at hr
    · cases hr
      simpa [States.mail, Connecting.fromEpochMismatch] using hclear
    · cases hr
      exact hclear
  · cases hr
    exact (Mail.sound_reset _ _ _).mpr hping

private theorem Reconnecting.fromConnected_sound (mail : Mail) (old : Connected) (c : CommonState)
    (now : Nat) : mail.Sound P (Reconnecting.fromConnected old c now).2 ↔ mail.Sound P c := by
  unfold Reconnecting.fromConnected
  simp only
  split <;> simp

private theorem GracePeriod.fromConnected_sound (mail : Mail) (old : Connected) (c : CommonState)
    (now : Nat) : mail.Sound P (GracePeriod.fromConnected old c now).2 ↔ mail.Sound P c := by
  unfold GracePeriod.fromConnected
  simp only
  split <;> exact Iff.rfl

private theorem Connected.determineState_sound {s : Connected}
    (hr : determineState s c now = some r) (h : Mail.Sound P ⟨[], some (s.epoch, s.msgMgr)⟩ c) :
    r.1.mail.Sound P r.2 := by
  unfold determineState at hr
  split at hr
  · split at hr
    · cases hr
      exact (Reconnecting.fromConnected_sound _ s c now).mpr h
    · split at hr
      · cases hr
        exact (GracePeriod.fromConnected_sound _ s c now).mpr h
      · cases hr
        have hend : Mail.Sound P ⟨[], none⟩ c := Mailed.endSession h
        simpa [States.mail, Disconnected.fromConnected] using hend
  · cases hr
    exact h

private theorem Connected.sendIfSome_sound {e : Epoch} {m : MessageManager}
    {links links' : LinkManager} {o : Option SliceManager} (h : Mail.Sound P ⟨[], some (e, m)⟩ c)
    (ho : ∀ sm, o = some sm → ∃ k, m.outgoingSlices.get k = some sm)
    (hr : sendIfSome links c o = some (links', c')) : Mail.Sound P ⟨[], some (e, m)⟩ c' := by
  cases o with
  | none =>
      cases hr
      exact h
  | some sm =>
      obtain ⟨out, hout, hr⟩ := Option.map_eq_some_iff.mp hr
      cases hr
      obtain ⟨k, hk⟩ := ho sm rfl
      exact Mailed.sendSlices h hk hout

private theorem admitted_of_not_refused {epoch : Option Epoch} {e : Epoch}
    (h : ¬ (epoch ≠ none ∧ epoch ≠ some e)) : epoch = none ∨ epoch = some e := by
  by_contra hne
  exact h (not_or.mp hne)

private theorem Connected.ctrlMsg_sound (hP : Lasts P) {s : Connected}
    (h : (States.connected s).mail.Sound P c)
    (hheld : cmd.HeldBy (States.connected s).mail c) (hr : s.ctrlMsg c now cmd = some r) :
    r.1.mail.Sound P r.2 := by
  cases cmd with
  | connect =>
      cases hr
      exact h
  | disconnect =>
      cases hr
      have hend : Mail.Sound P ⟨[], none⟩ c := Mailed.endSession h
      simpa [States.mail, Disconnected.fromConnected] using hend
  | addConnector conn =>
      cases hr
      exact h
  | addAddress addr =>
      cases hr
      exact h
  | addLink link =>
      obtain ⟨⟨entry, c'⟩, hwrap, hr⟩ := Option.bind_eq_some_iff.mp hr
      have h' := (Mail.sound_wrapLink hwrap).mpr h
      cases entry with
      | none =>
          cases hr
          exact h'
      | some link =>
          cases hr
          exact h'
  | message data epoch =>
      simp only [ctrlMsg] at hr
      split at hr
      · cases hr
        exact h
      · next hcond =>
          obtain ⟨⟨seq, m⟩, hi, hr⟩ := Option.bind_eq_some_iff.mp hr
          obtain ⟨⟨links, c'⟩, hsend, hr⟩ := Option.bind_eq_some_iff.mp hr
          have hins : Mail.Sound P ⟨[], some (s.epoch, m)⟩
              (c.log [.inserted data.tag m.epoch seq]) :=
            Mailed.insertMsg h (hheld data epoch rfl) (admitted_of_not_refused hcond) hi
              (hP.insertMsg hi)
          have hsent := Connected.sendIfSome_sound hins (fun sm hsm => ⟨seq, hsm⟩) hsend
          exact Connected.determineState_sound hr hsent

private theorem Connected.linkReset_sound {s : Connected} {epoch : Option Epoch} {request : Bool}
    (h : (States.connected s).mail.Sound P c)
    (hr : s.linkReset c now epoch request = some r) : r.1.mail.Sound P r.2 := by
  unfold linkReset at hr
  split at hr
  · split at hr
    · exact Connected.determineState_sound hr ((Mail.sound_reset _ _ _).mpr h)
    · cases hr
      have hend : Mail.Sound P ⟨[], none⟩ c := Mailed.endSession h
      exact (Mail.sound_reset _ _ _).mpr hend
  · cases hr
    exact h

private theorem Mail.Sound.recv {e : Epoch} {m m1 m2 : MessageManager} {seq firstIndex seqLen : Nat}
    {data : List UInt8} {b : Bool} {out : List (List UInt8)}
    (h : Mail.Sound P ⟨[], some (e, m)⟩ c)
    (hrecv : m.recv seq firstIndex seqLen data = some (b, m1))
    (htake : m1.takeRecvd = some (out, m2)) (hP : P m → P m2) :
    Mail.Sound P ⟨[], some (e, m2)⟩ c := by
  obtain ⟨_, hm2⟩ := MessageManager.takeRecvd_eq_some.mp htake
  have hsame : m1.epoch = m.epoch ∧ m1.nextSeq = m.nextSeq ∧
      m1.outgoingSlices = m.outgoingSlices := by
    rcases MessageManager.recv_cases hrecv with ⟨rfl, _⟩ | ⟨sm, _, _, _, rfl⟩ |
      ⟨sm, lastAck, _, _, _, _, rfl⟩ <;> exact ⟨rfl, rfl, rfl⟩
  obtain ⟨hepoch, hnext, hout⟩ := hsame
  subst hm2
  refine Mailed.replace h hP hepoch ?_
  intro datas hsend
  exact hsend.congr hout hnext hepoch

private theorem Connected.linkSlice_sound {s : Connected} {epoch seq seqLen firstIndex : Nat}
    {data : List UInt8} (hmsg : (LinkProtocol.msgSlice epoch seq seqLen firstIndex data).Keeps P)
    (h : (States.connected s).mail.Sound P c)
    (hr : s.linkSlice c now epoch seq seqLen firstIndex data = some r) : r.1.mail.Sound P r.2 := by
  unfold linkSlice at hr
  split at hr
  · obtain ⟨⟨b, m1⟩, hrecv, hr⟩ := Option.bind_eq_some_iff.mp hr
    obtain ⟨⟨out, m2⟩, htake, hr⟩ := Option.bind_eq_some_iff.mp hr
    refine Connected.determineState_sound hr ((Mail.sound_deliver _ _).mpr ?_)
    refine Mail.Sound.recv ?_ hrecv htake (hmsg _ _ _ _ _ hrecv htake)
    cases b with
    | true => exact (Mail.sound_ack _ _ _).mpr h
    | false => exact h
  · cases hr
    exact h

private theorem Mail.Sound.recvAck (hP : Lasts P) {e : Epoch} {m : MessageManager}
    (h : Mail.Sound P ⟨[], some (e, m)⟩ c) (ack : Nat × Nat) :
    Mail.Sound P ⟨[], some (e, m.recvAck ack)⟩ c :=
  Mailed.replace h (hP.recvAck ack) (m.recvAck_fields ack).1 fun _ hsend => hsend.recvAck ack

private theorem Connected.linkMsg_sound (hP : Lasts P) (hmsg : msg.Keeps P) {s : Connected}
    (h : (States.connected s).mail.Sound P c)
    (hr : s.linkMsg c now id msg = some r) : r.1.mail.Sound P r.2 := by
  cases msg with
  | reset epoch request => exact Connected.linkReset_sound h hr
  | ack epoch seq lastIndex =>
      simp only [linkMsg] at hr
      split at hr
      · cases hr
        exact Mail.Sound.recvAck hP h (seq, lastIndex)
      · cases hr
        exact h
  | msgSlice epoch seq seqLen firstIndex data => exact Connected.linkSlice_sound hmsg h hr
  | ping =>
      cases hr
      exact (Mail.sound_pong s.links id).mpr h
  | pong =>
      cases hr
      exact h

private theorem Connected.timer_sound {s : Connected} (h : (States.connected s).mail.Sound P c)
    (hr : s.timer c now = some r) : r.1.mail.Sound P r.2 := by
  have hping : (States.connected s).mail.Sound P (c.sent (s.pingIfDue now).2) := by
    unfold pingIfDue
    split
    · simpa [LinkManager.pingAll] using h
    · exact (Mail.sound_sent_silent (by simp)).mpr h
  simp only [timer] at hr
  obtain ⟨⟨links, c'⟩, hsend, hr⟩ := Option.bind_eq_some_iff.mp hr
  refine Connected.determineState_sound hr (Connected.sendIfSome_sound hping ?_ hsend)
  intro sm hsm
  split at hsm
  · cases hsm
  · have hmem := List.mem_of_head? hsm
    exact SortedMap.mem_values.mp hmem

private theorem linkDetached_sound (hP : Lasts P) (hmsg : msg.Keeps P) {e : Epoch}
    {m : MessageManager} {stay : MessageManager → States} {leave : States × CommonState}
    (h : Mail.Sound P ⟨[], some (e, m)⟩ c) (hstay : ∀ m, (stay m).mail = ⟨[], some (e, m)⟩)
    (hleave : leave.1.mail.Sound P leave.2) (hr : linkDetached m e c stay leave msg = some r) :
    r.1.mail.Sound P r.2 := by
  have hkeep : (stay m).mail.Sound P c := (hstay m).symm ▸ h
  cases msg with
  | reset epoch request =>
      simp only [linkDetached] at hr
      split at hr
      · cases hr
        exact hleave
      · cases hr
        exact hkeep
  | ack epoch seq lastIndex =>
      simp only [linkDetached] at hr
      split at hr
      · cases hr
        simp only [hstay]
        exact Mail.Sound.recvAck hP h (seq, lastIndex)
      · cases hr
        exact hkeep
  | msgSlice epoch seq seqLen firstIndex data =>
      simp only [linkDetached] at hr
      split at hr
      · obtain ⟨⟨m2, c2⟩, hdet, hr⟩ := Option.bind_eq_some_iff.mp hr
        obtain ⟨⟨b, m1⟩, hrecv, hdet⟩ := Option.bind_eq_some_iff.mp hdet
        obtain ⟨⟨out, m3⟩, htake, hdet⟩ := Option.bind_eq_some_iff.mp hdet
        cases hdet
        cases hr
        simp only [hstay, Mail.sound_deliver]
        exact Mail.Sound.recv h hrecv htake (hmsg _ _ _ _ _ hrecv htake)
      · cases hr
        exact hkeep
  | ping =>
      cases hr
      exact hkeep
  | pong =>
      cases hr
      exact hkeep

private theorem Reconnecting.ctrlMsg_sound (hP : Lasts P) {s : Reconnecting}
    (h : (States.reconnecting s).mail.Sound P c)
    (hheld : cmd.HeldBy (States.reconnecting s).mail c) (hr : s.ctrlMsg c now cmd = some r) :
    r.1.mail.Sound P r.2 := by
  cases cmd with
  | connect =>
      cases hr
      exact h
  | disconnect =>
      cases hr
      have hend : Mail.Sound P ⟨[], none⟩ c := Mailed.endSession h
      simpa [States.mail, Disconnected.fromReconnecting] using hend
  | addConnector conn =>
      obtain ⟨connector, _, hr⟩ := Option.bind_eq_some_iff.mp hr
      cases hr
      exact h
  | addAddress addr =>
      cases hr
      exact h
  | addLink link =>
      obtain ⟨⟨entry, c'⟩, hwrap, hr⟩ := Option.bind_eq_some_iff.mp hr
      have h' := (Mail.sound_wrapLink hwrap).mpr h
      cases entry with
      | none =>
          cases hr
          exact h'
      | some link =>
          cases hr
          simpa [States.mail, Connected.fromReconnecting] using h'
  | message data epoch =>
      simp only [ctrlMsg] at hr
      split at hr
      · cases hr
        exact h
      · next hcond =>
          obtain ⟨⟨seq, m⟩, hi, hr⟩ := Option.bind_eq_some_iff.mp hr
          cases hr
          exact Mailed.insertMsg h (hheld data epoch rfl) (admitted_of_not_refused hcond) hi
            (hP.insertMsg hi)

private theorem GracePeriod.ctrlMsg_sound (hP : Lasts P) {s : GracePeriod}
    (h : (States.gracePeriod s).mail.Sound P c)
    (hheld : cmd.HeldBy (States.gracePeriod s).mail c) (hr : s.ctrlMsg c now cmd = some r) :
    r.1.mail.Sound P r.2 := by
  cases cmd with
  | connect =>
      cases hr
      exact h
  | disconnect =>
      cases hr
      have hend : Mail.Sound P ⟨[], none⟩ c := Mailed.endSession h
      simpa [States.mail, Disconnected.fromGracePeriod] using hend
  | addConnector conn =>
      cases hr
      exact h
  | addAddress addr =>
      cases hr
      exact h
  | addLink link =>
      obtain ⟨⟨entry, c'⟩, hwrap, hr⟩ := Option.bind_eq_some_iff.mp hr
      have h' := (Mail.sound_wrapLink hwrap).mpr h
      cases entry with
      | none =>
          cases hr
          exact h'
      | some link =>
          cases hr
          simpa [States.mail, Connected.fromGracePeriod] using h'
  | message data epoch =>
      simp only [ctrlMsg] at hr
      split at hr
      · cases hr
        exact h
      · next hcond =>
          obtain ⟨⟨seq, m⟩, hi, hr⟩ := Option.bind_eq_some_iff.mp hr
          cases hr
          exact Mailed.insertMsg h (hheld data epoch rfl) (admitted_of_not_refused hcond) hi
            (hP.insertMsg hi)

private theorem Reconnecting.timer_sound {s : Reconnecting}
    (h : (States.reconnecting s).mail.Sound P c) (hr : s.timer c now = some r) :
    r.1.mail.Sound P r.2 := by
  have hend : Mail.Sound P ⟨[], none⟩ c := Mailed.endSession h
  unfold timer at hr
  split at hr
  · cases hr
    simpa [States.mail, Connecting.fromReconnecting] using hend
  · cases hr
    simpa [States.mail, Disconnected.fromReconnecting] using hend

private theorem GracePeriod.timer_sound {s : GracePeriod}
    (h : (States.gracePeriod s).mail.Sound P c) (hr : s.timer c now = some r) :
    r.1.mail.Sound P r.2 := by
  have hend : Mail.Sound P ⟨[], none⟩ c := Mailed.endSession h
  unfold timer at hr
  split at hr
  · cases hr
    simpa [States.mail, Connecting.fromGracePeriod] using hend
  · cases hr
    simpa [States.mail, Disconnected.fromGracePeriod] using hend

end handlers

namespace States

variable {P : MessageManager → Prop} {st : States} {c : CommonState} {now id : Nat}
  {r : States × CommonState}

private theorem ctrlMsg_sound (hP : Lasts P) {cmd : LinkSetControlCommand Submission}
    (h : st.mail.Sound P c) (hheld : cmd.HeldBy st.mail c)
    (hr : st.ctrlMsg c now cmd = some r) : r.1.mail.Sound P r.2 := by
  cases st with
  | disconnected s => exact Disconnected.ctrlMsg_sound h hheld hr
  | connecting s => exact Connecting.ctrlMsg_sound h hheld hr
  | epochMismatch s => exact EpochMismatch.ctrlMsg_sound h hheld hr
  | connected s => exact Connected.ctrlMsg_sound hP h hheld hr
  | reconnecting s => exact Reconnecting.ctrlMsg_sound hP h hheld hr
  | gracePeriod s => exact GracePeriod.ctrlMsg_sound hP h hheld hr

private theorem linkMsg_sound (hP : Lasts P) {msg : LinkProtocol} (hmsg : msg.Keeps P)
    (h : st.mail.Sound P c) (hr : st.linkMsg c now id msg = some r) : r.1.mail.Sound P r.2 := by
  cases st with
  | disconnected s =>
      cases hr
      exact h
  | connecting s =>
      cases hr
      exact h
  | epochMismatch s => exact EpochMismatch.linkMsg_sound hP h hr
  | connected s => exact Connected.linkMsg_sound hP hmsg h hr
  | reconnecting s =>
      simp only [linkMsg, Reconnecting.linkMsg] at hr
      refine linkDetached_sound hP hmsg h (fun _ => rfl) ?_ hr
      have hend : Mail.Sound P ⟨[], none⟩ c := Mailed.endSession h
      simpa [mail, Connecting.fromReconnecting] using hend
  | gracePeriod s =>
      simp only [linkMsg, GracePeriod.linkMsg] at hr
      refine linkDetached_sound hP hmsg h (fun _ => rfl) ?_ hr
      have hend : Mail.Sound P ⟨[], none⟩ c := Mailed.endSession h
      simpa [mail, Disconnected.fromGracePeriod] using hend

private theorem timer_sound (h : st.mail.Sound P c) (hr : st.timer c now = some r) :
    r.1.mail.Sound P r.2 := by
  cases st with
  | disconnected s =>
      cases hr
      exact h
  | connecting s => exact Connecting.timer_sound h hr
  | epochMismatch s => exact EpochMismatch.timer_sound h hr
  | connected s => exact Connected.timer_sound h hr
  | reconnecting s => exact Reconnecting.timer_sound h hr
  | gracePeriod s => exact GracePeriod.timer_sound h hr

theorem debug_mail (st : States) (cmd : DebugCommand) : (st.debug cmd).mail = st.mail := by
  cases st <;> cases cmd <;> rfl

theorem permits_mail (st : States) (addr : Address) (count : Nat) :
    (st.permits addr count).mail = st.mail := by
  cases st <;> rfl

private theorem mail_of_manager {m : MessageManager} (h : st.manager = some m) :
    ∃ e, st.mail.session = some (e, m) := by
  cases st with
  | connected s =>
      cases h
      exact ⟨s.epoch, rfl⟩
  | reconnecting s =>
      cases h
      exact ⟨s.epoch, rfl⟩
  | gracePeriod s =>
      cases h
      exact ⟨s.epoch, rfl⟩
  | _ => cases h

end States

/-- Whatever frame the event brings keeps the property. -/
def Event.Keeps (P : MessageManager → Prop) : Event → Prop
  | .frame _ msg => msg.Keeps P
  | _ => True

theorem Event.keeps_true (ev : Event) : ev.Keeps fun _ => True := by
  cases ev with
  | frame id msg =>
      cases msg with
      | msgSlice epoch seq seqLen firstIndex data => exact fun _ _ _ _ _ _ _ _ => trivial
      | _ => trivial
  | _ => trivial

namespace Receiving

variable {m m' : MessageManager} {n : Nat}

theorem recvAck (h : Receiving m n) (ack : Nat × Nat) : Receiving (m.recvAck ack) n := by
  obtain ⟨hepoch, _, hincoming, hack⟩ := m.recvAck_fields ack
  exact h.congr hincoming hack hepoch

theorem of_takeRecvd (h : Receiving m n) {out : List (List UInt8)}
    (htake : m.takeRecvd = some (out, m')) : ∃ n', Receiving m' n' := by
  obtain ⟨out', m1, htake', hrec, _⟩ := h.takeRecvd
  rw [htake] at htake'
  cases htake'
  exact ⟨_, hrec⟩

end Receiving

private theorem lasts_receiving : Lasts fun m => ∃ n, Receiving m n where
  new := fun e => ⟨0, receiving_new e⟩
  insertMsg := by
    intro m data seq m' hi h
    obtain ⟨n, h⟩ := h
    obtain ⟨_, _, rfl⟩ := MessageManager.insertMsg_eq_some.mp hi
    exact ⟨n, h.congr rfl rfl rfl⟩
  recvAck := by
    intro m ack h
    obtain ⟨n, h⟩ := h
    exact ⟨n, h.recvAck ack⟩

private theorem LinkProtocol.Decoded.keeps {msg : LinkProtocol} (hdec : msg.Decoded) :
    msg.Keeps fun m => ∃ n, Receiving m n := by
  cases msg with
  | msgSlice epoch seq seqLen firstIndex data =>
      obtain ⟨bytes, rest, hdec⟩ := hdec
      have hdata := LinkProtocol.deserialize_data_ne_nil hdec
      intro m b m1 out m2 hr htake h
      obtain ⟨n, h⟩ := h
      exact (h.recv hr).of_takeRecvd htake
  | _ => trivial

namespace Core

variable {P : MessageManager → Prop}

private theorem tagged_sound {mail : Mail} {c : CommonState} (h : mail.Sound P c)
    (cmd : LinkSetControlCommand Payload) :
    mail.Sound P (tagged c cmd).2 ∧ (tagged c cmd).1.HeldBy mail (tagged c cmd).2 := by
  cases cmd with
  | message data epoch =>
      refine ⟨Mailed.submit h _, ?_⟩
      intro msg ep hmsg
      cases hmsg
      refine ⟨by simp [tagged], ?_, ?_⟩
      · intro hmem
        exact absurd (h.known _ hmem) (Nat.lt_irrefl _)
      · intro hmem
        obtain ⟨x, hx, htag⟩ := List.mem_map.mp hmem
        have hlt := (List.getElem?_eq_some_iff.mp (h.queued x hx)).1
        simp only at htag
        omega
  | _ => exact ⟨h, fun _ _ hmsg => by cases hmsg⟩

theorem step_sound (hP : Lasts P) (core : Core) (input : Nat × Event) (core' : Core)
    (h : core.state.mail.Sound P core.common) (hev : input.2.Keeps P)
    (hstep : core.step input = some core') :
    core'.state.mail.Sound P core'.common := by
  obtain ⟨now, ev⟩ := input
  obtain ⟨r, hr, rfl⟩ := Option.map_eq_some_iff.mp hstep
  cases ev with
  | command cmd =>
      obtain ⟨hsound, hheld⟩ := tagged_sound h cmd
      exact States.ctrlMsg_sound hP hsound hheld hr
  | config conf =>
      cases hr
      cases conf <;> exact h
  | frame id msg =>
      simp only [handle] at hr
      split at hr
      · exact States.linkMsg_sound hP hev h hr
      · cases hr
  | timer =>
      obtain ⟨timer, _, hr⟩ := Option.bind_eq_some_iff.mp hr
      have h' : core.state.mail.Sound P { core.common with timer } := h
      exact States.timer_sound h' hr
  | debug cmd =>
      cases hr
      simp only [States.debug_mail]
      exact h
  | permits addr count =>
      cases hr
      simp only [States.permits_mail]
      exact h

theorem start_sound : start.state.mail.Sound P start.common where
  accounted := allAccounted_nil _
  once := List.nodup_nil
  known := by simp [insertedTags, start, CommonState.new]
  queued := by simp [start, States.new, States.mail]
  kept := by simp [start, States.new, States.mail]

private theorem run_sound (hP : Lasts P) {inputs : List (Nat × Event)} {core : Core}
    (hev : ∀ input ∈ inputs, input.2.Keeps P) (hrun : run step start inputs = some core) :
    core.state.mail.Sound P core.common :=
  run_invariant_of (step_sound hP) start_sound (.of_forall_mem hev start) hrun

/-- Whatever frames the peer sends, as long as they decode, the receiving half of the session is
in order. -/
theorem receiving_of_run {inputs : List (Nat × Event)} {core : Core} {m : MessageManager}
    (hdec : ∀ now id msg, (now, .frame id msg) ∈ inputs → msg.Decoded)
    (hrun : run step start inputs = some core) (hm : core.state.manager = some m) :
    ∃ n, Receiving m n := by
  have hkeeps : ∀ input ∈ inputs, input.2.Keeps fun m => ∃ n, Receiving m n := by
    intro input hmem
    obtain ⟨now, ev⟩ := input
    cases ev with
    | frame id msg => exact (hdec now id msg hmem).keeps
    | _ => trivial
  obtain ⟨e, hsession⟩ := States.mail_of_manager hm
  exact ((run_sound lasts_receiving hkeeps hrun).kept e m hsession).1

/-- In every run a submitted message is inserted at most once, only into a manager of the epoch
it was submitted for, if any, and every slice sent is a piece of an inserted message and carries
the epoch of the manager this message was inserted into. -/
theorem messages_keep_their_epoch (inputs : List (Nat × Event)) (core : Core)
    (hrun : run step start inputs = some core) :
    (insertedTags core.common.record).Nodup ∧
    (∀ tag e seq, .inserted tag e seq ∈ core.common.record →
      ∃ payload ep, core.common.submitted[tag]? = some (payload, ep) ∧ (ep = none ∨ ep = some e)) ∧
    (∀ pre post id epoch seq seqLen firstIndex data,
      core.common.record =
        pre ++ .toLink id (.msgSlice epoch seq seqLen firstIndex data) :: post →
      ∃ tag e payload ep, .inserted tag e seq ∈ pre ∧ epoch = e.toInt ∧
        core.common.submitted[tag]? = some (payload, ep) ∧ seqLen = payload.bytes.length ∧
        IsPiece payload.bytes firstIndex data) := by
  have hlasts : Lasts fun _ => True := ⟨fun _ => trivial, fun _ _ => trivial, fun _ _ => trivial⟩
  have hsound := run_sound hlasts (fun input _ => input.2.keeps_true) hrun
  refine ⟨(List.nodup_append.mp hsound.once).1, ?_, ?_⟩
  · intro tag e seq hmem
    obtain ⟨pre, post, hsplit⟩ := List.append_of_mem hmem
    obtain ⟨_, _, hsub⟩ := hsound.accounted pre _ post hsplit
    exact hsub
  · intro pre post id epoch seq seqLen firstIndex data hsplit
    obtain ⟨e, tag, payload, ep, hepoch, he, htag, hsub, hpiece⟩ :=
      hsound.accounted pre _ post hsplit
    have hpre : AllAccounted core.common.submitted pre := (hsplit ▸ hsound.accounted).of_append
    exact ⟨tag, e, payload, ep, hpre.inserted_of_ledger hepoch htag, he, hsub, hpiece⟩

/-- A message queued before there is a link, one for the epoch of the session and one for
another epoch. -/
private def threeMessages : List (Nat × Event) :=
  [(0, .command (.message ⟨[1, 2], by decide⟩ none)), (0, .command (.addLink steadyLink)),
    (0, .frame 0 (.reset none true)),
    (0, .command (.message ⟨[3], by decide⟩ (some Epoch.one))),
    (0, .command (.message ⟨[4], by decide⟩ (some Epoch.last)))]

theorem messages_keep_their_epoch_three :
    ∃ core, run step start threeMessages = some core ∧
      insertedTags core.common.record = [0, 1] ∧ (insertedTags core.common.record).Nodup :=
  ⟨_, rfl, rfl, (messages_keep_their_epoch threeMessages _ rfl).1⟩

end Core

end LinkSet
