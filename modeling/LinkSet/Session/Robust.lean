import LinkSet.Core.Holdings
import LinkSet.Core.Limits
import LinkSet.Session.Exchange

/-!
# Two endpoints never make each other panic

A frame from anywhere can make `recv` overflow or ask for too much memory, but not one that the
other endpoint sends, in whatever order and how often the frames arrive. What else could fail is a
number that runs out: of links, of messages in a session or in the queue, or the clock when a
timeout is added to it.
-/

namespace LinkSet

open Framework Relation

/-- What a core sends: a slice is a piece of a message that fits a vector, and its number is not
the last 64-bit one. -/
def LinkProtocol.Proper : LinkProtocol → Prop
  | .msgSlice _ seq seqLen firstIndex data =>
      data ≠ [] ∧ firstIndex + data.length ≤ seqLen ∧ seqLen ≤ isizeMax ∧ seq + 1 < 2 ^ 64
  | _ => True

private theorem SliceManager.Suffix.sliceable {s : SliceManager} (h : s.Suffix)
    (hlen : s.data.length ≤ isizeMax) {size : Nat} (hsize : size < 2 ^ 32) :
    ∃ frames, s.getSlices size = some frames := by
  by_cases hzero : size = 0
  · rcases h with hnil | ⟨start, _, hone⟩
    · exact ⟨[], by simp [SliceManager.getSlices, hnil]⟩
    · exact ⟨[], by simp [SliceManager.getSlices, hone, makeSlices, hzero]⟩
  · obtain ⟨pieces, hpieces, _⟩ := h.getSlices hlen (Nat.pos_of_ne_zero hzero) hsize
    exact ⟨_, hpieces⟩

/-- A manager that talks to an endpoint: its messages fit vectors, and the number of every
message, sent or received, is not the last 64-bit one. -/
structure MessageManager.Careful (m : MessageManager) : Prop where
  outgoing : ∀ k sm, m.outgoingSlices.get k = some sm →
    sm.Suffix ∧ sm.data.length ≤ isizeMax ∧ sm.seq + 1 < 2 ^ 64
  receiving : ∃ n, Receiving m n
  incoming : ∀ s sm, m.incomingSlices.get s = some sm → s + 1 < 2 ^ 64

namespace MessageManager.Careful

variable {m m' : MessageManager}

private theorem new (epoch : Epoch) : (MessageManager.new epoch).Careful where
  outgoing := by simp [MessageManager.new]
  receiving := ⟨0, receiving_new epoch⟩
  incoming := by simp [MessageManager.new]

private theorem insertMsg (h : m.Careful) {data : List UInt8} (hdata : data.length ≤ isizeMax)
    {seq : Nat} (hi : m.insertMsg data = some (seq, m')) : m'.Careful := by
  obtain ⟨hlt, _, hm'⟩ := insertMsg_eq_some.mp hi
  obtain ⟨n, hrec⟩ := h.receiving
  have hout := insertMsg_outgoing h.outgoing hi ⟨SliceManager.fromVec_suffix _ _ _, hdata, hlt⟩
  subst hm'
  exact ⟨hout, ⟨n, hrec.congr rfl rfl rfl⟩, h.incoming⟩

private theorem recvAck (h : m.Careful) (ack : Nat × Nat) : (m.recvAck ack).Careful := by
  obtain ⟨n, hrec⟩ := h.receiving
  refine ⟨recvAck_outgoing h.outgoing ?_ ack, ⟨n, hrec.recvAck ack⟩, ?_⟩
  · rintro sm epoch seq lastIndex ⟨hsuffix, hlen, hseq⟩
    exact ⟨hsuffix.ack _ _ _, by rwa [SliceManager.ack_data], by rwa [SliceManager.ack_seq]⟩
  · rw [(m.recvAck_fields ack).2.2.1]
    exact h.incoming

private theorem safeSlice (h : m.Careful) {epoch seq seqLen firstIndex : Nat} {data : List UInt8}
    (hslice : (LinkProtocol.msgSlice epoch seq seqLen firstIndex data).Proper) :
    SafeSlice m seq firstIndex seqLen data := by
  obtain ⟨hdata, hfit, hmax, hseq⟩ := hslice
  have hpos := List.length_pos_of_ne_nil hdata
  have hsize : isizeMax = 2 ^ 63 - 1 := rfl
  apply Or.inr
  refine ⟨fun _ => by omega, Or.inr ⟨by omega, fun _ => by omega, ?_⟩⟩
  rintro ⟨_, _, hall⟩
  obtain ⟨sm, hsm, _⟩ := hall (2 ^ 64 - 1) (by omega) (by omega)
  have hlast := h.incoming _ sm hsm
  omega

theorem recv_takeRecvd (h : m.Careful) {epoch seq seqLen firstIndex : Nat} {data : List UInt8}
    (hslice : (LinkProtocol.msgSlice epoch seq seqLen firstIndex data).Proper) :
    ∃ b m1 out m2, m.recv seq firstIndex seqLen data = some (b, m1) ∧
      m1.takeRecvd = some (out, m2) := by
  obtain ⟨n, hrec⟩ := h.receiving
  obtain ⟨⟨b, m1⟩, hrecv⟩ := (hrec.recv_isSome_iff hslice.1).mpr (h.safeSlice hslice)
  obtain ⟨out, m2, htake, _⟩ := (hrec.recv hrecv).takeRecvd
  exact ⟨b, m1, out, m2, hrecv, htake⟩

private theorem received (h : m.Careful) {epoch seq seqLen firstIndex : Nat} {data : List UInt8}
    (hslice : (LinkProtocol.msgSlice epoch seq seqLen firstIndex data).Proper) {b : Bool}
    {m1 m2 : MessageManager} {out : List (List UInt8)}
    (hrecv : m.recv seq firstIndex seqLen data = some (b, m1))
    (htake : m1.takeRecvd = some (out, m2)) : m2.Careful := by
  obtain ⟨n, hrec⟩ := h.receiving
  have hsame := ((SameOutgoing.refl m).recv hrecv).takeRecvd htake
  have hstored := hrec.recv_stored hslice.1 hrecv
  refine ⟨?_, (hrec.recv hrecv).of_takeRecvd htake, ?_⟩
  · rw [hsame.outgoing]
    exact h.outgoing
  · obtain ⟨_, rfl⟩ := takeRecvd_eq_some.mp htake
    intro s sm hs
    rw [SortedMap.get_splitOff_snd, Option.ite_none_right_eq_some] at hs
    rcases hstored.entry s sm hs.2 with hold | ⟨rfl, _⟩
    · exact h.incoming s sm hold
    · exact hslice.2.2.2

end MessageManager.Careful

/-- A core that talks to an endpoint sends proper frames only, since its manager is careful. -/
private theorem guards_careful :
    Guards LinkProtocol.Proper LinkProtocol.Proper (fun _ => True) MessageManager.Careful where
  control := by
    intro id f hf
    cases f with
    | msgSlice _ _ _ _ _ => cases hf
    | _ => trivial
  new := MessageManager.Careful.new
  insertMsg := by
    intro m m' seq data _ hi h
    exact h.insertMsg data.small hi
  recvAck := by
    intro m ack h
    exact h.recvAck ack
  slices := by
    intro m k sm size protos h hget hslices f hf
    obtain ⟨firstIndex, piece, rfl, hpiece, _⟩ := SliceManager.getSlices_pieces hslices f hf
    obtain ⟨_, hlen, hseq⟩ := h.outgoing k sm hget
    exact ⟨hpiece.1, hpiece.length_le, hlen, hseq⟩
  recv := by
    intro m m1 m2 seq seqLen firstIndex data b out e h hslice hrecv htake
    exact ⟨trivial, h.received hslice hrecv htake⟩

section returns

variable {c : CommonState} {now : Nat}

private theorem LinkManager.sendSlices_returns (links : LinkManager) {sm : SliceManager}
    (h : ∀ size < 2 ^ 32, ∃ frames, sm.getSlices size = some frames) :
    ∃ out, links.sendSlices sm = some out := by
  unfold LinkManager.sendSlices
  cases dropUnusable links.links with
  | nil => exact ⟨_, rfl⟩
  | cons link rest =>
      have hsize : link.maxSize < 2 ^ 32 :=
        Nat.lt_of_le_of_lt (Nat.sub_le _ _) link.link.maxSize_lt
      obtain ⟨frames, hframes⟩ := h _ hsize
      simp only [hframes]
      exact ⟨_, rfl⟩

private theorem Connected.determineState_returns (s : Connected) (c : CommonState) (now : Nat) :
    ∃ r, determineState s c now = some r := by
  unfold determineState
  split
  · split
    · exact ⟨_, rfl⟩
    · split <;> exact ⟨_, rfl⟩
  · exact ⟨_, rfl⟩

private theorem Connected.sendIfSome_returns (links : LinkManager) (c : CommonState)
    {o : Option SliceManager}
    (h : ∀ sm, o = some sm → sm.Suffix ∧ sm.data.length ≤ isizeMax) :
    ∃ r, sendIfSome links c o = some r := by
  cases o with
  | none => exact ⟨_, rfl⟩
  | some sm =>
      obtain ⟨hsuffix, hlen⟩ := h sm rfl
      obtain ⟨out, hout⟩ := links.sendSlices_returns fun _ hsize => hsuffix.sliceable hlen hsize
      exact ⟨_, by rw [sendIfSome, hout]; rfl⟩

private theorem MessageManager.insertMsg_returns (m : MessageManager) (data : List UInt8)
    (h : m.nextSeq + 1 < 2 ^ 64) :
    ∃ m', m.insertMsg data = some (m.nextSeq, m') ∧ m'.nextSeq = m.nextSeq + 1 ∧
      m'.getOutgoingSlice m.nextSeq = some (SliceManager.fromVec m.epoch m.nextSeq data) := by
  refine ⟨_, insertMsg_eq_some.mpr ⟨h, rfl, rfl⟩, rfl, ?_⟩
  exact SortedMap.get_insert_self _ _ _

private theorem Connected.sendAllQueued_returns (m : MessageManager) (links : LinkManager)
    (c : CommonState) (queue : List Submission) (h : m.nextSeq + queue.length < 2 ^ 64) :
    ∃ r, sendAllQueued m links c queue = some r := by
  induction queue generalizing m links c with
  | nil => exact ⟨_, rfl⟩
  | cons msg queue ih =>
      simp only [List.length_cons] at h
      obtain ⟨m', hi, hnext, hget⟩ := m.insertMsg_returns msg.payload.bytes (by omega)
      have hsuffix := SliceManager.fromVec_suffix m.epoch m.nextSeq msg.payload.bytes
      obtain ⟨out, hout⟩ := links.sendSlices_returns fun _ hsize =>
        hsuffix.sliceable msg.payload.small hsize
      obtain ⟨r, hr⟩ := ih m' out.links
        ((c.log [.inserted msg.tag m'.epoch m.nextSeq]).sent out.frames) (by omega)
      refine ⟨r, ?_⟩
      simp only [sendAllQueued, sendQueued, hi, hget, hout, Option.bind_eq_bind, Option.bind_some]
      exact hr

private theorem Connected.fromEpochMismatch_returns (old : EpochMismatch) (c : CommonState)
    (now : Nat) (e : Epoch) (h : old.queuedMsgs.length < 2 ^ 64) :
    ∃ r, Connected.fromEpochMismatch old c now e = some r := by
  obtain ⟨r, hr⟩ := Connected.sendAllQueued_returns (MessageManager.new e) old.links
    ((c.send (.connected e)).log [.newManager e]) old.queuedMsgs (by simpa [MessageManager.new])
  exact ⟨_, by rw [Connected.fromEpochMismatch, hr]; rfl⟩

private theorem EpochMismatch.linkReset_returns (s : EpochMismatch) (c : CommonState) (now : Nat)
    (epoch : Option Epoch) (request : Bool) (h : s.queuedMsgs.length < 2 ^ 64) :
    ∃ r, s.linkReset c now epoch request = some r := by
  unfold linkReset
  split
  · exact ⟨_, rfl⟩
  · next heq =>
      cases hep : s.epoch with
      | none =>
          rw [hep] at heq
          cases heq
      | some e =>
          obtain ⟨links, c', hlinks⟩ : ∃ links c', (if request = true then
              ((s.links.reset (some e) false).links, c.sent (s.links.reset (some e) false).frames)
              else (s.links, c)) = (links, c') := ⟨_, _, rfl⟩
          obtain ⟨r, hr⟩ := Connected.fromEpochMismatch_returns { s with links } c' now e h
          simp only [hep] at hr
          simp only [hlinks, Option.bind_eq_bind, Option.bind_some, hr]
          exact ⟨_, rfl⟩
  · obtain ⟨r, hr⟩ := Connected.fromEpochMismatch_returns
      { s with epoch, links := (s.links.reset (some (epoch.getD Epoch.one)) false).links }
      (c.sent (s.links.reset (some (epoch.getD Epoch.one)) false).frames) now
      (epoch.getD Epoch.one) h
    simp only [hr]
    exact ⟨_, rfl⟩

private theorem CommonState.wrapLink_returns (c : CommonState) (link : Link)
    (h : c.nextLinkId + 1 < 2 ^ 64) : ∃ r, c.wrapLink link = some r := by
  unfold CommonState.wrapLink
  rw [checkedAdd_of_lt h]
  simp only [Option.bind_eq_bind, Option.bind_some]
  split
  · exact ⟨_, rfl⟩
  · split <;> exact ⟨_, rfl⟩

/-- The numbers do not run out with the next event: those of links, of queued messages and of the
messages of the session. -/
structure States.Room (st : States) (c : CommonState) : Prop where
  links : c.nextLinkId + 1 < 2 ^ 64
  queue : st.mail.queue.length < 2 ^ 64
  messages : ∀ e m, st.mail.session = some (e, m) → m.nextSeq + 1 < 2 ^ 64

variable {st : States}

private theorem States.addLink_returns (hroom : st.Room c) (link : Link) :
    ∃ r, st.ctrlMsg c now (.addLink link) = some r := by
  obtain ⟨⟨entry, c'⟩, hwrap⟩ := c.wrapLink_returns link hroom.links
  cases st <;> cases entry <;>
    simp only [States.ctrlMsg, Disconnected.ctrlMsg, Connecting.ctrlMsg, EpochMismatch.ctrlMsg,
      Connected.ctrlMsg, Reconnecting.ctrlMsg, GracePeriod.ctrlMsg, hwrap, Option.bind_eq_bind,
      Option.bind_some] <;>
    exact ⟨_, rfl⟩

private theorem Connected.message_returns (s : Connected) (hroom : s.msgMgr.nextSeq + 1 < 2 ^ 64)
    (data : Submission) (epoch : Option Epoch) :
    ∃ r, s.ctrlMsg c now (.message data epoch) = some r := by
  simp only [ctrlMsg]
  split
  · exact ⟨_, rfl⟩
  · obtain ⟨m', hi, _, hget⟩ := s.msgMgr.insertMsg_returns data.payload.bytes hroom
    have hslice : ∀ sm, m'.getOutgoingSlice s.msgMgr.nextSeq = some sm →
        sm.Suffix ∧ sm.data.length ≤ isizeMax := by
      intro sm hsm
      rw [hget] at hsm
      obtain rfl := Option.some.inj hsm
      exact ⟨SliceManager.fromVec_suffix _ _ _, data.payload.small⟩
    obtain ⟨⟨links, c'⟩, hsend⟩ := sendIfSome_returns s.links
      (c.log [.inserted data.tag m'.epoch s.msgMgr.nextSeq]) hslice
    simp only [hi, hsend, Option.bind_eq_bind, Option.bind_some]
    exact determineState_returns _ _ _

private theorem States.message_returns (hroom : st.Room c) (data : Submission)
    (epoch : Option Epoch) : ∃ r, st.ctrlMsg c now (.message data epoch) = some r := by
  cases st with
  | disconnected s =>
      simp only [ctrlMsg, Disconnected.ctrlMsg]
      split <;> exact ⟨_, rfl⟩
  | connecting s =>
      simp only [ctrlMsg, Connecting.ctrlMsg]
      split <;> exact ⟨_, rfl⟩
  | epochMismatch s =>
      simp only [ctrlMsg, EpochMismatch.ctrlMsg]
      split <;> exact ⟨_, rfl⟩
  | connected s => exact Connected.message_returns s (hroom.messages s.epoch s.msgMgr rfl) data epoch
  | reconnecting s =>
      simp only [ctrlMsg, Reconnecting.ctrlMsg]
      split
      · exact ⟨_, rfl⟩
      · obtain ⟨m', hi, _⟩ := s.msgMgr.insertMsg_returns data.payload.bytes
          (hroom.messages s.epoch s.msgMgr rfl)
        simp only [hi, Option.bind_eq_bind, Option.bind_some]
        exact ⟨_, rfl⟩
  | gracePeriod s =>
      simp only [ctrlMsg, GracePeriod.ctrlMsg]
      split
      · exact ⟨_, rfl⟩
      · obtain ⟨m', hi, _⟩ := s.msgMgr.insertMsg_returns data.payload.bytes
          (hroom.messages s.epoch s.msgMgr rfl)
        simp only [hi, Option.bind_eq_bind, Option.bind_some]
        exact ⟨_, rfl⟩

private theorem States.addConnector_returns (hstaffed : st.Staffed) (conn : Connector) :
    ∃ r, st.ctrlMsg c now (.addConnector conn) = some r := by
  obtain ⟨st', hadd, _⟩ := States.addConnector_spec conn hstaffed
  rw [States.ctrlMsg_addConnector, hadd]
  exact ⟨_, rfl⟩

private theorem States.ctrlMsg_returns (hroom : st.Room c) (hstaffed : st.Staffed)
    (cmd : LinkSetControlCommand Submission) : ∃ r, st.ctrlMsg c now cmd = some r := by
  cases cmd with
  | addConnector conn => exact States.addConnector_returns hstaffed conn
  | addLink link => exact States.addLink_returns hroom link
  | message data epoch => exact States.message_returns hroom data epoch
  | connect => cases st <;> exact ⟨_, rfl⟩
  | disconnect => cases st <;> exact ⟨_, rfl⟩
  | addAddress addr => cases st <;> exact ⟨_, rfl⟩

private theorem Connected.linkMsg_returns (s : Connected) (hcareful : s.msgMgr.Careful) (id : Nat)
    {msg : LinkProtocol} (hmsg : msg.Proper) : ∃ r, s.linkMsg c now id msg = some r := by
  cases msg with
  | reset epoch request =>
      simp only [linkMsg, linkReset]
      split
      · split
        · exact determineState_returns _ _ _
        · exact ⟨_, rfl⟩
      · exact ⟨_, rfl⟩
  | ack epoch seq lastIndex =>
      simp only [linkMsg]
      split <;> exact ⟨_, rfl⟩
  | msgSlice epoch seq seqLen firstIndex data =>
      simp only [linkMsg, linkSlice]
      split
      · obtain ⟨b, m1, out, m2, hrecv, htake⟩ := hcareful.recv_takeRecvd hmsg
        simp only [hrecv, htake, Option.bind_eq_bind, Option.bind_some]
        exact determineState_returns _ _ _
      · exact ⟨_, rfl⟩
  | ping => exact ⟨_, rfl⟩
  | pong => exact ⟨_, rfl⟩

private theorem linkDetached_returns {m : MessageManager} (hcareful : m.Careful) (e : Epoch)
    (c : CommonState) (stay : MessageManager → States) (leave : States × CommonState)
    {msg : LinkProtocol} (hmsg : msg.Proper) : ∃ r, linkDetached m e c stay leave msg = some r := by
  cases msg with
  | reset epoch request =>
      simp only [linkDetached]
      split <;> exact ⟨_, rfl⟩
  | ack epoch seq lastIndex =>
      simp only [linkDetached]
      split <;> exact ⟨_, rfl⟩
  | msgSlice epoch seq seqLen firstIndex data =>
      simp only [linkDetached]
      split
      · obtain ⟨b, m1, out, m2, hrecv, htake⟩ := hcareful.recv_takeRecvd hmsg
        simp only [recvDetached, hrecv, htake, Option.bind_eq_bind, Option.bind_some]
        exact ⟨_, rfl⟩
      · exact ⟨_, rfl⟩
  | ping => exact ⟨_, rfl⟩
  | pong => exact ⟨_, rfl⟩

private theorem States.linkMsg_returns (hroom : st.Room c)
    (hcareful : ∀ e m, st.mail.session = some (e, m) → m.Careful) (id : Nat) {msg : LinkProtocol}
    (hmsg : msg.Proper) : ∃ r, st.linkMsg c now id msg = some r := by
  cases st with
  | disconnected s => exact ⟨_, rfl⟩
  | connecting s => exact ⟨_, rfl⟩
  | epochMismatch s =>
      cases msg with
      | reset epoch request => exact EpochMismatch.linkReset_returns s c now epoch request hroom.queue
      | _ => exact ⟨_, rfl⟩
  | connected s => exact Connected.linkMsg_returns s (hcareful s.epoch s.msgMgr rfl) id hmsg
  | reconnecting s =>
      simp only [linkMsg, Reconnecting.linkMsg]
      exact linkDetached_returns (hcareful s.epoch s.msgMgr rfl) _ _ _ _ hmsg
  | gracePeriod s =>
      simp only [linkMsg, GracePeriod.linkMsg]
      exact linkDetached_returns (hcareful s.epoch s.msgMgr rfl) _ _ _ _ hmsg

private theorem Connected.timer_returns (s : Connected) (hcareful : s.msgMgr.Careful) :
    ∃ r, s.timer c now = some r := by
  have hslice : ∀ sm, (if (s.pingIfDue now).1.upkeep.isEmpty then none
      else s.msgMgr.getOutgoingSlices.head?) = some sm →
      sm.Suffix ∧ sm.data.length ≤ isizeMax := by
    intro sm hsm
    split at hsm
    · cases hsm
    · obtain ⟨k, hk⟩ := SortedMap.mem_values.mp (List.mem_of_head? hsm)
      obtain ⟨hsuffix, hlen, _⟩ := hcareful.outgoing k sm hk
      exact ⟨hsuffix, hlen⟩
  simp only [timer]
  obtain ⟨⟨links, c'⟩, hsend⟩ := sendIfSome_returns (s.pingIfDue now).1.upkeep
    (c.sent (s.pingIfDue now).2) hslice
  simp only [hsend, Option.bind_eq_bind, Option.bind_some]
  exact determineState_returns _ _ _

private theorem States.timer_returns (hcareful : ∀ e m, st.mail.session = some (e, m) → m.Careful) :
    ∃ r, st.timer c now = some r := by
  cases st with
  | disconnected s => exact ⟨_, rfl⟩
  | connecting s => exact ⟨_, rfl⟩
  | epochMismatch s =>
      simp only [timer, EpochMismatch.timer]
      split
      · split <;> exact ⟨_, rfl⟩
      · exact ⟨_, rfl⟩
  | connected s => exact Connected.timer_returns s (hcareful s.epoch s.msgMgr rfl)
  | reconnecting s =>
      simp only [timer, Reconnecting.timer]
      split <;> exact ⟨_, rfl⟩
  | gracePeriod s =>
      simp only [timer, GracePeriod.timer]
      split <;> exact ⟨_, rfl⟩

end returns

private theorem States.overAllocates_of_proper (st : States) {msg : LinkProtocol} (h : msg.Proper) :
    st.overAllocates msg = false := by
  have hmsg : ∀ e m, msg.overAllocates e m = false := by
    intro e m
    cases msg with
    | msgSlice epoch seq seqLen firstIndex data =>
        have hmax : ¬ isizeMax < seqLen := not_lt.mpr h.2.2.1
        simp [LinkProtocol.overAllocates, MessageManager.overAllocates, hmax]
    | _ => rfl
  cases st with
  | connected s => exact hmsg _ _
  | reconnecting s => exact hmsg _ _
  | gracePeriod s => exact hmsg _ _
  | _ => rfl

/-- What holds of a core that talks to an endpoint. -/
structure Core.Careful (core : Core) : Prop where
  orderly : core.Orderly
  books : core.books.Guarded LinkProtocol.Proper MessageManager.Careful
  given : ∃ inputs, Core.HasGiven inputs core

namespace Core

variable {core core' : Core} {now : Nat} {ev : Event}

private theorem careful_start : start.Careful where
  orderly := orderly_start
  books := guarded_start _ _
  given := by
    refine ⟨[], List.nodup_nil, fun _ => Iff.rfl, fun _ => rfl, ?_⟩
    intro hmanaged
    rcases hmanaged with h | h <;> cases h

private theorem Careful.step (h : core.Careful) (hev : ∀ id f, ev = .frame id f → f.Proper)
    (hstep : core.step (now, ev) = some core') : core'.Careful where
  orderly := h.orderly.step hstep
  books := h.books.chain guards_careful hev (fun _ _ => trivial) (h.orderly.dealt hstep).2
  given := by
    obtain ⟨inputs, hgiven⟩ := h.given
    exact ⟨_, hasGiven_step inputs core (now, ev) core' hgiven hstep⟩

private theorem Careful.returns (h : core.Careful) (now : Nat) (ev : Event)
    (hroom : core.state.Room core.common) (hawaits : core.awaits now ev = true)
    (hev : ∀ id f, ev = .frame id f → f.Proper) : ∃ core', core.step (now, ev) = some core' := by
  have hhandle : ∃ r, core.handle now ev = some r := by
    cases ev with
    | command cmd =>
        have hroom' : core.state.Room (tagged core.common cmd).2 := by
          cases cmd <;> exact ⟨hroom.links, hroom.queue, hroom.messages⟩
        obtain ⟨inputs, hgiven⟩ := h.given
        exact States.ctrlMsg_returns hroom' hgiven.staffed _
    | config conf => exact ⟨_, rfl⟩
    | frame id msg =>
        obtain ⟨r, hr⟩ := States.linkMsg_returns hroom h.books.session id (hev id msg rfl)
        exact ⟨r, (if_pos (by simpa [awaits] using hawaits)).trans hr⟩
    | timer =>
        obtain ⟨timer, htimer⟩ := Option.isSome_iff_exists.mp hawaits
        simp only [handle, htimer, Option.bind_eq_bind, Option.bind_some]
        exact States.timer_returns h.books.session
    | debug cmd => exact ⟨_, rfl⟩
    | permits addr count => exact ⟨_, rfl⟩
  obtain ⟨r, hr⟩ := hhandle
  exact ⟨⟨r.1, r.2⟩, by rw [Core.step, hr]; rfl⟩

end Core

namespace Pair

def Action.side : Action → Side
  | .locally side _ _ => side
  | .deliver side _ _ _ => side

def Action.now : Action → Nat
  | .locally _ now _ => now
  | .deliver _ now _ _ => now

/-- The event that an action brings about. -/
def event (p : Pair) : Action → Option Event
  | .locally _ _ (.frame _ _) => none
  | .locally _ _ ev => some ev
  | .deliver side _ reader n =>
      (sentFrames (p.peer side).common.record)[n]?.map fun frame => .frame reader frame

/-- The side that acts can add its timeouts to the time. -/
def Addable (p : Pair) (a : Action) : Prop := (p.core a.side).common.Addable a.now

instance (p : Pair) (a : Action) : Decidable (p.Addable a) :=
  inferInstanceAs (Decidable ((p.core a.side).common.Addable a.now))

variable {p p' : Pair} {a : Action}

theorem stepSide_of_step {side : Side} {input : Nat × Event} {core' : Core}
    (h : (p.core side).step input = some core') :
    ∃ p', p.stepSide side input = some p' ∧ p'.core side = core' ∧ p'.peer side = p.peer side := by
  cases side with
  | left =>
      have hleft : p.left.step input = some core' := h
      exact ⟨{ p with left := core' }, by rw [stepSide, hleft]; rfl, rfl, rfl⟩
  | right =>
      have hright : p.right.step input = some core' := h
      exact ⟨{ p with right := core' }, by rw [stepSide, hright]; rfl, rfl, rfl⟩

private theorem step_of_event {ev : Event} (h : p.event a = some ev) :
    p.step a = p.stepSide a.side (a.now, ev) := by
  cases a with
  | locally side now ev' =>
      cases ev' with
      | frame id f => cases h
      | _ =>
          cases h
          rfl
  | deliver side now reader n =>
      obtain ⟨f, hget, rfl⟩ := Option.map_eq_some_iff.mp h
      rw [step, hget]
      rfl

private theorem event_of_step (h : p.step a = some p') : ∃ ev, p.event a = some ev := by
  cases a with
  | locally side now ev =>
      cases ev with
      | frame id f => cases h
      | _ => exact ⟨_, rfl⟩
  | deliver side now reader n =>
      obtain ⟨f, hget, _⟩ := Option.bind_eq_some_iff.mp h
      exact ⟨.frame reader f, by rw [event, hget]; rfl⟩

private theorem frame_of_event {id : Nat} {f : LinkProtocol} (h : p.event a = some (.frame id f)) :
    f ∈ sentFrames (p.peer a.side).common.record := by
  cases a with
  | locally side now ev => cases ev <;> cases h
  | deliver side now reader n =>
      obtain ⟨f', hget, hf⟩ := Option.map_eq_some_iff.mp h
      cases hf
      exact List.mem_of_getElem? hget

theorem careful_of_run {actions : List Action} (hrun : run step start actions = some p) :
    ∀ side, (p.core side).Careful := by
  have hstart : ∀ side, (start.core side).Careful := by
    intro side
    cases side <;> exact Core.careful_start
  have hsent : ∀ core : Core, core.Careful → ∀ f ∈ sentFrames core.common.record, f.Proper :=
    fun core h => h.books.sent
  exact run_invariant (each_step hsent fun _ _ _ _ h hev hstep => h.step hev hstep) hstart hrun

theorem proper_of_run {actions : List Action} (hrun : run step start actions = some p)
    (side : Side) : ∀ f ∈ sentFrames (p.peer side).common.record, f.Proper := by
  cases side with
  | left => exact (careful_of_run hrun .right).books.sent
  | right => exact (careful_of_run hrun .left).books.sent

private theorem sane_step (p : Pair) (a : Action) (p' : Pair)
    (h : ∀ side, (p.core side).common.timer.Sane) (hadd : p.Addable a)
    (hstep : p.step a = some p') : ∀ side, (p'.core side).common.timer.Sane := by
  obtain ⟨ev, hev⟩ := event_of_step hstep
  rw [step_of_event hev] at hstep
  obtain ⟨hcore, hpeer⟩ := stepSide_eq_some hstep
  intro side
  by_cases hs : a.side = side
  · rw [← hs]
    exact Core.sane_step (h a.side) hadd hcore
  · rw [(peer_of_ne hs p').2, hpeer, ← (peer_of_ne hs p).2]
    exact h side

theorem sane_of_run {actions : List Action} (htimes : AllSteps step Addable start actions)
    (hrun : run step start actions = some p) : ∀ side, (p.core side).common.timer.Sane := by
  have hstart : ∀ side, (start.core side).common.timer.Sane := by
    intro side
    cases side <;> exact Deadline.sane_new
  exact run_invariant_of sane_step hstart htimes hrun

/-- In every reachable state of two endpoints, whatever was lost, repeated or reordered, each
command, timer and frame that has something to act on is handled without a panic, as long as the
numbers of links, queued messages and messages of the session do not run out and the timeouts can
always be added to the time. -/
theorem never_panics (actions : List Action) (p : Pair)
    (hrun : run step start actions = some p) (a : Action)
    (htimes : AllSteps step Addable start actions) (hadd : p.Addable a) (ev : Event)
    (hev : p.event a = some ev) (hawaits : (p.core a.side).awaits a.now ev = true)
    (hroom : (p.core a.side).state.Room (p.core a.side).common) :
    ∃ p', p.step a = some p' ∧ (p.core a.side).round a.now ev = .done (p'.core a.side) := by
  have hproper : ∀ id f, ev = .frame id f → f.Proper := by
    rintro id f rfl
    exact proper_of_run hrun a.side f (frame_of_event hev)
  obtain ⟨core', hcore⟩ := (careful_of_run hrun a.side).returns a.now ev hroom hawaits hproper
  obtain ⟨p', hp', rfl, _⟩ := stepSide_of_step hcore
  refine ⟨p', (step_of_event hev).trans hp', ?_⟩
  exact Core.round_of_step (sane_of_run htimes hrun a.side) hadd
    (fun id f hframe => States.overAllocates_of_proper _ (hproper id f hframe)) hcore

/-- Both sides get a link and meet, then the left one submits two bytes. -/
private def meetAndSubmit : List Action :=
  [.locally .left 0 (.command (.addLink steadyLink)),
    .locally .right 0 (.command (.addLink steadyLink)), .deliver .right 0 0 1, .deliver .left 0 0 1,
    .locally .left 0 (.command (.message ⟨[6, 9], by decide⟩ none))]

theorem never_panics_slice :
    ∃ p p', run step start meetAndSubmit = some p ∧
      p.event (.deliver .right 0 0 3) = some (.frame 0 (.msgSlice 1 0 2 0 [6, 9])) ∧
      p.step (.deliver .right 0 0 3) = some p' ∧
      p.right.round 0 (.frame 0 (.msgSlice 1 0 2 0 [6, 9])) = .done p'.right := by
  have hroom : ∀ p, run step start meetAndSubmit = some p → p.right.state.Room p.right.common := by
    intro p hp
    cases hp
    refine ⟨by decide, by decide, ?_⟩
    intro e m hm
    cases hm
    decide
  obtain ⟨p', hp', hround⟩ := never_panics meetAndSubmit _ rfl (.deliver .right 0 0 3) (by decide)
    (by decide) (.frame 0 (.msgSlice 1 0 2 0 [6, 9])) rfl (by decide) (hroom _ rfl)
  exact ⟨_, p', rfl, rfl, hp', hround⟩

end Pair

end LinkSet
