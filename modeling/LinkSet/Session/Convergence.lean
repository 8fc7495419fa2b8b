import LinkSet.Mail.Provenance
import LinkSet.Session.Agreement
import LinkSet.Session.Negotiation

/-!
# Two endpoints negotiate their epoch

Two cores joined by a link that loses nothing and keeps the order of its frames. Their resets
follow the negotiation protocol; the slices and acknowledgements that a new session sends on the
side have no effect on it and run out.
-/

namespace LinkSet

open Framework

/-- The resets among some frames. -/
def resets (frames : List LinkProtocol) : List ResetFrame :=
  frames.filterMap fun
    | .reset epoch request => some (epoch, request)
    | _ => none

@[simp] theorem resets_append (f g : List LinkProtocol) : resets (f ++ g) = resets f ++ resets g :=
  List.filterMap_append

theorem resets_eq_nil {frames : List LinkProtocol}
    (h : ∀ f ∈ frames, ∀ epoch request, f ≠ .reset epoch request) : resets frames = [] := by
  apply List.filterMap_eq_nil_iff.mpr
  intro f hf
  cases f with
  | reset epoch request => exact absurd rfl (h _ hf epoch request)
  | _ => rfl

/-- A slice is answered by at most one acknowledgement, and an acknowledgement by nothing. -/
def LinkProtocol.weight : LinkProtocol → Nat
  | .msgSlice _ _ _ _ _ => 2
  | .ack _ _ _ => 1
  | _ => 0

def weight (frames : List LinkProtocol) : Nat := (frames.map LinkProtocol.weight).sum

@[simp] theorem weight_append (f g : List LinkProtocol) : weight (f ++ g) = weight f + weight g := by
  simp [weight]

/-- What the two endpoints send each other: resets, acknowledgements and slices of messages that
fit a vector. -/
def LinkProtocol.Honest : LinkProtocol → Prop
  | .reset _ _ => True
  | .ack _ _ _ => True
  | .msgSlice _ seq seqLen firstIndex data =>
      seq < 2 ^ 63 ∧ firstIndex + seqLen < 2 ^ 64 ∧ firstIndex + data.length < 2 ^ 64 ∧
        seqLen ≠ 0 ∧ data ≠ []
  | .ping => False
  | .pong => False

@[simp] theorem sentFrames_append (r t : List Effect) :
    sentFrames (r ++ t) = sentFrames r ++ sentFrames t := List.filterMap_append

@[simp] theorem sentFrames_wire (frames : List Sent) :
    sentFrames (wire frames) = frames.map Prod.snd := by
  induction frames with
  | nil => rfl
  | cons f frames ih => exact congrArg (f.2 :: ·) ih

/-- A manager that can take every honest slice: some number of the upper half is unused. -/
structure MessageManager.Open (m : MessageManager) : Prop where
  receiving : ∃ n, Receiving m n
  room : ∃ s, 2 ^ 63 ≤ s ∧ s < 2 ^ 64 ∧ m.incomingSlices.get s = none

namespace MessageManager

variable {m m' : MessageManager}

private theorem open_new (epoch : Epoch) : (MessageManager.new epoch).Open :=
  ⟨⟨0, receiving_new epoch⟩, 2 ^ 63, by decide, by decide, by simp [new]⟩

private theorem Open.congr (h : m.Open) (hincoming : m'.incomingSlices = m.incomingSlices)
    (hack : m'.lastAck = m.lastAck) (hepoch : m'.epoch = m.epoch) : m'.Open := by
  obtain ⟨n, hrec⟩ := h.receiving
  refine ⟨⟨n, hrec.congr hincoming hack hepoch⟩, ?_⟩
  rw [hincoming]
  exact h.room

private theorem Open.recvAck (h : m.Open) (ack : Nat × Nat) : (m.recvAck ack).Open := by
  obtain ⟨hepoch, _, hincoming, hack⟩ := m.recvAck_fields ack
  exact h.congr hincoming hack hepoch

private theorem Open.safeSlice (h : m.Open) {epoch seq seqLen firstIndex : Nat} {data : List UInt8}
    (hslice : (LinkProtocol.msgSlice epoch seq seqLen firstIndex data).Honest) :
    SafeSlice m seq firstIndex seqLen data := by
  obtain ⟨hseq, hsum, hfit, hlen, _⟩ := hslice
  obtain ⟨s, hs, hs', hnone⟩ := h.room
  refine Or.inr ⟨fun _ => hsum, Or.inr ⟨hfit, fun _ => hlen, ?_⟩⟩
  intro hall
  obtain ⟨sm, hsm, _⟩ := hall.2.2 s (by omega) hs'
  rw [hnone] at hsm
  cases hsm

private theorem Open.recv_takeRecvd (h : m.Open) {epoch seq seqLen firstIndex : Nat}
    {data : List UInt8} (hslice : (LinkProtocol.msgSlice epoch seq seqLen firstIndex data).Honest) :
    ∃ b m1 out m2, m.recv seq firstIndex seqLen data = some (b, m1) ∧
      m1.takeRecvd = some (out, m2) ∧ m2.Open := by
  have hdata := hslice.2.2.2.2
  obtain ⟨n, hrec⟩ := h.receiving
  obtain ⟨⟨b, m1⟩, hrecv⟩ := (hrec.recv_isSome_iff hdata).mpr (h.safeSlice hslice)
  obtain ⟨out, m2, htake, hrec2, _⟩ := (hrec.recv hrecv).takeRecvd
  refine ⟨b, m1, out, m2, hrecv, htake, ⟨_, hrec2⟩, ?_⟩
  obtain ⟨s, hs, hs', hnone⟩ := h.room
  refine ⟨s, hs, hs', ?_⟩
  have hnone1 : m1.incomingSlices.get s = none := by
    by_contra hsome
    obtain ⟨sm, hsm⟩ := Option.ne_none_iff_exists'.mp hsome
    rcases (hrec.recv_stored hdata hrecv).entry s sm hsm with hold | ⟨hseq, _⟩
    · rw [hnone] at hold
      cases hold
    · have hlt := hslice.1
      omega
  obtain ⟨_, rfl⟩ := MessageManager.takeRecvd_eq_some.mp htake
  simp only [SortedMap.get_splitOff_snd, hnone1, ite_self]

end MessageManager

/-- An endpoint that takes part in a negotiation. -/
def States.Engaged : States → Prop
  | .epochMismatch s => s.links.Joined ∧ s.queuedMsgs.length ≤ isizeMax
  | .connected s => s.links.Joined ∧ s.msgMgr.Open
  | _ => False

/-- What a handler of an engaged endpoint leaves, with the frames it sent. -/
structure Answers (c : CommonState) (r : States × CommonState) (frames : List LinkProtocol) :
    Prop where
  engaged : r.1.Engaged
  readers : r.2.readers = c.readers
  record : ∃ delta, r.2.record = c.record ++ delta ∧ sentFrames delta = frames
  honest : ∀ f ∈ frames, f.Honest

private theorem Answers.nothing {st : States} (hst : st.Engaged) (c : CommonState) :
    Answers c (st, c) [] :=
  ⟨hst, rfl, ⟨[], (List.append_nil _).symm, rfl⟩, by simp⟩

private theorem Answers.deliver {c c1 : CommonState} {st : States} {frames : List LinkProtocol}
    (h : Answers c (st, c1) frames) (epoch : Epoch) (msgs : List (List UInt8)) :
    Answers c (st, c1.deliver epoch msgs) frames := by
  obtain ⟨delta, hrecord, hsent⟩ := h.record
  have hnone : sentFrames (msgs.map fun msg => .toCtrl (.message msg epoch)) = [] := by
    simp [sentFrames]
  refine ⟨h.engaged, h.readers,
    ⟨delta ++ msgs.map fun msg => .toCtrl (.message msg epoch), ?_, ?_⟩, h.honest⟩
  · rw [CommonState.deliver_record, hrecord, List.append_assoc]
  · rw [sentFrames_append, hsent, hnone, List.append_nil]

private theorem Answers.sendProto {st : States} (hst : st.Engaged) (c : CommonState)
    {links : LinkManager} (hlinks : links.Joined) {proto : LinkProtocol} (hproto : proto.Honest) :
    Answers c (st, c.sent (links.sendProto proto).frames) [proto] := by
  obtain ⟨_, id, hframes⟩ := hlinks.sendProto proto
  refine ⟨hst, rfl, ⟨wire (links.sendProto proto).frames, rfl, ?_⟩, ?_⟩
  · rw [sentFrames_wire, hframes]
    rfl
  · intro f hf
    rw [List.mem_singleton] at hf
    rw [hf]
    exact hproto

private theorem Answers.after_reset {c : CommonState} {r : States × CommonState}
    {frames : List LinkProtocol} {links : LinkManager} (hlinks : links.Joined)
    (epoch : Option Epoch) (request : Bool)
    (h : Answers (c.sent (links.reset epoch request).frames) r frames) :
    Answers c r (.reset epoch request :: frames) := by
  obtain ⟨_, id, hframes⟩ := hlinks.sendProto (.reset epoch request)
  obtain ⟨delta, hrecord, hsent⟩ := h.record
  refine ⟨h.engaged, h.readers, ⟨wire (links.reset epoch request).frames ++ delta, ?_, ?_⟩, ?_⟩
  · rw [hrecord, CommonState.sent_record, List.append_assoc]
  · rw [sentFrames_append, sentFrames_wire, LinkManager.reset, hframes, hsent]
    rfl
  · intro f hf
    rcases List.mem_cons.mp hf with rfl | hf
    · trivial
    · exact h.honest f hf

namespace Connected

private theorem determineState_joined {s : Connected} (h : s.links.Joined) (c : CommonState)
    (now : Nat) : determineState s c now = some (.connected s, c) := by
  obtain ⟨e, hlinks, _⟩ := h
  unfold determineState
  rw [if_neg (by simp [LinkManager.isEmpty, hlinks])]

private theorem honest_of_piece {d piece : List UInt8} {epoch seq firstIndex : Nat}
    (hseq : seq < isizeMax) (hd : d.length ≤ isizeMax) (h : IsPiece d firstIndex piece) :
    (LinkProtocol.msgSlice epoch seq d.length firstIndex piece).Honest := by
  have hmax : isizeMax = 2 ^ 63 - 1 := rfl
  have hlen := h.length_le
  have hpos := List.length_pos_of_ne_nil h.1
  exact ⟨by omega, by omega, by omega, by omega, h.1⟩

private theorem sendQueued_joined {mgr : MessageManager} {links : LinkManager} (c : CommonState)
    (msg : Submission) (hlinks : links.Joined) (hseq : mgr.nextSeq < isizeMax) :
    ∃ mgr' links' c' delta, sendQueued mgr links c msg = some (mgr', links', c') ∧
      links'.Joined ∧ c'.readers = c.readers ∧ c'.record = c.record ++ delta ∧
      resets (sentFrames delta) = [] ∧ (∀ f ∈ sentFrames delta, f.Honest) ∧
      mgr'.nextSeq = mgr.nextSeq + 1 ∧ (mgr.Open → mgr'.Open) := by
  have hmax : isizeMax = 2 ^ 63 - 1 := rfl
  have hsmall := msg.payload.small
  let sm := SliceManager.fromVec mgr.epoch mgr.nextSeq msg.payload.bytes
  let mgr' : MessageManager :=
    { mgr with
      nextSeq := mgr.nextSeq + 1
      outgoingSlices := mgr.outgoingSlices.insert mgr.nextSeq sm }
  have hinsert : mgr.insertMsg msg.payload.bytes = some (mgr.nextSeq, mgr') :=
    MessageManager.insertMsg_eq_some.mpr ⟨by omega, rfl, rfl⟩
  have hget : mgr'.getOutgoingSlice mgr.nextSeq = some sm := SortedMap.get_insert_self _ _ _
  have hslices : ∀ size < 2 ^ 32, ∃ protos, sm.getSlices size = some protos := fun size hsize =>
    (SliceManager.fromVec_outstanding _ _ _).getSlices hsmall hsize
  obtain ⟨out, hout, hjoined⟩ := hlinks.sendSlices hslices
  let entry := Effect.inserted msg.tag mgr.epoch mgr.nextSeq
  have hsent : sentFrames (entry :: wire out.frames) = out.frames.map Prod.snd :=
    sentFrames_wire out.frames
  have hpieces : ∀ f ∈ out.frames.map Prod.snd, ∃ firstIndex piece,
      f = .msgSlice mgr.epoch.toInt mgr.nextSeq msg.payload.bytes.length firstIndex piece ∧
        IsPiece msg.payload.bytes firstIndex piece := by
    intro f hf
    obtain ⟨f', hf', rfl⟩ := List.mem_map.mp hf
    exact LinkManager.sendSlices_pieces hout f' hf'
  refine ⟨mgr', out.links, (c.log [entry]).sent out.frames, entry :: wire out.frames, ?_, hjoined,
    rfl, by simp, ?_, ?_, rfl, fun h => h.congr rfl rfl rfl⟩
  · simp only [sendQueued, hinsert, Option.bind_eq_bind, Option.bind_some, hget, hout]
    rfl
  · rw [hsent]
    apply resets_eq_nil
    intro f hf epoch request hreset
    obtain ⟨firstIndex, piece, hslice, _⟩ := hpieces f hf
    rw [hslice] at hreset
    cases hreset
  · rw [hsent]
    intro f hf
    obtain ⟨firstIndex, piece, hslice, hpiece⟩ := hpieces f hf
    rw [hslice]
    exact honest_of_piece hseq hsmall hpiece

private theorem sendAllQueued_joined {mgr : MessageManager} {links : LinkManager} (c : CommonState)
    (queue : List Submission) (hlinks : links.Joined)
    (hseq : mgr.nextSeq + queue.length ≤ isizeMax) (hopen : mgr.Open) :
    ∃ mgr' links' c' delta, sendAllQueued mgr links c queue = some (mgr', links', c') ∧
      links'.Joined ∧ c'.readers = c.readers ∧ c'.record = c.record ++ delta ∧
      resets (sentFrames delta) = [] ∧ (∀ f ∈ sentFrames delta, f.Honest) ∧ mgr'.Open := by
  induction queue generalizing mgr links c with
  | nil => exact ⟨mgr, links, c, [], rfl, hlinks, rfl, by simp, rfl, by simp [sentFrames], hopen⟩
  | cons msg queue ih =>
      simp only [List.length_cons] at hseq
      obtain ⟨mgr1, links1, c1, delta1, hone, hlinks1, hreaders1, hrecord1, hresets1, hhonest1,
        hseq1, hopen1⟩ := sendQueued_joined c msg hlinks (show mgr.nextSeq < isizeMax by omega)
      obtain ⟨mgr2, links2, c2, delta2, hall, hlinks2, hreaders2, hrecord2, hresets2, hhonest2,
        hopen2⟩ := ih c1 hlinks1 (by omega) (hopen1 hopen)
      refine ⟨mgr2, links2, c2, delta1 ++ delta2, ?_, hlinks2, hreaders2.trans hreaders1, ?_, ?_, ?_,
        hopen2⟩
      · rw [sendAllQueued, hone, Option.bind_some]
        exact hall
      · rw [hrecord2, hrecord1, List.append_assoc]
      · rw [sentFrames_append, resets_append, hresets1, hresets2, List.append_nil]
      · intro f hf
        rw [sentFrames_append, List.mem_append] at hf
        exact hf.elim (hhonest1 f) (hhonest2 f)

private theorem fromEpochMismatch_joined (old : EpochMismatch) (c : CommonState) (now : Nat)
    (e : Epoch) (hlinks : old.links.Joined) (hqueue : old.queuedMsgs.length ≤ isizeMax) :
    ∃ s c' frames, Connected.fromEpochMismatch old c now e = some (s, c') ∧ s.epoch = e ∧
      Answers c (.connected s, c') frames ∧ resets frames = [] := by
  obtain ⟨mgr, links, c', delta, hall, hjoined, hreaders, hrecord, hresets, hhonest, hopen⟩ :=
    sendAllQueued_joined ((c.send (.connected e)).log [.newManager e]) old.queuedMsgs hlinks
      (show (MessageManager.new e).nextSeq + _ ≤ _ by simpa [MessageManager.new] using hqueue)
      (MessageManager.open_new e)
  have hmade : Connected.fromEpochMismatch old c now e =
      some (⟨old.conns, old.addrs, links, mgr, e, old.lastPing⟩,
        ((c'.modifyTimer Deadline.clear).modifyTimer fun d =>
          d.modifyRepeat now connectedTimerInterval).setActive true) := by
    simp only [fromEpochMismatch, hall, Option.bind_eq_bind, Option.bind_some]
    rfl
  refine ⟨_, _, sentFrames delta, hmade, rfl, ⟨⟨hjoined, hopen⟩, hreaders, ?_, hhonest⟩, hresets⟩
  refine ⟨[.toCtrl (.connected e), .newManager e] ++ delta, ?_, rfl⟩
  show c'.record = _
  rw [hrecord]
  simp

end Connected

private theorem EpochMismatch.linkReset_joined {s : EpochMismatch}
    (h : (States.epochMismatch s).Engaged) (c : CommonState) (now : Nat) (epoch : Option Epoch)
    (request : Bool) :
    ∃ r frames, s.linkReset c now epoch request = some r ∧ Answers c r frames ∧
      (r.1.phase, resets frames) = Phase.negotiate (.mismatch s.epoch) epoch request := by
  obtain ⟨conns, addrs, links, queuedMsgs, own, lastPing⟩ := s
  obtain ⟨hlinks, hqueue⟩ := h
  have hreset : ∀ ep, (links.reset ep false).links.Joined := fun ep =>
    (hlinks.sendProto (.reset ep false)).1
  unfold linkReset
  cases hcmp : compareEpochs own epoch with
  | gt =>
      rw [Phase.negotiate_gt hcmp]
      have hst : (States.epochMismatch ⟨conns, addrs, (links.reset own false).links, queuedMsgs, own,
        lastPing⟩).Engaged := ⟨hreset own, hqueue⟩
      exact ⟨_, _, rfl, Answers.sendProto hst c hlinks trivial, rfl⟩
  | eq =>
      rw [Phase.negotiate_eq hcmp]
      obtain ⟨e, rfl⟩ := Option.ne_none_iff_exists'.mp (compareEpochs_eq_eq.mp hcmp).2
      cases request with
      | true =>
          obtain ⟨s', c', frames, hmade, rfl, hans, hresets⟩ :=
            Connected.fromEpochMismatch_joined ⟨conns, addrs, (links.reset (some e) false).links,
              queuedMsgs, some e, lastPing⟩ (c.sent (links.reset (some e) false).frames) now e
              (hreset _) hqueue
          refine ⟨(.connected s', c'), _, ?_, hans.after_reset hlinks _ _, ?_⟩
          · simp only [if_true, Option.bind_eq_bind, Option.bind_some, hmade]
            rfl
          · simp only [if_true, ← hresets]
            rfl
      | false =>
          obtain ⟨s', c', frames, hmade, rfl, hans, hresets⟩ :=
            Connected.fromEpochMismatch_joined ⟨conns, addrs, links, queuedMsgs, some e, lastPing⟩ c
              now e hlinks hqueue
          refine ⟨(.connected s', c'), frames, ?_, hans, ?_⟩
          · simp only [Bool.false_eq_true, if_false, Option.bind_eq_bind, Option.bind_some, hmade]
            rfl
          · simp only [Bool.false_eq_true, if_false, ← hresets]
            rfl
  | lt =>
      rw [Phase.negotiate_lt hcmp]
      obtain ⟨s', c', frames, hmade, hepoch, hans, hresets⟩ :=
        Connected.fromEpochMismatch_joined ⟨conns, addrs,
          (links.reset (some (epoch.getD Epoch.one)) false).links, queuedMsgs, epoch, lastPing⟩
          (c.sent (links.reset (some (epoch.getD Epoch.one)) false).frames) now
          (epoch.getD Epoch.one) (hreset _) hqueue
      refine ⟨(.connected s', c'), _, ?_, hans.after_reset hlinks _ _, ?_⟩
      · simp only [Option.bind_eq_bind, hmade]
        rfl
      · simp only [← hresets, ← hepoch]
        rfl

private theorem Connected.linkReset_joined {s : Connected} (h : (States.connected s).Engaged)
    (c : CommonState) (now : Nat) (epoch : Option Epoch) (request : Bool) :
    ∃ r frames, s.linkReset c now epoch request = some r ∧ Answers c r frames ∧
      (r.1.phase, resets frames) = Phase.negotiate (.connected s.epoch) epoch request := by
  obtain ⟨hlinks, hopen⟩ := h
  have hreset : ∀ ep req, (s.links.reset ep req).links.Joined := fun ep req =>
    (hlinks.sendProto (.reset ep req)).1
  unfold Connected.linkReset Phase.negotiate
  cases request with
  | false =>
      have hst : (States.connected s).Engaged := ⟨hlinks, hopen⟩
      exact ⟨_, [], rfl, Answers.nothing hst c, rfl⟩
  | true =>
      by_cases hepoch : epoch = some s.epoch
      · simp only [if_true, if_pos hepoch]
        let s' := { s with links := (s.links.reset (some s.epoch) false).links }
        have hst : (States.connected s').Engaged := ⟨hreset _ _, hopen⟩
        exact ⟨_, [.reset (some s.epoch) false], determineState_joined (hreset _ _) _ now,
          Answers.sendProto hst c hlinks trivial, rfl⟩
      · simp only [if_true, if_neg hepoch]
        have hst : (States.epochMismatch (EpochMismatch.fromConnected s c now).1).Engaged :=
          ⟨hreset _ _, Nat.zero_le _⟩
        have hans := Answers.sendProto hst c hlinks
          (show (LinkProtocol.reset (some s.epoch.increment) true).Honest from trivial)
        exact ⟨_, _, rfl, ⟨hans.engaged, hans.readers, hans.record, hans.honest⟩, rfl⟩

private theorem Connected.linkSlice_joined {s : Connected} (h : (States.connected s).Engaged)
    (c : CommonState) (now : Nat) {epoch seq seqLen firstIndex : Nat} {data : List UInt8}
    (hslice : (LinkProtocol.msgSlice epoch seq seqLen firstIndex data).Honest) :
    ∃ r frames, s.linkSlice c now epoch seq seqLen firstIndex data = some r ∧ Answers c r frames ∧
      r.1.phase = .connected s.epoch ∧ resets frames = [] ∧ weight frames < 2 := by
  obtain ⟨hlinks, hopen⟩ := h
  unfold Connected.linkSlice
  by_cases hepoch : epoch = s.epoch.toInt
  · obtain ⟨b, m1, out, m2, hrecv, htake, hopen2⟩ := hopen.recv_takeRecvd hslice
    rw [if_pos hepoch]
    simp only [hrecv, Option.bind_eq_bind, Option.bind_some, htake]
    cases b with
    | true =>
        simp only [if_true]
        let links := (s.links.ack s.epoch m1.lastAck).links
        have hjoined : links.Joined := (hlinks.sendProto _).1
        have hst : (States.connected { s with msgMgr := m2, links := links }).Engaged :=
          ⟨hjoined, hopen2⟩
        have hack : (LinkProtocol.ack s.epoch.toInt m1.lastAck.1 m1.lastAck.2).Honest := trivial
        exact ⟨_, _, determineState_joined hjoined _ now,
          (Answers.sendProto hst c hlinks hack).deliver s.epoch out, rfl, rfl,
          by simp [weight, LinkProtocol.weight]⟩
    | false =>
        simp only [Bool.false_eq_true, if_false]
        have hst : (States.connected { s with msgMgr := m2 }).Engaged := ⟨hlinks, hopen2⟩
        have hstay := @determineState_joined { s with msgMgr := m2 } hlinks
        exact ⟨_, _, hstay _ now, (Answers.nothing hst c).deliver s.epoch out, rfl, rfl, by decide⟩
  · rw [if_neg hepoch]
    have hst : (States.connected s).Engaged := ⟨hlinks, hopen⟩
    exact ⟨_, [], rfl, Answers.nothing hst c, rfl, rfl, by decide⟩

namespace States

variable {st : States} {c : CommonState} {now id : Nat}

private theorem linkMsg_reset (h : st.Engaged) (c : CommonState) (now id : Nat)
    (epoch : Option Epoch) (request : Bool) :
    ∃ r frames, st.linkMsg c now id (.reset epoch request) = some r ∧ Answers c r frames ∧
      (r.1.phase, resets frames) = st.phase.negotiate epoch request := by
  cases st with
  | epochMismatch s => exact EpochMismatch.linkReset_joined h c now epoch request
  | connected s => exact Connected.linkReset_joined h c now epoch request
  | _ => exact h.elim

/-- Any other honest frame leaves its phase alone and brings less than it takes away. -/
private theorem linkMsg_other (h : st.Engaged) (c : CommonState) (now id : Nat) {msg : LinkProtocol}
    (hmsg : msg.Honest) (hother : ∀ epoch request, msg ≠ .reset epoch request) :
    ∃ r frames, st.linkMsg c now id msg = some r ∧ Answers c r frames ∧
      r.1.phase = st.phase ∧ resets frames = [] ∧ weight frames < msg.weight := by
  cases msg with
  | reset epoch request => exact absurd rfl (hother epoch request)
  | ping => exact hmsg.elim
  | pong => exact hmsg.elim
  | ack epoch seq lastIndex =>
      cases st with
      | epochMismatch s => exact ⟨_, [], rfl, Answers.nothing h c, rfl, rfl, Nat.one_pos⟩
      | connected s =>
          have hack : (States.connected { s with msgMgr := s.msgMgr.recvAck (seq, lastIndex) }).Engaged :=
            ⟨h.1, MessageManager.Open.recvAck h.2 (seq, lastIndex)⟩
          by_cases hepoch : epoch = s.epoch.toInt
          · simp only [linkMsg, Connected.linkMsg, if_pos hepoch]
            exact ⟨_, [], rfl, Answers.nothing hack c, rfl, rfl, Nat.one_pos⟩
          · simp only [linkMsg, Connected.linkMsg, if_neg hepoch]
            exact ⟨_, [], rfl, Answers.nothing h c, rfl, rfl, Nat.one_pos⟩
      | _ => exact h.elim
  | msgSlice epoch seq seqLen firstIndex data =>
      cases st with
      | epochMismatch s =>
          exact ⟨_, [], rfl, Answers.nothing h c, rfl, rfl, Nat.two_pos⟩
      | connected s => exact Connected.linkSlice_joined h c now hmsg
      | _ => exact h.elim

end States

/-- The frames that a core handed to its links between two states. -/
def Core.newFrames (core core' : Core) : List LinkProtocol :=
  sentFrames (core'.common.record.drop core.common.record.length)

private theorem Core.newFrames_eq {core core' : Core} {frames : List LinkProtocol}
    (h : Answers core.common (core'.state, core'.common) frames) :
    core.newFrames core' = frames := by
  obtain ⟨delta, hrecord, hsent⟩ := h.record
  simp only at hrecord
  rw [newFrames, hrecord, List.drop_left, hsent]

/-- Two cores and the frames on the way to each of them, oldest first. -/
structure Joint where
  left : Core
  right : Core
  toLeft : List LinkProtocol
  toRight : List LinkProtocol

namespace Joint

def swap (j : Joint) : Joint := ⟨j.right, j.left, j.toRight, j.toLeft⟩

/-- The next frame for the left core arrives, and what it sends is on the way to the right one. -/
def deliverLeft (j : Joint) (now id : Nat) : Option Joint :=
  match j.toLeft with
  | [] => none
  | frame :: rest =>
      (j.left.arrive ⟨now, id, frame⟩).map fun left =>
        ⟨left, j.right, rest, j.toRight ++ j.left.newFrames left⟩

/-- A delivery: to which side, when and over which of its readers. -/
structure Delivery where
  side : Side
  now : Nat
  id : Nat

def deliver (j : Joint) (d : Delivery) : Option Joint :=
  match d.side with
  | .left => j.deliverLeft d.now d.id
  | .right => (j.swap.deliverLeft d.now d.id).map swap

/-- What holds throughout a negotiation, with its rank: the resets still to come, and then the
weight of the other frames. -/
structure Inv (lo : Nat) (rank : Nat × Nat) (j : Joint) : Prop where
  left : j.left.state.Engaged
  right : j.right.state.Engaged
  leftReaders : j.left.common.readers ≠ []
  rightReaders : j.right.common.readers ≠ []
  honestLeft : ∀ f ∈ j.toLeft, f.Honest
  honestRight : ∀ f ∈ j.toRight, f.Honest
  course : Phase.Course lo rank.1 j.left.state.phase (resets j.toLeft) j.right.state.phase
    (resets j.toRight)
  weight : rank.2 = weight j.toLeft + weight j.toRight

variable {lo : Nat} {rank : Nat × Nat} {j : Joint}

private theorem Inv.swap (h : Inv lo rank j) : Inv lo rank j.swap :=
  ⟨h.right, h.left, h.rightReaders, h.leftReaders, h.honestRight, h.honestLeft, h.course.symm,
    h.weight.trans (Nat.add_comm _ _)⟩

/-- The order on ranks. -/
abbrev Lower : Nat × Nat → Nat × Nat → Prop := Prod.Lex (· < ·) (· < ·)

section left

variable {frame : LinkProtocol} {rest frames : List LinkProtocol} {now id : Nat}
  {r : States × CommonState}

private theorem deliverLeft_eq (hto : j.toLeft = frame :: rest) (hid : id ∈ j.left.common.readers)
    (hr : j.left.state.linkMsg j.left.common now id frame = some r)
    (hans : Answers j.left.common r frames) :
    j.deliverLeft now id = some ⟨⟨r.1, r.2⟩, j.right, rest, j.toRight ++ frames⟩ := by
  have harrive : j.left.arrive ⟨now, id, frame⟩ = some ⟨r.1, r.2⟩ := by
    rw [Core.arrive_eq hid, hr]
    rfl
  have hnew : j.left.newFrames ⟨r.1, r.2⟩ = frames := Core.newFrames_eq hans
  simp only [deliverLeft, hto, harrive, Option.map_some, hnew]

private theorem Inv.answered (h : Inv lo rank j) (hto : j.toLeft = frame :: rest)
    (hans : Answers j.left.common r frames) {k : Nat}
    (hcourse : Phase.Course lo k r.1.phase (resets rest) j.right.state.phase
      (resets j.toRight ++ resets frames)) :
    Inv lo (k, LinkSet.weight rest + (LinkSet.weight j.toRight + LinkSet.weight frames))
      ⟨⟨r.1, r.2⟩, j.right, rest, j.toRight ++ frames⟩ where
  left := hans.engaged
  right := h.right
  leftReaders := by
    rw [hans.readers]
    exact h.leftReaders
  rightReaders := h.rightReaders
  honestLeft := fun f hf => h.honestLeft f (by simp [hto, hf])
  honestRight := by
    intro f hf
    rcases List.mem_append.mp hf with hf | hf
    · exact h.honestRight f hf
    · exact hans.honest f hf
  course := by
    rw [resets_append]
    exact hcourse
  weight := by rw [weight_append]

private theorem Inv.deliverLeft (h : Inv lo rank j) (hto : j.toLeft = frame :: rest) (now : Nat)
    (hid : id ∈ j.left.common.readers) :
    ∃ j' rank', j.deliverLeft now id = some j' ∧ Lower rank' rank ∧ Inv lo rank' j' := by
  have hcourse := h.course
  rw [hto] at hcourse
  by_cases hreset : ∃ epoch request, frame = .reset epoch request
  · obtain ⟨epoch, request, rfl⟩ := hreset
    obtain ⟨r, frames, hr, hans, hneg⟩ :=
      States.linkMsg_reset h.left j.left.common now id epoch request
    obtain ⟨k, hk, hcourse'⟩ := Phase.Course.deliver hcourse
    rw [← hneg] at hcourse'
    exact ⟨_, _, deliverLeft_eq hto hid hr hans, Prod.Lex.left _ _ hk, h.answered hto hans hcourse'⟩
  · have hother : ∀ epoch request, frame ≠ .reset epoch request := fun epoch request heq =>
      hreset ⟨epoch, request, heq⟩
    obtain ⟨r, frames, hr, hans, hphase, hresets, hless⟩ :=
      States.linkMsg_other h.left j.left.common now id (h.honestLeft frame (by simp [hto])) hother
    have hrest : resets (frame :: rest) = resets rest := by
      cases frame with
      | reset epoch request => exact absurd rfl (hother epoch request)
      | _ => rfl
    have hcourse' : Phase.Course lo rank.1 r.1.phase (resets rest) j.right.state.phase
        (resets j.toRight ++ resets frames) := by
      rw [hphase, hresets, List.append_nil, ← hrest]
      exact hcourse
    have hweight : LinkSet.weight rest + (LinkSet.weight j.toRight + LinkSet.weight frames) <
        rank.2 := by
      rw [h.weight, hto]
      simp only [LinkSet.weight, List.map_cons, List.sum_cons] at hless ⊢
      omega
    exact ⟨_, _, deliverLeft_eq hto hid hr hans, Prod.Lex.right _ hweight,
      h.answered hto hans hcourse'⟩

end left

/-- Whatever is delivered, the rank goes down. -/
private theorem Inv.step (h : Inv lo rank j) {now id : Nat} {j' : Joint}
    (hstep : j.deliverLeft now id = some j') : ∃ rank', Lower rank' rank ∧ Inv lo rank' j' := by
  cases hto : j.toLeft with
  | nil =>
      simp only [Joint.deliverLeft, hto] at hstep
      cases hstep
  | cons frame rest =>
      have hid : id ∈ j.left.common.readers := by
        by_contra hid
        simp only [Joint.deliverLeft, hto, Core.arrive, Core.step, Core.handle, if_neg hid,
          Option.map_none] at hstep
        cases hstep
      obtain ⟨j1, rank', hj1, hlower, hinv⟩ := h.deliverLeft hto now hid
      rw [hstep] at hj1
      cases hj1
      exact ⟨rank', hlower, hinv⟩

theorem Inv.toLeft_eq_nil (h : Inv lo rank j) (hstuck : ∀ now id, j.deliverLeft now id = none) :
    j.toLeft = [] := by
  cases hto : j.toLeft with
  | nil => rfl
  | cons frame rest =>
      obtain ⟨id, hid⟩ := List.exists_mem_of_ne_nil _ h.leftReaders
      obtain ⟨j', _, hj', _⟩ := h.deliverLeft hto 0 hid
      rw [hstuck 0 id] at hj'
      cases hj'

/-- Nothing is on the way and both cores are connected with one epoch, which is at least `lo`. -/
def Agreed (lo : Nat) (j : Joint) : Prop :=
  j.toLeft = [] ∧ j.toRight = [] ∧ ∃ s t, j.left.state = .connected s ∧
    j.right.state = .connected t ∧ s.epoch = t.epoch ∧ lo ≤ s.epoch.val

private theorem connected_of_phase {st : States} {e : Epoch} (h : st.phase = .connected e) :
    ∃ s, st = .connected s ∧ s.epoch = e := by
  cases st with
  | connected s =>
      cases h
      exact ⟨s, rfl, rfl⟩
  | _ => cases h

private theorem Inv.alwaysEnds (h : Inv lo rank j) : AlwaysEnds deliver (Agreed lo) j := by
  have hwf : WellFounded Lower := WellFounded.prod_lex Nat.lt_wfRel.wf Nat.lt_wfRel.wf
  apply AlwaysEnds.of_rank hwf ?_ ?_ h
  · intro rank j d j' hinv hstep
    obtain ⟨side, now, id⟩ := d
    cases side with
    | left => exact hinv.step hstep
    | right =>
        obtain ⟨j1, hj1, rfl⟩ := Option.map_eq_some_iff.mp hstep
        obtain ⟨rank', hlower, hinv'⟩ := hinv.swap.step hj1
        exact ⟨rank', hlower, hinv'.swap⟩
  · intro rank j hinv hstuck
    have hleft := hinv.toLeft_eq_nil fun now id => hstuck ⟨.left, now, id⟩
    have hright : j.toRight = [] := hinv.swap.toLeft_eq_nil fun now id =>
      Option.map_eq_none_iff.mp (hstuck ⟨.right, now, id⟩)
    have hcourse := hinv.course
    rw [hleft, hright] at hcourse
    obtain ⟨f, hf, hf', hlo⟩ := hcourse.done
    obtain ⟨s, hs, rfl⟩ := connected_of_phase hf
    obtain ⟨t, ht, hepoch⟩ := connected_of_phase hf'
    exact ⟨hleft, hright, s, t, hs, ht, hepoch.symm, hlo⟩

end Joint

/-- An endpoint with one reliable link, in one of the two states of a negotiation. -/
def States.Endpoint : States → Prop
  | .epochMismatch s => s.links.Joined ∧ s.queuedMsgs.length ≤ isizeMax
  | .connected s => s.links.Joined ∧ (∃ n, Receiving s.msgMgr n) ∧
      s.msgMgr.incomingSlices.len ≤ isizeMax
  | _ => False

private theorem States.Endpoint.engaged {st : States} (h : st.Endpoint) : st.Engaged := by
  cases st with
  | epochMismatch s => exact h
  | connected s =>
      obtain ⟨hlinks, hrec, hlen⟩ := h
      have hmax : isizeMax = 2 ^ 63 - 1 := rfl
      obtain ⟨k, hk, hk', hnone⟩ := SortedMap.exists_get_eq_none (2 ^ 63)
        (show s.msgMgr.incomingSlices.len < 2 ^ 63 by omega)
      exact ⟨hlinks, hrec, k, hk, by omega, hnone⟩
  | _ => exact h.elim

/-- The request that an endpoint without a session has sent. -/
def States.requests : States → List LinkProtocol
  | .epochMismatch s => [.reset s.epoch true]
  | _ => []

namespace Joint

/-- Exactly the endpoints without a session have a request on the way, and there is one. -/
structure Opening (j : Joint) : Prop where
  left : j.left.state.Endpoint
  right : j.right.state.Endpoint
  leftReaders : j.left.common.readers ≠ []
  rightReaders : j.right.common.readers ≠ []
  toRight : j.toRight = j.left.state.requests
  toLeft : j.toLeft = j.right.state.requests
  negotiating : j.toLeft ≠ [] ∨ j.toRight ≠ []

/-- The highest epoch of the two. -/
def level (j : Joint) : Nat := max j.left.state.phase.level j.right.state.phase.level

private theorem course_of_requests {l r : States} (hl : l.Endpoint) (hr : r.Endpoint)
    (hneg : r.requests ≠ [] ∨ l.requests ≠ []) :
    ∃ k, Phase.Course (max l.phase.level r.phase.level) k l.phase (resets r.requests) r.phase
      (resets l.requests) := by
  cases l with
  | epochMismatch s =>
      cases r with
      | epochMismatch t => exact ⟨5, Or.inl (Phase.Shape.both s.epoch t.epoch (Nat.le_refl _))⟩
      | connected t => exact ⟨6, Or.inl (Phase.Shape.one s.epoch t.epoch (Nat.le_refl _))⟩
      | _ => exact hr.elim
  | connected s =>
      cases r with
      | epochMismatch t =>
          have hmax := Nat.max_comm (optEpochToInt (some s.epoch)) (optEpochToInt t.epoch)
          exact ⟨6, Or.inr (Phase.Shape.one t.epoch s.epoch (Nat.le_of_eq hmax))⟩
      | connected t => simp [States.requests] at hneg
      | _ => exact hr.elim
  | _ => exact hl.elim

private theorem Opening.inv {j : Joint} (h : j.Opening) : ∃ rank, Inv j.level rank j := by
  have hneg := h.negotiating
  rw [h.toLeft, h.toRight] at hneg
  obtain ⟨k, hcourse⟩ := course_of_requests h.left h.right hneg
  rw [← h.toLeft, ← h.toRight] at hcourse
  have hhonest : ∀ st : States, ∀ f ∈ st.requests, f.Honest := by
    intro st f hf
    cases st with
    | epochMismatch s =>
        rw [States.requests, List.mem_singleton] at hf
        subst hf
        trivial
    | _ => cases hf
  exact ⟨(k, _), h.left.engaged, h.right.engaged, h.leftReaders, h.rightReaders,
    h.toLeft ▸ hhonest _, h.toRight ▸ hhonest _, hcourse, rfl⟩

/-- Every order of delivering the frames comes to an end, and then nothing is on the way and both
endpoints are connected with one epoch, which is at least each of those they started with. -/
theorem negotiation_converges (j : Joint) (h : j.Opening) :
    AlwaysEnds deliver (Agreed j.level) j := by
  obtain ⟨rank, hinv⟩ := h.inv
  exact hinv.alwaysEnds

/-- An endpoint without an epoch and one in its first session. -/
private def mixed : Joint where
  left := ⟨.epochMismatch ⟨SortedMap.empty, [], ⟨[LinkEntry.new steadyLink 0]⟩, [], none, 0⟩,
    { CommonState.new with readers := [0] }⟩
  right := ⟨.connected ⟨SortedMap.empty, [], ⟨[LinkEntry.new steadyLink 0]⟩,
    MessageManager.new Epoch.one, Epoch.one, 0⟩, { CommonState.new with readers := [0] }⟩
  toLeft := []
  toRight := [.reset none true]

theorem negotiation_converges_mixed : mixed.Opening ∧ AlwaysEnds deliver (Agreed 1) mixed := by
  have hjoined : LinkManager.Joined ⟨[LinkEntry.new steadyLink 0]⟩ :=
    ⟨_, rfl, fun _ => rfl, fun _ => rfl, by decide⟩
  have hopening : mixed.Opening :=
    { left := ⟨hjoined, Nat.zero_le _⟩
      right := ⟨hjoined, ⟨0, receiving_new Epoch.one⟩, Nat.zero_le _⟩
      leftReaders := by simp [mixed]
      rightReaders := by simp [mixed]
      toRight := rfl
      toLeft := rfl
      negotiating := Or.inr (by simp [mixed]) }
  exact ⟨hopening, negotiation_converges mixed hopening⟩

end Joint

end LinkSet
