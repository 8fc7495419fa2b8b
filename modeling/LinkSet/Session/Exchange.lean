import LinkSet.Framework.Reach
import LinkSet.Mail.Deals
import LinkSet.Messages.Halves
import LinkSet.Session.Convergence

/-!
# Two endpoints exchange messages

In every run of two cores joined by a network that may lose, repeat and reorder frames, the
messages of one epoch in one direction are a transfer between two managers: every round of a core
is matched by some steps of the transfer. What holds of all transfers holds therefore of what the
users of two endpoints submit and are given, whatever sessions come before and after. Only the
last epoch is left out, since a core may use it for more than one manager.
-/

namespace LinkSet

open Framework Relation

/-- The numbers of the messages inserted into a manager of epoch `e`. -/
def insertedInto (e : Epoch) (record : List Effect) : List Nat :=
  record.filterMap fun
    | .inserted tag ep _ => if ep = e then some tag else none
    | _ => none

/-- The messages given to the user under epoch `e`. -/
def reportedFrom (e : Epoch) (record : List Effect) : List (List UInt8) :=
  record.filterMap fun
    | .toCtrl (.message data ep) => if ep = e then some data else none
    | _ => none

section views

variable (e : Epoch) (r t : List Effect)

@[simp] theorem insertedInto_append :
    insertedInto e (r ++ t) = insertedInto e r ++ insertedInto e t := List.filterMap_append

@[simp] theorem reportedFrom_append :
    reportedFrom e (r ++ t) = reportedFrom e r ++ reportedFrom e t := List.filterMap_append

@[simp] theorem managerEpochs_append :
    managerEpochs (r ++ t) = managerEpochs r ++ managerEpochs t := List.filterMap_append

theorem views_wire (frames : List Sent) :
    insertedInto e (wire frames) = [] ∧ reportedFrom e (wire frames) = [] ∧
      managerEpochs (wire frames) = [] := by
  refine ⟨?_, ?_, ?_⟩ <;>
  · apply List.filterMap_eq_nil_iff.mpr
    intro eff heff
    obtain ⟨f, _, rfl⟩ := List.mem_map.mp heff
    rfl

theorem views_reports (ep : Epoch) (out : List (List UInt8)) :
    insertedInto e (out.map fun data => .toCtrl (.message data ep)) = [] ∧
      reportedFrom e (out.map fun data => .toCtrl (.message data ep)) =
        (if ep = e then out else []) ∧
      managerEpochs (out.map fun data => .toCtrl (.message data ep)) = [] ∧
      sentFrames (out.map fun data => .toCtrl (.message data ep)) = [] := by
  induction out with
  | nil => simp [insertedInto, reportedFrom, managerEpochs, sentFrames]
  | cons data out ih =>
      obtain ⟨hi, hr, hm, hs⟩ := ih
      refine ⟨hi, ?_, hm, hs⟩
      by_cases hep : ep = e
      · rw [if_pos hep] at hr ⊢
        simp only [reportedFrom, List.map_cons, List.filterMap_cons, if_pos hep]
        exact congrArg (data :: ·) hr
      · rw [if_neg hep] at hr ⊢
        simp only [reportedFrom, List.map_cons, List.filterMap_cons, if_neg hep]
        exact hr

private theorem views_neutral {eff : Effect} (h : eff.neutral = true) :
    insertedInto e [eff] = [] ∧ reportedFrom e [eff] = [] ∧ managerEpochs [eff] = [] ∧
      (∀ epoch seq seqLen firstIndex data,
        .msgSlice epoch seq seqLen firstIndex data ∉ sentFrames [eff]) ∧
      ∀ epoch seq lastIndex, .ack epoch seq lastIndex ∉ sentFrames [eff] := by
  cases eff with
  | toCtrl msg =>
      cases msg with
      | message data ep => cases h
      | _ => simp [insertedInto, reportedFrom, managerEpochs, sentFrames]
  | toLink id frame =>
      cases frame with
      | msgSlice _ _ _ _ _ => cases h
      | ack _ _ _ => cases h
      | _ => simp [insertedInto, reportedFrom, managerEpochs, sentFrames]
  | newManager _ => cases h
  | inserted _ _ _ => cases h

end views

/-- The manager of a session has its epoch, was made for it, and holds what was inserted. -/
def Books.Sound (B : Books) : Prop :=
  ∀ e m, B.session = some (e, m) →
    m.epoch = e ∧ e ∈ managerEpochs B.record ∧ ∃ datas, Sending m datas

section deals

variable {subs : Submitted} {ev : Event} {first : Option (Epoch × MessageManager)} {B B' : Books}

private theorem Deal.record_prefix (h : Deal subs ev first B B') : B.record <+: B'.record := by
  cases h with
  | receives => exact (List.prefix_append _ _).trans (List.prefix_append _ _)
  | acked => exact List.prefix_rfl
  | ends => exact List.prefix_rfl
  | _ => exact List.prefix_append _ _

theorem Deal.managerEpochs_prefix (h : Deal subs ev first B B') :
    managerEpochs B.record <+: managerEpochs B'.record := h.record_prefix.filterMap _

private theorem Books.Sound.deal (hB : B.Sound) (h : Deal subs ev first B B') : B'.Sound := by
  have hkept : ∀ e m, B.session = some (e, m) →
      m.epoch = e ∧ e ∈ managerEpochs B'.record ∧ ∃ datas, Sending m datas := by
    intro e m hm
    obtain ⟨hepoch, hmade, hsend⟩ := hB e m hm
    exact ⟨hepoch, h.managerEpochs_prefix.subset hmade, hsend⟩
  cases h with
  | notes _ => exact hkept
  | begins e =>
      rintro e' m' ⟨rfl, rfl⟩
      exact ⟨rfl, by simp [managerEpochs], [], sending_new e⟩
  | @inserts _ _ m _ _ _ msg _ hi =>
      rintro e' m' ⟨rfl, rfl⟩
      have hsame := (MessageManager.SameIncoming.refl m).insertMsg hi
      obtain ⟨hepoch, hmade, datas, hsend⟩ := hkept _ _ rfl
      exact ⟨hsame.epoch.trans hepoch, hmade, _, hsend.insertMsg hi⟩
  | emits _ _ _ _ _ _ => exact hkept
  | @receives _ _ m m1 _ _ _ _ _ _ _ _ _ _ _ hrecv _ htake =>
      rintro e' m' ⟨rfl, rfl⟩
      have hsame := ((MessageManager.SameOutgoing.refl m).recv hrecv).takeRecvd htake
      obtain ⟨hepoch, hmade, datas, hsend⟩ := hkept _ _ rfl
      exact ⟨hsame.epoch.trans hepoch, hmade, _,
        hsend.congr hsame.outgoing hsame.nextSeq hsame.epoch⟩
  | @acked _ _ m _ seq lastIndex _ =>
      rintro e' m' ⟨rfl, rfl⟩
      obtain ⟨hepoch, hmade, datas, hsend⟩ := hkept _ _ rfl
      exact ⟨(m.recvAck_fields (seq, lastIndex)).1.trans hepoch, hmade, _,
        hsend.recvAck (seq, lastIndex)⟩
  | ends =>
      intro e' m' hm'
      cases hm'

theorem Books.Sound.chain (hB : B.Sound) (h : ReflTransGen (Deal subs ev first) B B') :
    B'.Sound := by
  induction h with
  | refl => exact hB
  | tail _ hdeal ih => exact ih.deal hdeal

/-- As long as `I` holds of the frames that arrive and `D` of the messages submitted, `F` holds of
the frames that are sent, where `P` is what a manager keeps for that. -/
structure Guards (I F : LinkProtocol → Prop) (D : Payload → Prop) (P : MessageManager → Prop) :
    Prop where
  control : ∀ id f, (Effect.toLink id f).neutral = true → F f
  new : ∀ e, P (MessageManager.new e)
  insertMsg : ∀ {m m' seq} {data : Payload}, D data → m.insertMsg data.bytes = some (seq, m') →
    P m → P m'
  recvAck : ∀ {m} ack, P m → P (m.recvAck ack)
  slices : ∀ {m k sm size protos}, P m → m.outgoingSlices.get k = some sm →
    sm.getSlices size = some protos → ∀ f ∈ protos, F f
  recv : ∀ {m m1 m2 seq seqLen firstIndex data b out} {e : Epoch}, P m →
    I (.msgSlice e.toInt seq seqLen firstIndex data) →
    m.recv seq firstIndex seqLen data = some (b, m1) → m1.takeRecvd = some (out, m2) →
    F (.ack e.toInt m1.lastAck.1 m1.lastAck.2) ∧ P m2

/-- The frames sent so far and the manager of the session are guarded. -/
structure Books.Guarded (F : LinkProtocol → Prop) (P : MessageManager → Prop) (B : Books) : Prop where
  sent : ∀ f ∈ sentFrames B.record, F f
  session : ∀ e m, B.session = some (e, m) → P m

variable {I F : LinkProtocol → Prop} {D : Payload → Prop} {P : MessageManager → Prop}

private theorem forall_sent_append {record delta : List Effect} (h : ∀ f ∈ sentFrames record, F f)
    (hdelta : ∀ f ∈ sentFrames delta, F f) : ∀ f ∈ sentFrames (record ++ delta), F f := by
  rw [sentFrames_append]
  exact List.forall_mem_append.mpr ⟨h, hdelta⟩

private theorem Guards.neutral (hG : Guards I F D P) {eff : Effect} (h : eff.neutral = true) :
    ∀ f ∈ sentFrames [eff], F f := by
  intro f hf
  cases eff with
  | toLink id frame =>
      obtain rfl := List.mem_singleton.mp hf
      exact hG.control id f h
  | _ => cases hf

private theorem Books.Guarded.deal (hG : Guards I F D P) (hev : ∀ id f, ev = .frame id f → I f)
    (hsubs : ∀ x ∈ subs, D x.1) (h : B.Guarded F P) (hdeal : Deal subs ev first B B') :
    B'.Guarded F P := by
  cases hdeal with
  | notes hneutral => exact ⟨forall_sent_append h.sent (hG.neutral hneutral), h.session⟩
  | begins e =>
      refine ⟨forall_sent_append h.sent (by simp [sentFrames]), ?_⟩
      rintro _ _ ⟨rfl, rfl⟩
      exact hG.new e
  | @inserts _ _ m _ _ _ msg hsub hi =>
      refine ⟨forall_sent_append h.sent (by simp [sentFrames]), ?_⟩
      rintro _ _ ⟨rfl, rfl⟩
      exact hG.insertMsg (hsubs _ (List.mem_of_getElem? hsub)) hi (h.session _ m rfl)
  | @emits _ _ m _ _ _ _ _ _ hget _ _ hslices hsent _ =>
      refine ⟨forall_sent_append h.sent ?_, h.session⟩
      intro f hf
      rw [sentFrames_wire] at hf
      exact hG.slices (h.session _ m rfl) hget hslices f (hsent.subset hf)
  | @receives _ e m _ _ _ _ _ _ _ _ out _ hev' _ hrecv hacks htake =>
      obtain ⟨hack, hkept⟩ := hG.recv (h.session _ m rfl) (hev _ _ hev') hrecv htake
      refine ⟨forall_sent_append (forall_sent_append h.sent ?_) ?_, ?_⟩
      · intro f hf
        rw [sentFrames_wire] at hf
        obtain ⟨x, hx, rfl⟩ := List.mem_map.mp hf
        rw [(hacks x hx).2]
        exact hack
      · rw [(views_reports e e out).2.2.2]
        simp
      · rintro _ _ ⟨rfl, rfl⟩
        exact hkept
  | @acked _ _ m _ seq lastIndex _ =>
      refine ⟨h.sent, ?_⟩
      rintro _ _ ⟨rfl, rfl⟩
      exact hG.recvAck (seq, lastIndex) (h.session _ m rfl)
  | ends =>
      refine ⟨h.sent, ?_⟩
      intro _ _ hm
      cases hm

theorem Books.Guarded.chain (hG : Guards I F D P) (hev : ∀ id f, ev = .frame id f → I f)
    (hsubs : ∀ x ∈ subs, D x.1) (h : B.Guarded F P)
    (hchain : ReflTransGen (Deal subs ev first) B B') : B'.Guarded F P := by
  induction hchain with
  | refl => exact h
  | tail _ hdeal ih => exact ih.deal hG hev hsubs hdeal

end deals

/-- The sender of the transfer is what the books of a core say about epoch `e`: the messages
inserted, the slices sent and, during the session, the outgoing half of the manager. -/
structure Sends (subs : Submitted) (e : Epoch) (B : Books) (st : Transfer) : Prop where
  inserted : st.inserted = (insertedInto e B.record).map subs.bytesOf
  frames : ∀ seq seqLen firstIndex data,
    .msgSlice e.toInt seq seqLen firstIndex data ∈ sentFrames B.record →
      .msgSlice e.toInt seq seqLen firstIndex data ∈ st.frames
  session : ∀ m, B.session = some (e, m) → m.SameOutgoing st.sender
  unused : e ∉ managerEpochs B.record → (MessageManager.new e).SameOutgoing st.sender

/-- The receiver is what the books of the other core say: the messages reported, the
acknowledgements sent and, during the session, the incoming half. -/
structure Hears (e : Epoch) (B : Books) (st : Transfer) : Prop where
  returned : st.returned = reportedFrom e B.record
  released : st.returned.length = st.receiver.lastAck.1
  acks : ∀ seq lastIndex, .ack e.toInt seq lastIndex ∈ sentFrames B.record →
    (seq, lastIndex) ∈ st.acks
  session : ∀ m, B.session = some (e, m) → m.SameIncoming st.receiver
  unused : e ∉ managerEpochs B.record → (MessageManager.new e).SameIncoming st.receiver

/-- The condition `Q` on the steps of a transfer concerns deliveries of slices only. -/
def Spares (Q : Transfer → Transfer.Action → Prop) : Prop :=
  ∀ st a, (∀ n, a ≠ .deliverSlice n) → Q st a

/-- The condition `Q` holds of a step that delivers the frame of `ev` to a receiver with the incoming
half of the session `first`, if that is one of epoch `e`. -/
def Admits (Q : Transfer → Transfer.Action → Prop) (e : Epoch) (ev : Event)
    (first : Option (Epoch × MessageManager)) : Prop :=
  ∀ st n m id seq seqLen firstIndex data, first = some (e, m) →
    ev = .frame id (.msgSlice e.toInt seq seqLen firstIndex data) → m.SameIncoming st.receiver →
    st.frames[n]? = some (.msgSlice e.toInt seq seqLen firstIndex data) → Q st (.deliverSlice n)

section simulation

variable {subs : Submitted} {ev : Event} {first : Option (Epoch × MessageManager)} {e : Epoch}
  {B B' : Books} {st : Transfer} {Q : Transfer → Transfer.Action → Prop}

/-- The change concerns no insertion, no slice sent and no outgoing message of the epoch. -/
structure Still (e : Epoch) (B B' : Books) : Prop where
  inserted : insertedInto e B'.record = insertedInto e B.record
  slices : ∀ seq seqLen firstIndex data,
    .msgSlice e.toInt seq seqLen firstIndex data ∈ sentFrames B'.record →
      .msgSlice e.toInt seq seqLen firstIndex data ∈ sentFrames B.record
  session : ∀ m', B'.session = some (e, m') →
    ∃ m, B.session = some (e, m) ∧ ∀ x, m.SameOutgoing x → m'.SameOutgoing x

theorem Still.of_append {session session' : Option (Epoch × MessageManager)}
    {record delta : List Effect} (hins : insertedInto e delta = [])
    (hslices : ∀ seq seqLen firstIndex data,
      .msgSlice e.toInt seq seqLen firstIndex data ∉ sentFrames delta)
    (hsession : ∀ m', session' = some (e, m') →
      ∃ m, session = some (e, m) ∧ ∀ x, m.SameOutgoing x → m'.SameOutgoing x) :
    Still e ⟨session, record⟩ ⟨session', record ++ delta⟩ where
  inserted := by rw [insertedInto_append, hins, List.append_nil]
  slices := by
    intro seq seqLen firstIndex data hmem
    rw [sentFrames_append] at hmem
    exact (List.mem_append.mp hmem).resolve_right (hslices _ _ _ _)
  session := hsession

private theorem Still.of_other {session : Option (Epoch × MessageManager)} {ep : Epoch}
    {m' : MessageManager} {record delta : List Effect} (hep : ep ≠ e)
    (hins : insertedInto e delta = [])
    (hslices : ∀ seq seqLen firstIndex data,
      .msgSlice e.toInt seq seqLen firstIndex data ∉ sentFrames delta) :
    Still e ⟨session, record⟩ ⟨some (ep, m'), record ++ delta⟩ := by
  refine .of_append hins hslices ?_
  rintro _ ⟨⟩
  exact absurd rfl hep

private theorem Sends.still (h : Sends subs e B st) (hstill : Still e B B')
    (hmade : managerEpochs B.record ⊆ managerEpochs B'.record) : Sends subs e B' st where
  inserted := by rw [hstill.inserted, h.inserted]
  frames := fun seq seqLen firstIndex data hmem =>
    h.frames _ _ _ _ (hstill.slices seq seqLen firstIndex data hmem)
  session := by
    intro m' hm'
    obtain ⟨m, hm, hsame⟩ := hstill.session m' hm'
    exact hsame _ (h.session m hm)
  unused := fun hno => h.unused fun hmem => hno (hmade hmem)

/-- What a step of the sender leaves alone. -/
def SameReceiver (st st' : Transfer) : Prop :=
  st'.receiver = st.receiver ∧ st'.returned = st.returned ∧ st'.acks = st.acks

/-- What a step of the receiver leaves alone. -/
def SameSender (st st' : Transfer) : Prop :=
  st'.sender = st.sender ∧ st'.inserted = st.inserted ∧ st'.frames = st.frames

private theorem Hears.congr (h : Hears e B st) {st' : Transfer} (hsame : SameReceiver st st') :
    Hears e B st' := by
  obtain ⟨hreceiver, hreturned, hacks⟩ := hsame
  constructor
  · rw [hreturned, h.returned]
  · rw [hreturned, hreceiver, h.released]
  · rw [hacks]
    exact h.acks
  · rw [hreceiver]
    exact h.session
  · rw [hreceiver]
    exact h.unused

private theorem Sends.congr (h : Sends subs e B st) {st' : Transfer} (hsame : SameSender st st') :
    Sends subs e B st' := by
  obtain ⟨hsender, hinserted, hframes⟩ := hsame
  constructor
  · rw [hinserted, h.inserted]
  · rw [hframes]
    exact h.frames
  · rw [hsender]
    exact h.session
  · rw [hsender]
    exact h.unused

theorem not_mem_of_count {record : List Effect}
    (h : (managerEpochs (record ++ [.newManager e])).count e ≤ 1) : e ∉ managerEpochs record := by
  intro hmem
  have hpos := List.count_pos_iff.mpr hmem
  have hone : (managerEpochs [.newManager e]).count e = 1 := by simp [managerEpochs]
  rw [managerEpochs_append, List.count_append, hone] at h
  omega

private theorem Sends.insert {m m' : MessageManager} {record : List Effect} {msg : Submission}
    {ep : Option Epoch} {seq : Nat} (h : Sends subs e ⟨some (e, m), record⟩ st)
    (hepoch : m'.epoch = e) (hsub : subs[msg.tag]? = some (msg.payload, ep))
    (hi : m.insertMsg msg.payload.bytes = some (seq, m')) (hmade : e ∈ managerEpochs record) :
    ∃ st', st.step (.insertMsg msg.payload.bytes) = some st' ∧ SameReceiver st st' ∧
      Sends subs e ⟨some (e, m'), record ++ [.inserted msg.tag m'.epoch seq]⟩ st' := by
  obtain ⟨x, hx, hsame⟩ := (h.session m rfl).insertMsg hi
  refine ⟨{ st with sender := x, inserted := st.inserted ++ [msg.payload.bytes] }, ?_,
    ⟨rfl, rfl, rfl⟩, ?_, ?_, ?_, ?_⟩
  · rw [Transfer.step, if_neg (Nat.not_lt.mpr msg.payload.small), hx]
    rfl
  · have hbytes : subs.bytesOf msg.tag = msg.payload.bytes := by simp [Submitted.bytesOf, hsub]
    have hone : insertedInto e [.inserted msg.tag m'.epoch seq] = [msg.tag] := by
      simp [insertedInto, hepoch]
    rw [insertedInto_append, hone, List.map_append, ← h.inserted]
    simp only [List.map_cons, List.map_nil, hbytes]
  · intro seq seqLen firstIndex data hmem
    rw [sentFrames_append] at hmem
    rcases List.mem_append.mp hmem with hold | hnew
    · exact h.frames _ _ _ _ hold
    · cases hnew
  · rintro _ ⟨⟩
    exact hsame
  · intro hno
    exact absurd (by simp [hmade]) hno

private theorem Sends.emit {m : MessageManager} {record : List Effect} {k size : Nat}
    {sm : SliceManager} {protos : List LinkProtocol} {sent : List Sent}
    (h : Sends subs e ⟨some (e, m), record⟩ st) (hget : m.outgoingSlices.get k = some sm)
    (hpos : 0 < size) (hsize : size < 2 ^ 32) (hslices : sm.getSlices size = some protos)
    (hsent : sent.map Prod.snd <+: protos) :
    ∃ st', st.step (.emitSlices k size) = some st' ∧ SameReceiver st st' ∧
      Sends subs e ⟨some (e, m), record ++ wire sent⟩ st' := by
  obtain ⟨hins, _, hmade⟩ := views_wire e sent
  have hget' : st.sender.getOutgoingSlice k = some sm := by
    rw [MessageManager.getOutgoingSlice, ← (h.session m rfl).outgoing, hget]
  refine ⟨{ st with frames := st.frames ++ protos }, ?_, ⟨rfl, rfl, rfl⟩, ?_, ?_, h.session, ?_⟩
  · rw [Transfer.step, if_neg (by omega), hget', Option.bind_some, hslices]
    rfl
  · rw [insertedInto_append, hins, List.append_nil]
    exact h.inserted
  · intro seq seqLen firstIndex data hmem
    rw [sentFrames_append, sentFrames_wire] at hmem
    apply List.mem_append.mpr
    rcases List.mem_append.mp hmem with hold | hnew
    · exact Or.inl (h.frames _ _ _ _ hold)
    · exact Or.inr (hsent.subset hnew)
  · rw [managerEpochs_append, hmade, List.append_nil]
    exact h.unused

/-- What a deal does to the outgoing messages of an epoch: nothing, unless it makes the manager of
the epoch, inserts a message into it, sends slices of one or handles an acknowledgement. -/
private theorem Deal.outgoing (hdeal : Deal subs ev first B B') (hB : B.Sound) (e : Epoch) :
    Still e B B' ∨
    (∃ record, B = ⟨none, record⟩ ∧
      B' = ⟨some (e, MessageManager.new e), record ++ [.newManager e]⟩) ∨
    (∃ record m m' ep seq, ∃ msg : Submission,
      B = ⟨some (e, m), record⟩ ∧ B' = ⟨some (e, m'), record ++ [.inserted msg.tag m'.epoch seq]⟩ ∧
      m'.epoch = e ∧ subs[msg.tag]? = some (msg.payload, ep) ∧
      m.insertMsg msg.payload.bytes = some (seq, m')) ∨
    (∃ record m k sm size protos, ∃ sent : List Sent,
      B = ⟨some (e, m), record⟩ ∧ B' = ⟨some (e, m), record ++ wire sent⟩ ∧
      m.outgoingSlices.get k = some sm ∧ 0 < size ∧ size < 2 ^ 32 ∧
      sm.getSlices size = some protos ∧ sent.map Prod.snd <+: protos) ∨
    ∃ record m id seq lastIndex, B = ⟨some (e, m), record⟩ ∧
      B' = ⟨some (e, m.recvAck (seq, lastIndex)), record⟩ ∧
      ev = .frame id (.ack e.toInt seq lastIndex) := by
  cases hdeal with
  | notes hneutral =>
      obtain ⟨hins, _, _, hslice, _⟩ := views_neutral e hneutral
      exact Or.inl (.of_append hins (hslice _) fun m hm => ⟨m, hm, fun _ => id⟩)
  | @begins record ep =>
      by_cases hep : ep = e
      · subst hep
        exact Or.inr (Or.inl ⟨record, rfl, rfl⟩)
      · exact Or.inl (.of_other hep rfl (by simp [sentFrames]))
  | @inserts record ep m m' submitted seq msg hsub hi =>
      have hepoch : m'.epoch = ep :=
        ((MessageManager.SameIncoming.refl m).insertMsg hi).epoch.trans (hB ep m rfl).1
      by_cases hep : ep = e
      · subst hep
        exact Or.inr (Or.inr (Or.inl
          ⟨record, m, m', submitted, seq, msg, rfl, rfl, hepoch, hsub, hi⟩))
      · exact Or.inl (.of_other hep (by simp [insertedInto, hepoch, hep]) (by simp [sentFrames]))
  | @emits record ep m k sm size protos _ sent hget hpos hsize hslices hsent _ =>
      by_cases hep : ep = e
      · subst hep
        exact Or.inr (Or.inr (Or.inr (Or.inl
          ⟨record, m, k, sm, size, protos, sent, rfl, rfl, hget, hpos, hsize, hslices, hsent⟩)))
      · refine Or.inl (.of_other hep (views_wire e sent).1 ?_)
        intro seq seqLen firstIndex data hnew
        rw [sentFrames_wire] at hnew
        obtain ⟨hepoch, _, datas, hsend⟩ := hB ep m rfl
        obtain ⟨_, _, hframe, _⟩ := SliceManager.getSlices_pieces hslices _ (hsent.subset hnew)
        have hsm := (hsend.entry k sm hget).2.2
        have hint : e.toInt = ep.toInt := by
          rw [← hepoch, ← hsm]
          exact (LinkProtocol.msgSlice.inj hframe).1
        exact hep (Epoch.ext_val hint.symm)
  | @receives record ep m m1 m2 _ _ _ _ _ _ out acks _ _ hrecv hacks htake =>
      obtain ⟨hins', _, _, hsent'⟩ := views_reports e ep out
      rw [List.append_assoc]
      refine Or.inl (.of_append ?_ ?_ ?_)
      · rw [insertedInto_append, (views_wire e acks).1, hins', List.append_nil]
      · intro seq seqLen firstIndex data hnew
        rw [sentFrames_append, hsent', List.append_nil, sentFrames_wire] at hnew
        obtain ⟨f, hf, hfeq⟩ := List.mem_map.mp hnew
        rw [(hacks f hf).2] at hfeq
        cases hfeq
      · rintro _ ⟨⟩
        exact ⟨m, rfl, fun x hx => (hx.recv hrecv).takeRecvd htake⟩
  | @acked record ep m id seq lastIndex hev =>
      by_cases hep : ep = e
      · subst hep
        exact Or.inr (Or.inr (Or.inr (Or.inr ⟨record, m, id, seq, lastIndex, rfl, rfl, hev⟩)))
      · refine Or.inl ⟨rfl, fun _ _ _ _ hmem => hmem, ?_⟩
        rintro _ ⟨⟩
        exact absurd rfl hep
  | ends =>
      refine Or.inl ⟨rfl, fun _ _ _ _ hmem => hmem, ?_⟩
      intro m' hm'
      cases hm'

/-- Every deal of the sending core is matched by at most one step of the sender. -/
private theorem Sends.deal (h : Sends subs e B st) (hB : B.Sound) (hdeal : Deal subs ev first B B')
    (hcount : (managerEpochs B'.record).count e ≤ 1) (hQ : Spares Q)
    (hack : ∀ id seq lastIndex, ev = .frame id (.ack e.toInt seq lastIndex) →
      (seq, lastIndex) ∈ st.acks) :
    ∃ st', Reaches Transfer.step Q st st' ∧ SameReceiver st st' ∧ Sends subs e B' st' := by
  have hstay : SameReceiver st st := ⟨rfl, rfl, rfl⟩
  rcases hdeal.outgoing hB e with hstill | ⟨record, rfl, rfl⟩ |
    ⟨record, m, m', ep, seq, msg, rfl, rfl, hepoch, hsub, hi⟩ |
    ⟨record, m, k, sm, size, protos, sent, rfl, rfl, hget, hpos, hsize, hslices, hsent⟩ |
    ⟨record, m, id, seq, lastIndex, rfl, rfl, hev⟩
  · exact ⟨st, .refl st, hstay, h.still hstill hdeal.managerEpochs_prefix.subset⟩
  · refine ⟨st, .refl st, hstay, ?_, ?_, ?_, ?_⟩
    · simpa [insertedInto] using h.inserted
    · simpa [sentFrames] using h.frames
    · rintro _ ⟨⟩
      exact h.unused (not_mem_of_count hcount)
    · intro hno
      exact absurd (by simp [managerEpochs]) hno
  · obtain ⟨st', hstep, hsame, hsends⟩ := h.insert hepoch hsub hi (hB e m rfl).2.1
    exact ⟨st', .one (hQ _ _ (fun _ hn => by cases hn)) hstep, hsame, hsends⟩
  · obtain ⟨st', hstep, hsame, hsends⟩ := h.emit hget hpos hsize hslices hsent
    exact ⟨st', .one (hQ _ _ (fun _ hn => by cases hn)) hstep, hsame, hsends⟩
  · obtain ⟨n, hn⟩ := List.mem_iff_getElem?.mp (hack id seq lastIndex hev)
    refine ⟨{ st with sender := st.sender.recvAck (seq, lastIndex) },
      .one (hQ _ (.deliverAck n) (fun _ hn => by cases hn)) ?_, ⟨rfl, rfl, rfl⟩,
      h.inserted, h.frames, ?_, ?_⟩
    · rw [Transfer.step, hn]
      rfl
    · rintro _ ⟨⟩
      exact (h.session m rfl).recvAck (seq, lastIndex)
    · intro hno
      exact absurd (hB e m rfl).2.1 hno

/-- The change concerns no report, no acknowledgement and no incoming slice of the epoch. -/
structure Quiet (e : Epoch) (B B' : Books) : Prop where
  reported : reportedFrom e B'.record = reportedFrom e B.record
  acks : ∀ seq lastIndex, .ack e.toInt seq lastIndex ∈ sentFrames B'.record →
    .ack e.toInt seq lastIndex ∈ sentFrames B.record
  session : ∀ m', B'.session = some (e, m') →
    ∃ m, B.session = some (e, m) ∧ ∀ x, m.SameIncoming x → m'.SameIncoming x

/-- What a deal does to the incoming messages of an epoch: nothing, unless it makes the manager of
the epoch or takes a slice of it. -/
theorem Deal.incoming (hdeal : Deal subs ev first B B') (e : Epoch) :
    Quiet e B B' ∨
    (∃ record, B = ⟨none, record⟩ ∧
      B' = ⟨some (e, MessageManager.new e), record ++ [.newManager e]⟩) ∨
    ∃ record m m1 m2 id seq seqLen firstIndex data b out, ∃ acks : List Sent,
      B = ⟨some (e, m), record⟩ ∧
      B' = ⟨some (e, m2), record ++ wire acks ++ out.map fun data => .toCtrl (.message data e)⟩ ∧
      ev = .frame id (.msgSlice e.toInt seq seqLen firstIndex data) ∧ first = some (e, m) ∧
      m.recv seq firstIndex seqLen data = some (b, m1) ∧
      (∀ f ∈ acks, b = true ∧ f.2 = .ack e.toInt m1.lastAck.1 m1.lastAck.2) ∧
      m1.takeRecvd = some (out, m2) := by
  cases hdeal with
  | notes hneutral =>
      obtain ⟨_, hrep, _, _, hack⟩ := views_neutral e hneutral
      refine Or.inl ⟨?_, ?_, fun m hm => ⟨m, hm, fun _ => id⟩⟩
      · rw [reportedFrom_append, hrep, List.append_nil]
      · intro seq lastIndex hmem
        rw [sentFrames_append] at hmem
        exact (List.mem_append.mp hmem).resolve_right (hack _ _ _)
  | @begins record ep =>
      by_cases hep : ep = e
      · subst hep
        exact Or.inr (Or.inl ⟨record, rfl, rfl⟩)
      · refine Or.inl ⟨by simp [reportedFrom], by simp [sentFrames], ?_⟩
        intro m' hm'
        cases hm'
        exact absurd rfl hep
  | @inserts record ep m m' _ seq msg hsub hi =>
      refine Or.inl ⟨by simp [reportedFrom], by simp [sentFrames], ?_⟩
      rintro _ ⟨⟩
      exact ⟨m, rfl, fun x hx => hx.insertMsg hi⟩
  | @emits record ep m k sm size protos _ sent hget _ _ hslices hsent _ =>
      obtain ⟨_, hrep, _⟩ := views_wire e sent
      refine Or.inl ⟨?_, ?_, fun m hm => ⟨m, hm, fun _ => id⟩⟩
      · rw [reportedFrom_append, hrep, List.append_nil]
      · intro seq lastIndex hmem
        rw [sentFrames_append, sentFrames_wire] at hmem
        refine (List.mem_append.mp hmem).resolve_right ?_
        intro hnew
        obtain ⟨_, _, hframe, _⟩ := SliceManager.getSlices_pieces hslices _ (hsent.subset hnew)
        cases hframe
  | @receives record ep m m1 m2 id seq seqLen firstIndex data b out acks hev hfirst hrecv hacks
      htake =>
      by_cases hep : ep = e
      · subst hep
        exact Or.inr (Or.inr ⟨record, m, m1, m2, id, seq, seqLen, firstIndex, data, b, out, acks,
          rfl, rfl, hev, hfirst, hrecv, hacks, htake⟩)
      · obtain ⟨_, hrep, _⟩ := views_wire e acks
        obtain ⟨_, hrep', _, hsent'⟩ := views_reports e ep out
        refine Or.inl ⟨?_, ?_, ?_⟩
        · rw [reportedFrom_append, reportedFrom_append, hrep, hrep', if_neg hep, List.append_nil,
            List.append_nil]
        · intro seq lastIndex hmem
          rw [sentFrames_append, sentFrames_append, hsent', List.append_nil, sentFrames_wire] at hmem
          refine (List.mem_append.mp hmem).resolve_right ?_
          intro hnew
          obtain ⟨f, hf, hfeq⟩ := List.mem_map.mp hnew
          rw [(hacks f hf).2] at hfeq
          exact hep (Epoch.ext_val (LinkProtocol.ack.inj hfeq).1)
        · intro m' hm'
          cases hm'
          exact absurd rfl hep
  | @acked record ep m id seq lastIndex hev =>
      refine Or.inl ⟨rfl, fun _ _ hmem => hmem, ?_⟩
      rintro _ ⟨⟩
      exact ⟨m, rfl, fun x hx => hx.recvAck (seq, lastIndex)⟩
  | ends =>
      refine Or.inl ⟨rfl, fun _ _ hmem => hmem, ?_⟩
      intro m' hm'
      cases hm'

private theorem Hears.quiet (h : Hears e B st) (hquiet : Quiet e B B')
    (hmade : managerEpochs B.record ⊆ managerEpochs B'.record) : Hears e B' st where
  returned := by rw [hquiet.reported, h.returned]
  released := h.released
  acks := fun seq lastIndex hmem => h.acks _ _ (hquiet.acks seq lastIndex hmem)
  session := by
    intro m' hm'
    obtain ⟨m, hm, hsame⟩ := hquiet.session m' hm'
    exact hsame _ (h.session m hm)
  unused := fun hno => h.unused fun hmem => hno (hmade hmem)

private theorem Hears.receive {m m1 m2 : MessageManager} {record : List Effect}
    {n seq seqLen firstIndex : Nat} {data : List UInt8} {b : Bool} {out : List (List UInt8)}
    {acks : List Sent} (h : Hears e ⟨some (e, m), record⟩ st) (hinv : st.Inv)
    (hget : st.frames[n]? = some (.msgSlice e.toInt seq seqLen firstIndex data))
    (hrecv : m.recv seq firstIndex seqLen data = some (b, m1))
    (hacks : ∀ f ∈ acks, b = true ∧ f.2 = .ack e.toInt m1.lastAck.1 m1.lastAck.2)
    (htake : m1.takeRecvd = some (out, m2)) (hmade : e ∈ managerEpochs record)
    (hQ : Spares Q) (hdeliver : Q st (.deliverSlice n)) :
    ∃ st', Reaches Transfer.step Q st st' ∧ SameSender st st' ∧
      Hears e ⟨some (e, m2), record ++ wire acks ++
        out.map fun data => .toCtrl (.message data e)⟩ st' := by
  obtain ⟨x, hx, hsame⟩ := (h.session m rfl).recv hrecv
  obtain ⟨y, hy, hsame'⟩ := hsame.takeRecvd htake
  let st₁ : Transfer := { st with receiver := x }
  let st₂ : Transfer := { st₁ with acks := st.acks ++ [x.lastAck] }
  let st₃ : Transfer := { st₂ with receiver := y, returned := st.returned ++ out }
  have h₁ : st.step (.deliverSlice n) = some st₁ := by
    rw [Transfer.step, hget]
    simp only [hx]
    rfl
  have h₂ : st₁.step .emitAck = some st₂ := rfl
  have h₃ : st₂.step .takeRecvd = some st₃ := by
    rw [Transfer.step]
    simp only [st₂, st₁, hy]
    rfl
  have hreceiving := (Transfer.inv_step _ _ _ hinv h₁).receiving
  obtain ⟨out', y', hy', _, hlen, hlast, _⟩ := hreceiving.takeRecvd
  rw [hy] at hy'
  obtain ⟨rfl, rfl⟩ := Prod.mk.inj (Option.some.inj hy')
  obtain ⟨_, hrep, hman⟩ := views_wire e acks
  obtain ⟨_, hrep', hman', hsent'⟩ := views_reports e e out
  refine ⟨st₃, ?_, ⟨rfl, rfl, rfl⟩, ?_, ?_, ?_, ?_, ?_⟩
  · have htail : Reaches Transfer.step Q st₁ st₃ :=
      (Reaches.one (hQ _ _ (fun _ hn => by cases hn)) h₂).trans
        (.one (hQ _ _ (fun _ hn => by cases hn)) h₃)
    exact (Reaches.one hdeliver h₁).trans htail
  · rw [reportedFrom_append, reportedFrom_append, hrep, hrep', if_pos rfl, List.append_nil,
      ← h.returned]
  · rw [hlast, ← hlen]
    exact List.length_append
  · intro seq lastIndex hmem
    rw [sentFrames_append, sentFrames_append, hsent', List.append_nil, sentFrames_wire] at hmem
    apply List.mem_append.mpr
    rcases List.mem_append.mp hmem with hold | hnew
    · exact Or.inl (h.acks _ _ hold)
    · obtain ⟨f, hf, hfeq⟩ := List.mem_map.mp hnew
      rw [(hacks f hf).2] at hfeq
      cases hfeq
      rw [hsame.lastAck]
      exact Or.inr (by simp)
  · rintro _ ⟨⟩
    exact hsame'
  · intro hno
    exact absurd (by simp [hmade]) hno

/-- Every deal of the receiving core is matched by some steps of the receiver. -/
private theorem Hears.deal (h : Hears e B st) (hinv : st.Inv) (hB : B.Sound)
    (hdeal : Deal subs ev first B B') (hcount : (managerEpochs B'.record).count e ≤ 1)
    (hQ : Spares Q) (hadmits : Admits Q e ev first)
    (hslice : ∀ id seq seqLen firstIndex data,
      ev = .frame id (.msgSlice e.toInt seq seqLen firstIndex data) →
        .msgSlice e.toInt seq seqLen firstIndex data ∈ st.frames) :
    ∃ st', Reaches Transfer.step Q st st' ∧ SameSender st st' ∧ Hears e B' st' := by
  rcases hdeal.incoming e with hquiet | ⟨record, rfl, rfl⟩ |
    ⟨record, m, m1, m2, id, seq, seqLen, firstIndex, data, b, out, acks, rfl, rfl, hev, hfirst,
      hrecv, hacks, htake⟩
  · exact ⟨st, .refl st, ⟨rfl, rfl, rfl⟩, h.quiet hquiet hdeal.managerEpochs_prefix.subset⟩
  · refine ⟨st, .refl st, ⟨rfl, rfl, rfl⟩, ?_, h.released, ?_, ?_, ?_⟩
    · simpa [reportedFrom] using h.returned
    · simpa [sentFrames] using h.acks
    · rintro _ ⟨⟩
      exact h.unused (not_mem_of_count hcount)
    · intro hno
      exact absurd (by simp [managerEpochs]) hno
  · obtain ⟨n, hn⟩ := List.mem_iff_getElem?.mp (hslice _ _ _ _ _ hev)
    have hdeliver := hadmits st n m id _ _ _ _ hfirst hev (h.session m rfl) hn
    exact h.receive hinv hn hrecv hacks htake (hB e m rfl).2.1 hQ hdeliver

theorem Sends.chain (hchain : ReflTransGen (Deal subs ev first) B B') (h : Sends subs e B st)
    (hB : B.Sound) (hcount : (managerEpochs B'.record).count e ≤ 1) (hQ : Spares Q)
    (hack : ∀ id seq lastIndex, ev = .frame id (.ack e.toInt seq lastIndex) →
      (seq, lastIndex) ∈ st.acks) :
    ∃ st', Reaches Transfer.step Q st st' ∧ SameReceiver st st' ∧ Sends subs e B' st' := by
  induction hchain with
  | refl => exact ⟨st, .refl st, ⟨rfl, rfl, rfl⟩, h⟩
  | tail hchain hdeal ih =>
      have hle := hdeal.managerEpochs_prefix.sublist.count_le e
      obtain ⟨st₁, hreach, ⟨hreceiver, hreturned, hacks⟩, hsends⟩ := ih (hle.trans hcount)
      rw [← hacks] at hack
      obtain ⟨st₂, hreach', ⟨hreceiver', hreturned', hacks'⟩, hsends'⟩ :=
        hsends.deal (hB.chain hchain) hdeal hcount hQ hack
      exact ⟨st₂, hreach.trans hreach', ⟨hreceiver'.trans hreceiver,
        hreturned'.trans hreturned, hacks'.trans hacks⟩, hsends'⟩

private theorem Hears.chain (hchain : ReflTransGen (Deal subs ev first) B B') (h : Hears e B st)
    (hinv : st.Inv) (hB : B.Sound) (hcount : (managerEpochs B'.record).count e ≤ 1)
    (hQ : Spares Q) (hadmits : Admits Q e ev first)
    (hslice : ∀ id seq seqLen firstIndex data,
      ev = .frame id (.msgSlice e.toInt seq seqLen firstIndex data) →
        .msgSlice e.toInt seq seqLen firstIndex data ∈ st.frames) :
    ∃ st', Reaches Transfer.step Q st st' ∧ SameSender st st' ∧ Hears e B' st' := by
  induction hchain with
  | refl => exact ⟨st, .refl st, ⟨rfl, rfl, rfl⟩, h⟩
  | tail hchain hdeal ih =>
      have hle := hdeal.managerEpochs_prefix.sublist.count_le e
      obtain ⟨st₁, hreach, ⟨hsender, hinserted, hframes⟩, hhears⟩ := ih (hle.trans hcount)
      have hinv₁ := hreach.invariant (fun s a s' hs _ => Transfer.inv_step s a s' hs) hinv
      rw [← hframes] at hslice
      obtain ⟨st₂, hreach', ⟨hsender', hinserted', hframes'⟩, hhears'⟩ :=
        hhears.deal hinv₁ (hB.chain hchain) hdeal hcount hQ hadmits hslice
      exact ⟨st₂, hreach.trans hreach', ⟨hsender'.trans hsender,
        hinserted'.trans hinserted, hframes'.trans hframes⟩, hhears'⟩

private theorem mem_insertedTags_of_insertedInto {record : List Effect} {tag : Nat}
    (h : tag ∈ insertedInto e record) : tag ∈ insertedTags record := by
  obtain ⟨eff, hmem, heff⟩ := List.mem_filterMap.mp h
  cases eff with
  | inserted t ep seq =>
      simp only [Option.ite_none_right_eq_some] at heff
      exact List.mem_filterMap.mpr ⟨_, hmem, heff.2⟩
  | _ => cases heff

theorem Sends.submit (h : Sends subs e B st) (hknown : ∀ tag ∈ insertedTags B.record, tag < subs.length)
    (more : Submitted) : Sends (subs ++ more) e B st := by
  refine { h with inserted := ?_ }
  rw [h.inserted]
  apply List.map_congr_left
  intro tag htag
  have hlt := hknown tag (mem_insertedTags_of_insertedInto htag)
  unfold Submitted.bytesOf
  rw [List.getElem?_append_left hlt]

end simulation

/-- What holds of a core in every run, whatever frames arrive. -/
structure Core.Orderly (core : Core) : Prop where
  mail : core.state.mail.Sound (fun _ => True) core.common
  ascends : core.Ascends
  books : core.books.Sound

namespace Core

theorem orderly_start : start.Orderly where
  mail := start_sound
  ascends := ascending_start none
  books := by
    intro e m hm
    cases hm

theorem guarded_start (F : LinkProtocol → Prop) (P : MessageManager → Prop) :
    start.books.Guarded F P where
  sent := by
    intro f hf
    cases hf
  session := by
    intro e m hm
    cases hm

theorem submittedBy_append (core : Core) (ev : Event) :
    ∃ more, core.submittedBy ev = core.common.submitted ++ more := by
  cases ev with
  | command cmd =>
      cases cmd with
      | message data epoch => exact ⟨[(data, epoch)], rfl⟩
      | _ => exact ⟨[], (List.append_nil _).symm⟩
  | _ => exact ⟨[], (List.append_nil _).symm⟩

namespace Orderly

variable {core core' : Core} {now : Nat} {ev : Event}

theorem count_le_one (h : core.Orderly) {e : Epoch} (hne : e ≠ Epoch.last) :
    (managerEpochs core.common.record).count e ≤ 1 := by
  have hordered := h.ascends.ordered
  rw [← freshEpochs_signals, h.ascends.fresh]
  exact Epoch.count_le_one hordered hne

theorem dealt (h : core.Orderly) (hstep : core.step (now, ev) = some core') :
    core'.common.submitted = core.submittedBy ev ∧
      ReflTransGen (Deal (core.submittedBy ev) ev core.books.session) core.books core'.books :=
  step_dealt h.mail.queued hstep

theorem step (h : core.Orderly) (hstep : core.step (now, ev) = some core') : core'.Orderly where
  mail := by
    have hlasts : Lasts fun _ => True := ⟨fun _ => trivial, fun _ _ => trivial, fun _ _ => trivial⟩
    exact step_sound hlasts core (now, ev) core' h.mail ev.keeps_true hstep
  ascends := ascends_step core (now, ev) core' h.ascends hstep
  books := h.books.chain (h.dealt hstep).2

end Orderly

end Core

namespace Pair

def core (p : Pair) : Side → Core
  | .left => p.left
  | .right => p.right

theorem peer_of_ne {s side : Side} (h : s ≠ side) (p : Pair) :
    p.peer side = p.core s ∧ p.core side = p.peer s := by
  cases s <;> cases side <;> first | exact ⟨rfl, rfl⟩ | exact absurd rfl h

theorem stepSide_eq_some {p p' : Pair} {side : Side} {input : Nat × Event}
    (h : p.stepSide side input = some p') :
    (p.core side).step input = some (p'.core side) ∧ p'.peer side = p.peer side := by
  cases side with
  | left =>
      obtain ⟨left, hleft, rfl⟩ := Option.map_eq_some_iff.mp h
      exact ⟨hleft, rfl⟩
  | right =>
      obtain ⟨right, hright, rfl⟩ := Option.map_eq_some_iff.mp h
      exact ⟨hright, rfl⟩

theorem step_cases {p p' : Pair} {a : Action} (h : p.step a = some p') :
    (∃ side now ev, a = .locally side now ev ∧ (∀ id f, ev ≠ .frame id f) ∧
      p.stepSide side (now, ev) = some p') ∨
    ∃ side now id n f, a = .deliver side now id n ∧
      (sentFrames (p.peer side).common.record)[n]? = some f ∧
      p.stepSide side (now, .frame id f) = some p' := by
  cases a with
  | locally side now ev =>
      cases ev with
      | frame id msg => cases h
      | _ => exact Or.inl ⟨side, now, _, rfl, (fun _ _ hev => by cases hev), h⟩
  | deliver side now reader n =>
      obtain ⟨frame, hget, h⟩ := Option.bind_eq_some_iff.mp h
      exact Or.inr ⟨side, now, reader, n, frame, rfl, hget, h⟩

/-- One side handles an event; a frame it handles was sent by the other side and is the one
that the action delivers. -/
theorem step_handles {p p' : Pair} {a : Action} (h : p.step a = some p') :
    ∃ side now ev, (p.core side).step (now, ev) = some (p'.core side) ∧
      p'.peer side = p.peer side ∧
      ∀ id f, ev = .frame id f → ∃ n, a = .deliver side now id n ∧
        (sentFrames (p.peer side).common.record)[n]? = some f := by
  rcases step_cases h with ⟨side, now, ev, rfl, hev, hside⟩ | ⟨side, now, id, n, f, rfl, hget, hside⟩
  · obtain ⟨hcore, hpeer⟩ := stepSide_eq_some hside
    exact ⟨side, now, ev, hcore, hpeer, fun id f heq => absurd heq (hev id f)⟩
  · obtain ⟨hcore, hpeer⟩ := stepSide_eq_some hside
    refine ⟨side, now, .frame id f, hcore, hpeer, ?_⟩
    rintro _ _ ⟨rfl, rfl⟩
    exact ⟨n, rfl, hget⟩

/-- Each core keeps `J`, if it does so as long as the frames it handles are such as a core with `J`
sends. -/
theorem each_step {J : Core → Prop} {F : LinkProtocol → Prop}
    (hsent : ∀ core, J core → ∀ f ∈ sentFrames core.common.record, F f)
    (hkeep : ∀ core now ev core', J core → (∀ id f, ev = .frame id f → F f) →
      core.step (now, ev) = some core' → J core') (p : Pair) (a : Action) (p' : Pair)
    (h : ∀ side, J (p.core side)) (hstep : p.step a = some p') : ∀ side, J (p'.core side) := by
  obtain ⟨s, now, ev, hcore, hpeer, hframe⟩ := step_handles hstep
  have hev : ∀ id f, ev = .frame id f → F f := by
    intro id f hev
    obtain ⟨n, _, hn⟩ := hframe id f hev
    cases s with
    | left => exact hsent _ (h .right) f (List.mem_of_getElem? hn)
    | right => exact hsent _ (h .left) f (List.mem_of_getElem? hn)
  intro side
  by_cases hs : s = side
  · subst hs
    exact hkeep _ now ev _ (h s) hev hcore
  · obtain ⟨_, hcore_s⟩ := peer_of_ne hs p
    obtain ⟨_, hcore_s'⟩ := peer_of_ne hs p'
    rw [hcore_s', hpeer, ← hcore_s]
    exact h side

end Pair

/-- The transfer of epoch `e` from the core on `side` to the other one. -/
structure Mirrors (e : Epoch) (side : Side) (p : Pair) (st : Transfer) : Prop where
  sender : (p.core side).Orderly
  receiver : (p.peer side).Orderly
  inv : st.Inv
  sends : Sends (p.core side).common.submitted e (p.core side).books st
  hears : Hears e (p.peer side).books st

/-- The condition `Q` on the deliveries of a transfer is implied by the condition `C` on those of
the network. -/
def Implies (C : Pair → Pair.Action → Prop) (Q : Transfer → Transfer.Action → Prop) : Prop :=
  Spares Q ∧
  ∀ p side now id n st k e m seq seqLen firstIndex data, C p (.deliver side now id n) →
    (sentFrames (p.peer side).common.record)[n]? =
      some (.msgSlice e.toInt seq seqLen firstIndex data) →
    (p.core side).books.session = some (e, m) → m.SameIncoming st.receiver →
    st.frames[k]? = some (.msgSlice e.toInt seq seqLen firstIndex data) → Q st (.deliverSlice k)

private theorem sends_start (e : Epoch) :
    Sends Core.start.common.submitted e Core.start.books (Transfer.fresh e) where
  inserted := rfl
  frames := by
    intro _ _ _ _ hmem
    cases hmem
  session := by
    intro _ hm
    cases hm
  unused := fun _ => .refl _

private theorem hears_start (e : Epoch) : Hears e Core.start.books (Transfer.fresh e) where
  returned := rfl
  released := rfl
  acks := by
    intro _ _ hmem
    cases hmem
  session := by
    intro _ hm
    cases hm
  unused := fun _ => .refl _

theorem mirrors_start (e : Epoch) (side : Side) : Mirrors e side Pair.start (Transfer.fresh e) := by
  have hcore : Pair.start.core side = Core.start := by cases side <;> rfl
  have hpeer : Pair.start.peer side = Core.start := by cases side <;> rfl
  constructor
  · rw [hcore]
    exact Core.orderly_start
  · rw [hpeer]
    exact Core.orderly_start
  · exact Transfer.inv_fresh e
  · rw [hcore]
    exact sends_start e
  · rw [hpeer]
    exact hears_start e

theorem Mirrors.handles {Q : Transfer → Transfer.Action → Prop} (hQ : Spares Q) {e : Epoch}
    (hne : e ≠ Epoch.last) {side s : Side} {p p' : Pair} {st : Transfer} {now : Nat} {ev : Event}
    (h : Mirrors e side p st) (hcore : (p.core s).step (now, ev) = some (p'.core s))
    (hpeer : p'.peer s = p.peer s)
    (hframe : ∀ id f, ev = .frame id f → f ∈ sentFrames (p.peer s).common.record)
    (hadmits : s ≠ side → Admits Q e ev (p.core s).books.session) :
    ∃ st', Reaches Transfer.step Q st st' ∧ Mirrors e side p' st' := by
  by_cases hs : s = side
  · subst hs
    obtain ⟨hsub, hchain⟩ := h.sender.dealt hcore
    obtain ⟨more, hmore⟩ := (p.core s).submittedBy_append ev
    have hsends := h.sends.submit h.sender.mail.known more
    rw [← hmore] at hsends
    have horderly := h.sender.step hcore
    have hack : ∀ id seq lastIndex, ev = .frame id (.ack e.toInt seq lastIndex) →
        (seq, lastIndex) ∈ st.acks := by
      intro id seq lastIndex hev
      exact h.hears.acks _ _ (hframe _ _ hev)
    obtain ⟨st', hreach, hsame, hsends'⟩ :=
      hsends.chain hchain h.sender.books (horderly.count_le_one hne) hQ hack
    refine ⟨st', hreach, horderly, ?_, ?_, ?_, ?_⟩
    · rw [hpeer]
      exact h.receiver
    · exact hreach.invariant (fun s a s' hs _ => Transfer.inv_step s a s' hs) h.inv
    · rw [hsub]
      exact hsends'
    · rw [hpeer]
      exact h.hears.congr hsame
  · obtain ⟨hpeer_s, hcore_s⟩ := Pair.peer_of_ne hs p
    obtain ⟨hpeer_s', hcore_s'⟩ := Pair.peer_of_ne hs p'
    have hreceiver := hpeer_s ▸ h.receiver
    have hhears := hpeer_s ▸ h.hears
    obtain ⟨hsub, hchain⟩ := hreceiver.dealt hcore
    have horderly := hreceiver.step hcore
    have hslice : ∀ id seq seqLen firstIndex data,
        ev = .frame id (.msgSlice e.toInt seq seqLen firstIndex data) →
          .msgSlice e.toInt seq seqLen firstIndex data ∈ st.frames := by
      intro id seq seqLen firstIndex data hev
      have hsent := hframe _ _ hev
      rw [← hcore_s] at hsent
      exact h.sends.frames _ _ _ _ hsent
    obtain ⟨st', hreach, hsame, hhears'⟩ :=
      hhears.chain hchain h.inv hreceiver.books (horderly.count_le_one hne) hQ (hadmits hs) hslice
    have hsender : p'.core side = p.core side := by rw [hcore_s', hpeer, hcore_s]
    refine ⟨st', hreach, ?_, ?_, ?_, ?_, ?_⟩
    · rw [hsender]
      exact h.sender
    · rw [hpeer_s']
      exact horderly
    · exact hreach.invariant (fun s a s' hs _ => Transfer.inv_step s a s' hs) h.inv
    · rw [hsender]
      exact h.sends.congr hsame
    · rw [hpeer_s']
      exact hhears'

/-- Every step of the two endpoints is matched by some steps of the transfer. -/
private theorem Mirrors.step {C : Pair → Pair.Action → Prop} {Q : Transfer → Transfer.Action → Prop}
    (hCQ : Implies C Q) {e : Epoch} (hne : e ≠ Epoch.last) {side : Side} (p : Pair)
    (a : Pair.Action) (p' : Pair) (st : Transfer) (h : Mirrors e side p st) (hC : C p a)
    (hstep : p.step a = some p') :
    ∃ st', Reaches Transfer.step Q st st' ∧ Mirrors e side p' st' := by
  obtain ⟨s, now, ev, hcore, hpeer, hframe⟩ := Pair.step_handles hstep
  refine h.handles hCQ.1 hne hcore hpeer ?_ ?_
  · intro id f hev
    obtain ⟨n, _, hn⟩ := hframe _ _ hev
    exact List.mem_of_getElem? hn
  · intro _ st n m id seq seqLen firstIndex data hfirst hev hsame hn
    obtain ⟨k, rfl, hk⟩ := hframe _ _ hev
    exact hCQ.2 p s now id k st n e m seq seqLen firstIndex data hC hk hfirst hsame hn

/-- Two endpoints simulate a transfer in either direction and for every epoch but the last. -/
theorem Pair.mirrored {C : Pair → Pair.Action → Prop} {Q : Transfer → Transfer.Action → Prop}
    (hCQ : Implies C Q) {e : Epoch} (hne : e ≠ Epoch.last) (side : Side)
    {actions : List Pair.Action} {p : Pair} (hall : AllSteps Pair.step C Pair.start actions)
    (hrun : run Pair.step Pair.start actions = some p) :
    ∃ st, Reaches Transfer.step Q (Transfer.fresh e) st ∧ Mirrors e side p st :=
  run_simulated (Mirrors.step hCQ hne) (mirrors_start e side) hall hrun

end LinkSet
