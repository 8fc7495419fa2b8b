import LinkSet.Messages.Receiver
import LinkSet.Messages.Sender

/-!
# A transfer between two managers

A sending and a receiving manager of one epoch, joined by a network that keeps everything it
was ever given: each frame may be delivered at any later time, any number of times, in any
order or never.
-/

namespace LinkSet

open Framework

/-- The two managers, what each has put on the network, and what the two users have seen. -/
structure Transfer where
  sender : MessageManager
  receiver : MessageManager
  frames : List LinkProtocol
  acks : List (Nat × Nat)
  inserted : List (List UInt8)
  returned : List (List UInt8)

namespace Transfer

inductive Action where
  | insertMsg (data : List UInt8)
  | emitSlices (seq size : Nat)
  | deliverSlice (n : Nat)
  | emitAck
  | deliverAck (n : Nat)
  | takeRecvd

def fresh (epoch : Epoch) : Transfer :=
  ⟨MessageManager.new epoch, MessageManager.new epoch, [], [], [], []⟩

def step (st : Transfer) : Action → Option Transfer
  | .insertMsg data =>
      -- no vector is longer
      if isizeMax < data.length then none
      else (st.sender.insertMsg data).map fun r =>
        { st with sender := r.2, inserted := st.inserted ++ [data] }
  | .emitSlices seq size =>
      -- the size is a positive `u32`
      if size = 0 ∨ 2 ^ 32 ≤ size then none
      else (st.sender.getOutgoingSlice seq).bind fun sliceMgr =>
        (sliceMgr.getSlices size).map fun frames => { st with frames := st.frames ++ frames }
  | .deliverSlice n =>
      match st.frames[n]? with
      | some (.msgSlice _ seq seqLen firstIndex data) =>
          (st.receiver.recv seq firstIndex seqLen data).map fun r => { st with receiver := r.2 }
      | _ => none
  | .emitAck => some { st with acks := st.acks ++ [st.receiver.lastAck] }
  | .deliverAck n => st.acks[n]?.map fun ack => { st with sender := st.sender.recvAck ack }
  | .takeRecvd =>
      st.receiver.takeRecvd.map fun r =>
        { st with receiver := r.2, returned := st.returned ++ r.1 }

/-- Everything a step can do. -/
inductive Moves (st : Transfer) : Action → Transfer → Prop where
  | insertMsg {data seq m} (hlen : data.length ≤ isizeMax)
      (h : st.sender.insertMsg data = some (seq, m)) :
      Moves st (.insertMsg data) { st with sender := m, inserted := st.inserted ++ [data] }
  | emitSlices {seq size sm frames} (hget : st.sender.outgoingSlices.get seq = some sm)
      (h : sm.getSlices size = some frames) :
      Moves st (.emitSlices seq size) { st with frames := st.frames ++ frames }
  | deliverSlice {n epoch seq seqLen firstIndex data b m}
      (hget : st.frames[n]? = some (.msgSlice epoch seq seqLen firstIndex data))
      (h : st.receiver.recv seq firstIndex seqLen data = some (b, m)) :
      Moves st (.deliverSlice n) { st with receiver := m }
  | emitAck : Moves st .emitAck { st with acks := st.acks ++ [st.receiver.lastAck] }
  | deliverAck {n ack} (hget : st.acks[n]? = some ack) :
      Moves st (.deliverAck n) { st with sender := st.sender.recvAck ack }
  | takeRecvd {out m} (h : st.receiver.takeRecvd = some (out, m)) :
      Moves st .takeRecvd { st with receiver := m, returned := st.returned ++ out }

theorem step_moves {st st' : Transfer} {a : Action} (h : st.step a = some st') :
    Moves st a st' := by
  cases a with
  | insertMsg data =>
      by_cases hlen : isizeMax < data.length
      · rw [step, if_pos hlen] at h
        cases h
      · rw [step, if_neg hlen] at h
        obtain ⟨⟨seq, m⟩, hins, rfl⟩ := Option.map_eq_some_iff.mp h
        exact Moves.insertMsg (Nat.not_lt.mp hlen) hins
  | emitSlices seq size =>
      by_cases hsize : size = 0 ∨ 2 ^ 32 ≤ size
      · rw [step, if_pos hsize] at h
        cases h
      · rw [step, if_neg hsize] at h
        obtain ⟨sm, hget, h⟩ := Option.bind_eq_some_iff.mp h
        obtain ⟨frames, hframes, rfl⟩ := Option.map_eq_some_iff.mp h
        exact Moves.emitSlices hget hframes
  | deliverSlice n =>
      rw [step] at h
      split at h
      · next hget =>
          obtain ⟨⟨b, m⟩, hrecv, rfl⟩ := Option.map_eq_some_iff.mp h
          exact Moves.deliverSlice hget hrecv
      · cases h
  | emitAck =>
      obtain rfl := Option.some.inj h
      exact Moves.emitAck
  | deliverAck n =>
      obtain ⟨ack, hget, rfl⟩ := Option.map_eq_some_iff.mp h
      exact Moves.deliverAck hget
  | takeRecvd =>
      obtain ⟨⟨out, m⟩, htake, rfl⟩ := Option.map_eq_some_iff.mp h
      exact Moves.takeRecvd htake

/-- The receiver has marked the bytes of message `s` through index `k`. -/
def Known (m : MessageManager) (s k : Nat) : Prop :=
  s < m.lastAck.1 ∨ ∃ sm, m.incomingSlices.get s = some sm ∧ ∀ i ≤ k, Covered sm.slices i

/-- The frame is a piece of an inserted message. -/
def FrameOf (inserted : List (List UInt8)) (f : LinkProtocol) : Prop :=
  ∃ epoch s d firstIndex piece, f = .msgSlice epoch s d.length firstIndex piece ∧
    inserted[s]? = some d ∧ IsPiece d firstIndex piece

/-- The acknowledgement claims no more than the receiver has, and never a whole message. -/
def AckOf (inserted : List (List UInt8)) (receiver : MessageManager) (ack : Nat × Nat) : Prop :=
  ack.1 ≤ receiver.lastAck.1 ∧
    (0 < ack.2 → Known receiver ack.1 ack.2 ∧
      ∃ d, inserted[ack.1]? = some d ∧ ack.2 + 1 < d.length)

/-- The receiver's buffers are as long as the messages they are for. -/
def Sized (inserted : List (List UInt8)) (receiver : MessageManager) : Prop :=
  ∀ s sm, receiver.incomingSlices.get s = some sm →
    ∃ d, inserted[s]? = some d ∧ d.length = sm.data.length

/-- What holds in every reachable state. -/
structure Inv (st : Transfer) : Prop where
  sending : Sending st.sender st.inserted
  pending : Pending st.sender st.inserted st.receiver.lastAck.1 (Known st.receiver)
  small : ∀ d ∈ st.inserted, d.length ≤ isizeMax
  frames : ∀ f ∈ st.frames, FrameOf st.inserted f
  acks : ∀ ack ∈ st.acks, AckOf st.inserted st.receiver ack
  receiving : Receiving st.receiver st.returned.length
  sized : Sized st.inserted st.receiver

theorem inv_fresh (epoch : Epoch) : Inv (fresh epoch) where
  sending := sending_new epoch
  pending := pending_new epoch _ _
  small := by simp [fresh]
  frames := by simp [fresh]
  acks := by simp [fresh]
  receiving := receiving_new epoch
  sized := by simp [fresh, Sized, MessageManager.new]

section insertMsg

variable {inserted : List (List UInt8)} (data : List UInt8)

private theorem getElem?_append_of_some {s : Nat} {d : List UInt8} (h : inserted[s]? = some d) :
    (inserted ++ [data])[s]? = some d := by
  rw [List.getElem?_append_left (List.getElem?_eq_some_iff.mp h).1, h]

private theorem FrameOf.append {f : LinkProtocol} (h : FrameOf inserted f) :
    FrameOf (inserted ++ [data]) f := by
  obtain ⟨epoch, s, d, firstIndex, piece, hf, hd, hpiece⟩ := h
  exact ⟨epoch, s, d, firstIndex, piece, hf, getElem?_append_of_some data hd, hpiece⟩

private theorem AckOf.append {receiver : MessageManager} {ack : Nat × Nat}
    (h : AckOf inserted receiver ack) : AckOf (inserted ++ [data]) receiver ack := by
  refine ⟨h.1, ?_⟩
  intro hpos
  obtain ⟨hknown, d, hd, hlt⟩ := h.2 hpos
  exact ⟨hknown, d, getElem?_append_of_some data hd, hlt⟩

private theorem Sized.append {receiver : MessageManager} (h : Sized inserted receiver) :
    Sized (inserted ++ [data]) receiver := by
  intro s sm hs
  obtain ⟨d, hd, hlen⟩ := h s sm hs
  exact ⟨d, getElem?_append_of_some data hd, hlen⟩

end insertMsg

private theorem Known.stored {m m' : MessageManager} {seq firstIndex seqLen : Nat}
    {data : List UInt8} (h : Stored m m' seq firstIndex seqLen data) (s k : Nat)
    (hk : Known m s k) : Known m' s k := by
  rcases hk with hlt | ⟨sm, hsm, hcov⟩
  · exact Or.inl (Nat.lt_of_lt_of_le hlt h.ack_le)
  · obtain ⟨sm', hsm', hkept⟩ := h.kept s sm hsm
    exact Or.inr ⟨sm', hsm', fun i hi => hkept i (hcov i hi)⟩

private theorem Known.takeRecvd {m m' : MessageManager} {out : List (List UInt8)}
    (h : m.takeRecvd = some (out, m')) (s k : Nat) (hk : Known m s k) : Known m' s k := by
  obtain ⟨_, rfl⟩ := MessageManager.takeRecvd_eq_some.mp h
  rcases hk with hlt | ⟨sm, hsm, hcov⟩
  · exact Or.inl hlt
  · by_cases hlt : s < m.lastAck.1
    · exact Or.inl hlt
    · refine Or.inr ⟨sm, ?_, hcov⟩
      rw [SortedMap.get_splitOff_snd, if_pos (Nat.not_lt.mp hlt), hsm]

private theorem AckOf.mono {inserted : List (List UInt8)} {m m' : MessageManager} {ack : Nat × Nat}
    (h : AckOf inserted m ack) (hle : m.lastAck.1 ≤ m'.lastAck.1)
    (hknown : ∀ s k, Known m s k → Known m' s k) : AckOf inserted m' ack := by
  refine ⟨h.1.trans hle, ?_⟩
  intro hpos
  obtain ⟨hk, hd⟩ := h.2 hpos
  exact ⟨hknown _ _ hk, hd⟩

private theorem Inv.lastAck_ackOf {st : Transfer} (h : Inv st) :
    AckOf st.inserted st.receiver st.receiver.lastAck := by
  refine ⟨Nat.le_refl _, ?_⟩
  intro hpos
  cases hget : st.receiver.incomingSlices.get st.receiver.lastAck.1 with
  | none =>
      have := h.receiving.absent hget
      omega
  | some sm =>
      obtain ⟨hfull, hhead⟩ := h.receiving.current sm hget
      have hvalid := (h.receiving.entry _ _ hget).1
      obtain ⟨d, hd, hlen⟩ := h.sized _ sm hget
      cases hk : sm.lastHeadIndex with
      | none =>
          rw [hk] at hhead
          simp only [Option.getD_none] at hhead
          omega
      | some k =>
          rw [hk, Option.getD_some] at hhead
          have hzero := SliceManager.lastHeadIndex_eq_some.mp hk
          have hcov : ∀ i ≤ k, Covered sm.slices i := fun i hi => ⟨0, k, hzero, Nat.zero_le i, hi⟩
          have hbound := hvalid.bound 0 k hzero
          have hshort : k + 1 ≠ sm.data.length := by
            intro heq
            exact hfull fun i hi => hcov i (by omega)
          exact ⟨Or.inr ⟨sm, hget, fun i hi => hcov i (hhead ▸ hi)⟩, d, hd, by omega⟩

private theorem Inv.entryFor_sized {st : Transfer} (h : Inv st) {s : Nat} {d : List UInt8}
    (hd : st.inserted[s]? = some d) : (st.receiver.entryFor s d.length).data.length = d.length := by
  unfold MessageManager.entryFor
  cases hget : st.receiver.incomingSlices.get s with
  | none => simp [SliceManager.new]
  | some sm =>
      obtain ⟨d', hd', hlen⟩ := h.sized s sm hget
      rw [hd] at hd'
      obtain rfl := Option.some.inj hd'
      simpa using hlen.symm

theorem inv_step (st : Transfer) (a : Action) (st' : Transfer) (h : Inv st)
    (hstep : st.step a = some st') : Inv st' := by
  cases step_moves hstep with
  | @insertMsg data _ _ hlen hins =>
      exact {
        sending := h.sending.insertMsg hins
        pending := h.pending.insertMsg h.sending hins
        small := by
          intro d hd
          rcases List.mem_append.mp hd with hd | hd
          · exact h.small d hd
          · rwa [List.mem_singleton.mp hd]
        frames := fun f hf => (h.frames f hf).append data
        acks := fun ack hack => (h.acks ack hack).append data
        receiving := h.receiving
        sized := h.sized.append data }
  | @emitSlices seq _ sm _ hget hslices =>
      refine { h with frames := ?_ }
      intro f hf
      rcases List.mem_append.mp hf with hf | hf
      · exact h.frames f hf
      · obtain ⟨firstIndex, piece, rfl, hpiece, _⟩ := SliceManager.getSlices_pieces hslices f hf
        obtain ⟨hd, hseq, _⟩ := h.sending.entry seq sm hget
        exact ⟨_, _, sm.data, firstIndex, piece, rfl, by rw [hseq, hd], hpiece⟩
  | @deliverSlice _ _ seq _ _ _ _ m hget hrecv =>
      obtain ⟨_, _, d, _, _, hf, hd, hpiece⟩ := h.frames _ (List.mem_of_getElem? hget)
      cases hf
      have hstored := h.receiving.recv_stored hpiece.1 hrecv
      have hknown := Known.stored hstored
      exact { h with
        pending := h.pending.mono hstored.ack_le hknown
        acks := fun ack hack => (h.acks ack hack).mono hstored.ack_le hknown
        receiving := h.receiving.recv hrecv
        sized := by
          intro s sm hs
          rcases hstored.entry s sm hs with hold | ⟨rfl, _, hrec⟩
          · exact h.sized s sm hold
          · exact ⟨d, hd, by rw [hrec.length, h.entryFor_sized hd]⟩ }
  | emitAck =>
      refine { h with acks := ?_ }
      intro ack hack
      rcases List.mem_append.mp hack with hack | hack
      · exact h.acks ack hack
      · rw [List.mem_singleton.mp hack]
        exact h.lastAck_ackOf
  | @deliverAck _ ack hget =>
      have hack := h.acks ack (List.mem_of_getElem? hget)
      exact { h with
        sending := h.sending.recvAck ack
        pending := h.pending.recvAck h.sending hack.1 hack.2 }
  | @takeRecvd out m htake =>
      obtain ⟨_, _, htake', hrec, _, hack, _, _⟩ := h.receiving.takeRecvd
      rw [htake] at htake'
      obtain ⟨rfl, rfl⟩ := Prod.mk.inj (Option.some.inj htake')
      have hknown := Known.takeRecvd htake
      exact { h with
        pending := h.pending.mono (by rw [hack]) hknown
        acks := fun ack hmem => (h.acks ack hmem).mono (by rw [hack]) hknown
        receiving := by simpa using hrec
        sized := by
          intro s sm hs
          obtain ⟨_, rfl⟩ := MessageManager.takeRecvd_eq_some.mp htake
          rw [SortedMap.get_splitOff_snd] at hs
          split at hs
          · exact h.sized s sm hs
          · cases hs }

theorem inv_run {epoch : Epoch} {actions : List Action} {st : Transfer}
    (h : run step (fresh epoch) actions = some st) : Inv st :=
  run_invariant inv_step (inv_fresh epoch) h

end Transfer

end LinkSet
