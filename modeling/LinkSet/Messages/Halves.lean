import LinkSet.Messages.Integrity

/-!
# The two halves of a manager

A manager sends and receives, and its two halves share only the epoch. What one half does
depends on that half alone and leaves the other one as it is, so the manager of an endpoint can
be compared with the sending manager of one transfer and the receiving manager of another.
-/

namespace LinkSet

open Framework

namespace MessageManager

structure SameOutgoing (m m' : MessageManager) : Prop where
  epoch : m.epoch = m'.epoch
  outgoing : m.outgoingSlices = m'.outgoingSlices
  nextSeq : m.nextSeq = m'.nextSeq

structure SameIncoming (m m' : MessageManager) : Prop where
  epoch : m.epoch = m'.epoch
  incoming : m.incomingSlices = m'.incomingSlices
  lastAck : m.lastAck = m'.lastAck

variable {m m' m₁ : MessageManager}

theorem SameOutgoing.refl (m : MessageManager) : m.SameOutgoing m := ⟨rfl, rfl, rfl⟩

theorem SameIncoming.refl (m : MessageManager) : m.SameIncoming m := ⟨rfl, rfl, rfl⟩

theorem SameIncoming.symm (h : m.SameIncoming m') : m'.SameIncoming m :=
  ⟨h.epoch.symm, h.incoming.symm, h.lastAck.symm⟩

section outgoing

theorem SameOutgoing.insertMsg (h : m.SameOutgoing m') {data : List UInt8} {seq : Nat}
    (hi : m.insertMsg data = some (seq, m₁)) :
    ∃ m₁', m'.insertMsg data = some (seq, m₁') ∧ m₁.SameOutgoing m₁' := by
  obtain ⟨hlt, rfl, rfl⟩ := insertMsg_eq_some.mp hi
  refine ⟨_, insertMsg_eq_some.mpr ⟨h.nextSeq ▸ hlt, h.nextSeq, rfl⟩, h.epoch, ?_, ?_⟩
  · simp only [h.epoch, h.outgoing, h.nextSeq]
  · simp only [h.nextSeq]

theorem SameOutgoing.recvAck (h : m.SameOutgoing m') (ack : Nat × Nat) :
    (m.recvAck ack).SameOutgoing (m'.recvAck ack) := by
  have hfields := m.recvAck_fields ack
  have hfields' := m'.recvAck_fields ack
  refine ⟨?_, ?_, ?_⟩
  · rw [hfields.1, hfields'.1, h.epoch]
  · apply SortedMap.ext_get
    intro s
    rw [m.recvAck_get, m'.recvAck_get, h.outgoing, h.epoch]
  · rw [hfields.2.1, hfields'.2.1, h.nextSeq]

theorem SameOutgoing.recv {seq firstIndex seqLen : Nat} {data : List UInt8} {b : Bool}
    (h : m.SameOutgoing m') (hr : m.recv seq firstIndex seqLen data = some (b, m₁)) :
    m₁.SameOutgoing m' := by
  rcases recv_cases hr with ⟨rfl, _⟩ | ⟨_, _, _, _, rfl⟩ | ⟨_, _, _, _, _, _, rfl⟩
  · exact h
  · exact ⟨h.epoch, h.outgoing, h.nextSeq⟩
  · exact ⟨h.epoch, h.outgoing, h.nextSeq⟩

theorem SameOutgoing.takeRecvd {out : List (List UInt8)} (h : m.SameOutgoing m')
    (ht : m.takeRecvd = some (out, m₁)) : m₁.SameOutgoing m' := by
  obtain ⟨_, rfl⟩ := takeRecvd_eq_some.mp ht
  exact ⟨h.epoch, h.outgoing, h.nextSeq⟩

theorem insertMsg_outgoing {P : SliceManager → Prop}
    (h : ∀ k sm, m.outgoingSlices.get k = some sm → P sm) {data : List UInt8} {seq : Nat}
    (hi : m.insertMsg data = some (seq, m')) (hnew : P (SliceManager.fromVec m.epoch m.nextSeq data)) :
    ∀ k sm, m'.outgoingSlices.get k = some sm → P sm := by
  obtain ⟨_, _, rfl⟩ := insertMsg_eq_some.mp hi
  intro k sm hk
  rw [SortedMap.get_insert] at hk
  split at hk
  · obtain rfl := Option.some.inj hk
    exact hnew
  · exact h k sm hk

theorem recvAck_outgoing {P : SliceManager → Prop}
    (h : ∀ k sm, m.outgoingSlices.get k = some sm → P sm)
    (hshort : ∀ sm epoch seq lastIndex, P sm → P (sm.ack epoch seq lastIndex)) (ack : Nat × Nat) :
    ∀ k sm, (m.recvAck ack).outgoingSlices.get k = some sm → P sm := by
  intro k sm hk
  rw [recvAck_get] at hk
  split at hk
  · cases hk
  · split at hk
    · obtain ⟨hmap, _⟩ := Option.filter_eq_some_iff.mp hk
      obtain ⟨old, hold, rfl⟩ := Option.map_eq_some_iff.mp hmap
      exact hshort old _ _ _ (h k old hold)
    · exact h k sm hk

end outgoing

section incoming

private theorem SameIncoming.entryFor (h : m.SameIncoming m') (seq seqLen : Nat) :
    m.entryFor seq seqLen = m'.entryFor seq seqLen := by
  unfold MessageManager.entryFor
  rw [h.incoming, h.epoch]

theorem SameIncoming.recv {seq firstIndex seqLen : Nat} {data : List UInt8} {b : Bool}
    (h : m.SameIncoming m') (hr : m.recv seq firstIndex seqLen data = some (b, m₁)) :
    ∃ m₁', m'.recv seq firstIndex seqLen data = some (b, m₁') ∧ m₁.SameIncoming m₁' := by
  rcases Nat.lt_trichotomy seq m.lastAck.1 with hlow | hat | hhigh
  · rw [recv_below hlow] at hr
    obtain ⟨rfl, rfl⟩ := Prod.mk.inj (Option.some.inj hr)
    exact ⟨m', recv_below (h.lastAck ▸ hlow), h⟩
  · rw [recv_at hat] at hr
    rw [recv_at (h.lastAck ▸ hat), ← h.lastAck, ← h.incoming, ← h.epoch, ← h.entryFor]
    split at hr
    · cases hr
    next hfit =>
      rw [if_neg hfit]
      split at hr
      · next hout =>
          obtain ⟨rfl, rfl⟩ := Prod.mk.inj (Option.some.inj hr)
          rw [if_pos hout]
          exact ⟨m', rfl, h⟩
      · next hin =>
          obtain ⟨sm, hsm, hr⟩ := Option.bind_eq_some_iff.mp hr
          obtain ⟨ack, hcatch, hr⟩ := Option.map_eq_some_iff.mp hr
          obtain ⟨rfl, rfl⟩ := Prod.mk.inj hr
          rw [if_neg hin, hsm, Option.bind_some, hcatch]
          exact ⟨_, rfl, rfl, rfl, rfl⟩
  · rw [recv_above hhigh] at hr
    obtain ⟨sm, hsm, hr⟩ := Option.map_eq_some_iff.mp hr
    obtain ⟨rfl, rfl⟩ := Prod.mk.inj hr
    rw [recv_above (h.lastAck ▸ hhigh), ← h.incoming, ← h.epoch, ← h.entryFor, hsm]
    exact ⟨_, rfl, rfl, rfl, h.lastAck⟩

theorem SameIncoming.takeRecvd {out : List (List UInt8)} (h : m.SameIncoming m')
    (ht : m.takeRecvd = some (out, m₁)) :
    ∃ m₁', m'.takeRecvd = some (out, m₁') ∧ m₁.SameIncoming m₁' := by
  obtain ⟨hout, rfl⟩ := takeRecvd_eq_some.mp ht
  rw [h.incoming, h.lastAck] at hout
  refine ⟨_, takeRecvd_eq_some.mpr ⟨hout, rfl⟩, h.epoch, ?_, h.lastAck⟩
  simp only [h.incoming, h.lastAck]

theorem SameIncoming.insertMsg (h : m.SameIncoming m') {data : List UInt8} {seq : Nat}
    (hi : m.insertMsg data = some (seq, m₁)) : m₁.SameIncoming m' := by
  obtain ⟨_, _, rfl⟩ := insertMsg_eq_some.mp hi
  exact ⟨h.epoch, h.incoming, h.lastAck⟩

theorem SameIncoming.recvAck (h : m.SameIncoming m') (ack : Nat × Nat) :
    (m.recvAck ack).SameIncoming m' := by
  obtain ⟨hepoch, _, hincoming, hlast⟩ := m.recvAck_fields ack
  exact ⟨hepoch.trans h.epoch, hincoming.trans h.incoming, hlast.trans h.lastAck⟩

theorem SameIncoming.joinsEntry (h : m.SameIncoming m') {frame : LinkProtocol}
    (hj : Transfer.JoinsEntry m frame) : Transfer.JoinsEntry m' frame := by
  cases frame with
  | msgSlice epoch seq seqLen firstIndex data =>
      simp only [Transfer.JoinsEntry] at hj ⊢
      rw [← h.entryFor]
      exact hj
  | _ => trivial

end incoming

end MessageManager

end LinkSet
