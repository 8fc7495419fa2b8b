import LinkSet.Messages.Manager

/-!
# The sending side

A manager keeps every message it was given until it is acknowledged. What it keeps of one is
the message itself and, as long as the acknowledgements come from the peer, the bytes from the
first unacknowledged one to the end.
-/

namespace LinkSet

open Framework

namespace SliceManager

/-- What is left to send of a message: nothing of an empty one, and of another one the bytes
from `start` on. -/
def Outstanding (s : SliceManager) (start : Nat) : Prop :=
  if s.data = [] then s.slices.entries = []
  else s.slices.entries = [(start, s.data.length - 1)] ∧ start < s.data.length

theorem fromVec_outstanding (epoch : Epoch) (seq : Nat) (data : List UInt8) :
    (fromVec epoch seq data).Outstanding 0 := by
  unfold Outstanding fromVec
  by_cases hdata : data = []
  · simp [hdata, SortedMap.empty]
  · rw [if_neg hdata, if_neg (by simpa using hdata)]
    exact ⟨rfl, List.length_pos_of_ne_nil hdata⟩

theorem Outstanding.getSlices {s : SliceManager} {start : Nat} (h : s.Outstanding start)
    (hlen : s.data.length ≤ isizeMax) {size : Nat} (hsize : size < 2 ^ 32) :
    ∃ frames, s.getSlices size = some frames := by
  unfold Outstanding at h
  by_cases hdata : s.data = []
  · rw [if_pos hdata] at h
    exact ⟨[], by simp [SliceManager.getSlices, h]⟩
  · rw [if_neg hdata] at h
    obtain ⟨hone, hlt⟩ := h
    by_cases hzero : size = 0
    · exact ⟨[], by simp [SliceManager.getSlices, hone, makeSlices, hzero]⟩
    · have hmax : isizeMax = 2 ^ 63 - 1 := rfl
      obtain ⟨frames, hframes, _⟩ := SliceManager.getSlices_carries hone (by omega) (by omega)
        (show 0 < size by omega) (by omega)
      exact ⟨frames, hframes⟩

theorem Outstanding.isEmpty_iff {s : SliceManager} {start : Nat} (h : s.Outstanding start) :
    s.isEmpty = true ↔ s.data = [] := by
  unfold Outstanding at h
  by_cases hdata : s.data = []
  · rw [if_pos hdata] at h
    simp [isEmpty, SortedMap.len, h, hdata]
  · rw [if_neg hdata] at h
    simp [isEmpty, SortedMap.len, h.1, hdata]

/-- An acknowledgement below the last byte moves the outstanding range to what follows it,
except that index 0 acknowledges nothing. -/
private theorem Outstanding.ack {s : SliceManager} {start lastIndex : Nat} (h : s.Outstanding start)
    (hlast : 0 < lastIndex → lastIndex + 1 < s.data.length) :
    (s.ack s.epoch s.seq lastIndex).Outstanding (if lastIndex = 0 then start else lastIndex + 1) := by
  have hslices : (s.ack s.epoch s.seq lastIndex).slices = removeSlice s.slices 0 lastIndex := by
    simp [SliceManager.ack]
  unfold Outstanding at h ⊢
  rw [ack_data, hslices]
  by_cases hzero : lastIndex = 0
  · subst hzero
    simpa [removeSlice] using h
  have hlt := hlast (by omega)
  by_cases hdata : s.data = []
  · simp [hdata] at hlt
  · rw [if_neg hdata] at h
    rw [if_neg hdata, if_neg hzero]
    exact ⟨removeSlice_single h.1 (by omega) (by omega), hlt⟩

end SliceManager

namespace MessageManager

theorem recvAck_get (m : MessageManager) (ack : Nat × Nat) (s : Nat) :
    (m.recvAck ack).outgoingSlices.get s =
      if s < ack.1 then none
      else if s = ack.1 then
        ((m.outgoingSlices.get s).map fun sm => sm.ack m.epoch s ack.2).filter fun sm => !sm.isEmpty
      else m.outgoingSlices.get s := by
  obtain ⟨seq, lastIndex⟩ := ack
  have hretain : ∀ s, (m.outgoingSlices.retain fun s _ => decide (seq ≤ s)).get s =
      if s < seq then none else m.outgoingSlices.get s := by
    intro s
    rw [SortedMap.get_retain]
    by_cases hs : s < seq
    · rw [if_pos hs]
      exact Option.filter_eq_none_iff.mpr (by simp [hs])
    · rw [if_neg hs]
      cases m.outgoingSlices.get s with
      | none => rfl
      | some sm => rw [Option.filter_some, if_pos (by simpa using hs)]
  unfold recvAck
  simp only [hretain, lt_irrefl, if_false]
  cases hget : m.outgoingSlices.get seq with
  | none =>
      simp only [hretain]
      by_cases hs : s = seq
      · subst hs
        simp [hget]
      · simp [hs]
  | some sm =>
      simp only
      by_cases hempty : (sm.ack m.epoch seq lastIndex).isEmpty = true
      · rw [if_pos hempty]
        simp only [SortedMap.get_erase, hretain]
        by_cases hs : s = seq
        · subst hs
          simp [hget, hempty, Option.filter_some]
        · simp [hs]
      · rw [if_neg hempty]
        simp only [SortedMap.get_insert, hretain]
        by_cases hs : s = seq
        · subst hs
          simp [hget, hempty, Option.filter_some]
        · simp [hs]

theorem recvAck_fields (m : MessageManager) (ack : Nat × Nat) :
    (m.recvAck ack).epoch = m.epoch ∧ (m.recvAck ack).nextSeq = m.nextSeq ∧
      (m.recvAck ack).incomingSlices = m.incomingSlices ∧ (m.recvAck ack).lastAck = m.lastAck := by
  unfold recvAck
  simp only
  split
  · exact ⟨rfl, rfl, rfl, rfl⟩
  · split <;> exact ⟨rfl, rfl, rfl, rfl⟩

end MessageManager

/-- The outgoing half against any peer: it holds only messages that were inserted, each under
its number. -/
structure Sending (m : MessageManager) (inserted : List (List UInt8)) : Prop where
  nextSeq : m.nextSeq = inserted.length
  entry : ∀ s sm, m.outgoingSlices.get s = some sm →
    inserted[s]? = some sm.data ∧ sm.seq = s ∧ sm.epoch = m.epoch

theorem sending_new (epoch : Epoch) : Sending (MessageManager.new epoch) [] where
  nextSeq := rfl
  entry := by simp [MessageManager.new]

namespace Sending

variable {m m' : MessageManager} {inserted : List (List UInt8)}

theorem insertMsg (h : Sending m inserted) {data : List UInt8} {seq : Nat}
    (hi : m.insertMsg data = some (seq, m')) : Sending m' (inserted ++ [data]) := by
  obtain ⟨_, _, rfl⟩ := MessageManager.insertMsg_eq_some.mp hi
  refine ⟨by simp [h.nextSeq], ?_⟩
  intro s sm hs
  rw [SortedMap.get_insert] at hs
  by_cases heq : s = m.nextSeq
  · rw [if_pos heq] at hs
    obtain rfl := Option.some.inj hs
    subst heq
    simp [SliceManager.fromVec, h.nextSeq]
  · rw [if_neg heq] at hs
    obtain ⟨hdata, hrest⟩ := h.entry s sm hs
    have hlt := (List.getElem?_eq_some_iff.mp hdata).1
    exact ⟨by rw [List.getElem?_append_left hlt, hdata], hrest⟩

private theorem recvAck_entry (h : Sending m inserted) {ack : Nat × Nat} {s : Nat}
    {sm : SliceManager} (hs : (m.recvAck ack).outgoingSlices.get s = some sm) :
    ∃ old, m.outgoingSlices.get s = some old ∧
      (sm = old ∧ s ≠ ack.1 ∨
        s = ack.1 ∧ sm = old.ack old.epoch old.seq ack.2 ∧ sm.isEmpty = false) := by
  rw [MessageManager.recvAck_get] at hs
  split at hs
  · cases hs
  split at hs
  · next heq =>
      obtain ⟨hmap, hne⟩ := Option.filter_eq_some_iff.mp hs
      obtain ⟨old, hold, rfl⟩ := Option.map_eq_some_iff.mp hmap
      obtain ⟨_, hseq, hepoch⟩ := h.entry s old hold
      exact ⟨old, hold, Or.inr ⟨heq, by rw [hseq, hepoch], by simpa using hne⟩⟩
  · next hne => exact ⟨sm, hs, Or.inl ⟨rfl, hne⟩⟩

theorem recvAck (h : Sending m inserted) (ack : Nat × Nat) :
    Sending (m.recvAck ack) inserted := by
  obtain ⟨hepoch, hnext, _⟩ := m.recvAck_fields ack
  refine ⟨hnext.trans h.nextSeq, ?_⟩
  intro s sm hs
  obtain ⟨old, hold, hcase⟩ := h.recvAck_entry hs
  have hentry := h.entry s old hold
  rw [hepoch]
  rcases hcase with ⟨rfl, _⟩ | ⟨_, rfl, _⟩
  · exact hentry
  · simpa using hentry

theorem congr (h : Sending m inserted) (hout : m'.outgoingSlices = m.outgoingSlices)
    (hnext : m'.nextSeq = m.nextSeq) (hepoch : m'.epoch = m.epoch) : Sending m' inserted where
  nextSeq := hnext.trans h.nextSeq
  entry := by
    intro s sm hs
    rw [hout] at hs
    rw [hepoch]
    exact h.entry s sm hs

end Sending

/-- The outgoing half against the peer it talks to. No message from number `floor` on has been
dropped unless it is empty, and bytes are held back from a message only up to an index that the
peer has `acked`. -/
structure Pending (m : MessageManager) (inserted : List (List UInt8)) (floor : Nat)
    (acked : Nat → Nat → Prop) : Prop where
  held : ∀ s d, floor ≤ s → inserted[s]? = some d → d ≠ [] → ∃ sm, m.outgoingSlices.get s = some sm
  outstanding : ∀ s sm, m.outgoingSlices.get s = some sm →
    ∃ start, sm.Outstanding start ∧ (start = 0 ∨ acked s (start - 1))

theorem pending_new (epoch : Epoch) (floor : Nat) (acked : Nat → Nat → Prop) :
    Pending (MessageManager.new epoch) [] floor acked where
  held := by simp
  outstanding := by simp [MessageManager.new]

namespace Pending

variable {m m' : MessageManager} {inserted : List (List UInt8)} {floor : Nat}
  {acked : Nat → Nat → Prop}

theorem mono (h : Pending m inserted floor acked) {floor' : Nat} {acked' : Nat → Nat → Prop}
    (hfloor : floor ≤ floor') (hacked : ∀ s k, acked s k → acked' s k) :
    Pending m inserted floor' acked' where
  held := fun s d hs hd hne => h.held s d (hfloor.trans hs) hd hne
  outstanding := by
    intro s sm hs
    obtain ⟨start, hout, hstart⟩ := h.outstanding s sm hs
    exact ⟨start, hout, hstart.imp_right (hacked s _)⟩

theorem insertMsg (h : Pending m inserted floor acked) (hsend : Sending m inserted)
    {data : List UInt8} {seq : Nat} (hi : m.insertMsg data = some (seq, m')) :
    Pending m' (inserted ++ [data]) floor acked := by
  obtain ⟨_, _, rfl⟩ := MessageManager.insertMsg_eq_some.mp hi
  refine ⟨?_, ?_⟩
  · intro s d hs hd hne
    simp only [SortedMap.get_insert]
    by_cases heq : s = m.nextSeq
    · rw [if_pos heq]
      exact ⟨_, rfl⟩
    · rw [if_neg heq]
      have hlt : s < inserted.length := by
        have hlen := (List.getElem?_eq_some_iff.mp hd).1
        rw [List.length_append, List.length_singleton] at hlen
        have := hsend.nextSeq
        omega
      rw [List.getElem?_append_left hlt] at hd
      exact h.held s d hs hd hne
  · intro s sm hs
    rw [SortedMap.get_insert] at hs
    by_cases heq : s = m.nextSeq
    · rw [if_pos heq] at hs
      obtain rfl := Option.some.inj hs
      exact ⟨0, SliceManager.fromVec_outstanding _ _ _, Or.inl rfl⟩
    · rw [if_neg heq] at hs
      exact h.outstanding s sm hs

theorem recvAck (h : Pending m inserted floor acked) (hsend : Sending m inserted)
    {ack : Nat × Nat} (hfloor : ack.1 ≤ floor)
    (hack : 0 < ack.2 → acked ack.1 ack.2 ∧ ∃ d, inserted[ack.1]? = some d ∧ ack.2 + 1 < d.length) :
    Pending (m.recvAck ack) inserted floor acked := by
  have hbound : ∀ old, m.outgoingSlices.get ack.1 = some old → 0 < ack.2 →
      ack.2 + 1 < old.data.length := by
    intro old hold hpos
    obtain ⟨_, d, hd, hlt⟩ := hack hpos
    rw [(hsend.entry _ _ hold).1] at hd
    obtain rfl := Option.some.inj hd
    exact hlt
  refine ⟨?_, ?_⟩
  · intro s d hs hd hne
    obtain ⟨old, hold⟩ := h.held s d hs hd hne
    rw [MessageManager.recvAck_get, if_neg (by omega)]
    by_cases heq : s = ack.1
    · rw [if_pos heq, hold]
      obtain ⟨hdata, hseq, hepoch⟩ := hsend.entry s old hold
      obtain ⟨start, hout, _⟩ := h.outstanding s old hold
      have hout' := hout.ack (hbound old (heq ▸ hold))
      rw [hd] at hdata
      have hkeep : (old.ack m.epoch s ack.2).isEmpty = false := by
        rw [← hepoch, ← hseq]
        apply Bool.eq_false_iff.mpr
        intro hempty
        rw [hout'.isEmpty_iff, SliceManager.ack_data, ← Option.some.inj hdata] at hempty
        exact hne hempty
      exact ⟨old.ack m.epoch s ack.2, by simp [hkeep, Option.filter_some]⟩
    · rw [if_neg heq]
      exact ⟨old, hold⟩
  · intro s sm hs
    obtain ⟨old, hold, hcase⟩ := hsend.recvAck_entry hs
    obtain ⟨start, hout, hstart⟩ := h.outstanding s old hold
    rcases hcase with ⟨rfl, _⟩ | ⟨heq, rfl, _⟩
    · exact ⟨start, hout, hstart⟩
    · subst heq
      refine ⟨_, hout.ack (hbound old hold), ?_⟩
      by_cases hzero : ack.2 = 0
      · rwa [if_pos hzero]
      · rw [if_neg hzero, Nat.add_sub_cancel]
        exact Or.inr (hack (by omega)).1

end Pending

end LinkSet
