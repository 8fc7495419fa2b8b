import LinkSet.Messages.Halves
import LinkSet.Messages.Progress
import LinkSet.Messages.Retransmit

/-!
# A message that is sent again becomes complete

The sender repeats the earliest message it holds. The receiver is not past that message by more
than lost acknowledgements, so once all slices of it have arrived, whatever came before, the
receiver is past it, and the report of the last slice makes it say so.
-/

namespace LinkSet

open Framework

/-- The receiver is past message `k` or has marked its byte `i`. -/
def MessageManager.Has (m : MessageManager) (k i : Nat) : Prop :=
  k < m.lastAck.1 ∨ Transfer.Marked m k i

namespace MessageManager.Has

variable {m m' : MessageManager} {k i : Nat}

theorem of_known {j : Nat} (h : Transfer.Known m k j) (hi : i ≤ j) : m.Has k i := by
  rcases h with hlt | ⟨sm, hsm, hcov⟩
  · exact Or.inl hlt
  · exact Or.inr ⟨sm, hsm, hcov i hi⟩

theorem stored {seq firstIndex seqLen : Nat} {data : List UInt8} (h : m.Has k i)
    (hstored : Stored m m' seq firstIndex seqLen data) : m'.Has k i := by
  rcases h with hlt | ⟨sm, hsm, hcov⟩
  · exact Or.inl (Nat.lt_of_lt_of_le hlt hstored.ack_le)
  · obtain ⟨sm', hsm', hkept⟩ := hstored.kept k sm hsm
    exact Or.inr ⟨sm', hsm', hkept i hcov⟩

theorem takeRecvd {out : List (List UInt8)} (h : m.Has k i)
    (htake : m.takeRecvd = some (out, m')) : m'.Has k i := by
  obtain ⟨_, rfl⟩ := takeRecvd_eq_some.mp htake
  rcases h with hlt | ⟨sm, hsm, hcov⟩
  · exact Or.inl hlt
  · by_cases hlt : k < m.lastAck.1
    · exact Or.inl hlt
    · refine Or.inr ⟨sm, ?_, hcov⟩
      rw [SortedMap.get_splitOff_snd, if_pos (Nat.not_lt.mp hlt), hsm]

theorem congr (h : m.Has k i) (hsame : m.SameIncoming m') : m'.Has k i := by
  unfold Has Transfer.Marked
  rw [← hsame.incoming, ← hsame.lastAck]
  exact h

end MessageManager.Has

namespace Receiving

variable {m m' : MessageManager} {n k firstIndex seqLen : Nat} {data : List UInt8} {b : Bool}

theorem head_lt (h : Receiving m n)
    (hlen : ∀ sm, m.incomingSlices.get m.lastAck.1 = some sm → sm.data.length = seqLen)
    (hpos : 0 < seqLen) : m.lastAck.2 < seqLen := by
  cases hs : m.incomingSlices.get m.lastAck.1 with
  | none =>
      rw [h.absent hs]
      exact hpos
  | some sm =>
      rw [(h.current sm hs).2, SliceManager.lastHeadIndex_eq]
      cases hhead : sm.slices.get 0 with
      | none => exact hpos
      | some last =>
          rw [← hlen sm hs]
          exact (h.entry _ sm hs).1.bound 0 last hhead

theorem recv_has (h : Receiving m n)
    (hlen : ∀ sm, m.incomingSlices.get k = some sm → sm.data.length = seqLen) (hdata : data ≠ [])
    (hfit : firstIndex + data.length ≤ seqLen)
    (hr : m.recv k firstIndex seqLen data = some (b, m')) {i : Nat} (hi : firstIndex ≤ i)
    (hlt : i < firstIndex + data.length) : m'.Has k i := by
  have hentry : (m.entryFor k seqLen).data.length = seqLen := by
    unfold MessageManager.entryFor
    cases hs : m.incomingSlices.get k with
    | none => simp [SliceManager.new]
    | some sm => exact hlen sm hs
  have hmarked : ∀ sm, (m.entryFor k seqLen).recvSlice m.epoch k firstIndex data = some sm →
      Covered sm.slices i := by
    intro sm hrecv
    apply ((h.received hdata hrecv).2.covered i).mpr
    have hreach := le_reach (m.entryFor k seqLen).slices firstIndex
      ((m.entryFor k seqLen).fragmentEnd firstIndex data)
    have hend : i ≤ (m.entryFor k seqLen).fragmentEnd firstIndex data := by
      rw [SliceManager.fragmentEnd, hentry]
      omega
    exact Or.inr ⟨by omega, hi, hend.trans hreach⟩
  have hself := fun sm => SortedMap.get_insert_self m.incomingSlices k sm
  rcases MessageManager.recv_cases hr with ⟨rfl, _, hlow | ⟨rfl, hpast⟩⟩ | ⟨sm, _, _, hrecv, rfl⟩ |
    ⟨sm, lastAck, _, _, hrecv, _, rfl⟩
  · exact Or.inl hlow
  · have hhead := h.head_lt hlen (by omega)
    omega
  · exact Or.inr ⟨sm, hself sm, hmarked sm hrecv⟩
  · exact Or.inr ⟨sm, hself sm, hmarked sm hrecv⟩

theorem recv_reports (h : Receiving m n) (hr : m.recv k firstIndex seqLen data = some (b, m'))
    (hpast : k < m'.lastAck.1) : b = true := by
  rcases MessageManager.recv_cases hr with ⟨_, hb, _⟩ | ⟨sm, hseq, _, _, rfl⟩ |
    ⟨sm, lastAck, hseq, _, hrecv, hcatch, rfl⟩
  · exact hb
  · have hlt : k < m.lastAck.1 := hpast
    omega
  · by_cases hfull : sm.Full
    · exact ((h.catchUp_report hseq hrecv hcatch).1 hfull).1
    · obtain ⟨rest, hrest⟩ :=
        SortedMap.rangeFrom_cons (SortedMap.get_insert_self m.incomingSlices k sm)
      rw [hrest, catchUp_unfilled hseq (h.grown hrecv).2.valid hfull] at hcatch
      obtain ⟨rfl, _⟩ := Prod.mk.inj (Option.some.inj hcatch)
      exact absurd hpast (Nat.lt_irrefl k)

theorem past_of_has (h : Receiving m n) {len : Nat}
    (hlen : ∀ sm, m.incomingSlices.get k = some sm → sm.data.length = len) (hpos : 0 < len)
    (hle : k ≤ m.lastAck.1) (hall : ∀ i < len, m.Has k i) : k < m.lastAck.1 := by
  by_contra hnot
  obtain rfl : k = m.lastAck.1 := by omega
  have hmarked : ∀ i < len, Transfer.Marked m m.lastAck.1 i := fun i hi =>
    (hall i hi).resolve_left (Nat.lt_irrefl _)
  obtain ⟨sm, hsm, _⟩ := hmarked 0 hpos
  apply (h.current sm hsm).1
  intro i hi
  rw [hlen sm hsm] at hi
  obtain ⟨sm', hsm', hcov⟩ := hmarked i hi
  rw [hsm] at hsm'
  rwa [Option.some.inj hsm']

end Receiving

namespace Transfer

/-- The earliest message the sender holds, if none is empty: the receiver is not behind it, and the
slices carry every byte of it that the receiver does not have. -/
theorem Inv.resends {st : Transfer} (h : Inv st) (hne : ∀ d ∈ st.inserted, d ≠ []) {k : Nat}
    {sm : SliceManager} (hget : st.sender.outgoingSlices.get k = some sm)
    (hfirst : ∀ k' sm', st.sender.outgoingSlices.get k' = some sm' → k ≤ k') {size : Nat}
    (hpos : 0 < size) (hsize : size < 2 ^ 32) :
    k ≤ st.receiver.lastAck.1 ∧ ∃ frames, sm.getSlices size = some frames ∧ frames ≠ [] ∧
      ∀ i < sm.data.length, st.receiver.Has k i ∨ ∃ f ∈ frames, Carries f k i := by
  obtain ⟨hdata, hseq, _⟩ := h.sending.entry k sm hget
  have hmem := List.mem_of_getElem? hdata
  have hsmall := h.small _ hmem
  obtain ⟨start, hout, hknown⟩ := h.pending.outstanding k sm hget
  rw [SliceManager.Outstanding, if_neg (hne _ hmem)] at hout
  constructor
  · by_contra hlt
    have hlt' : st.receiver.lastAck.1 < st.inserted.length :=
      (Nat.not_le.mp hlt).trans (List.getElem?_eq_some_iff.mp hdata).1
    have hd := List.getElem?_eq_getElem hlt'
    obtain ⟨sm', hsm'⟩ :=
      h.pending.held _ _ (Nat.le_refl _) hd (hne _ (List.getElem_mem hlt'))
    exact hlt (hfirst _ sm' hsm')
  · have hmax : isizeMax = 2 ^ 63 - 1 := rfl
    obtain ⟨frames, hframes, hcarry⟩ := SliceManager.getSlices_carries hout.1 (by omega) (by omega)
      hpos (by omega)
    rw [hseq] at hcarry
    refine ⟨frames, hframes, ?_, ?_⟩
    · rintro rfl
      obtain ⟨f, hf, _⟩ := hcarry start (Nat.le_refl _) (by omega)
      cases hf
    · intro i hi
      by_cases hlow : i < start
      · have hhas := hknown.resolve_left (by omega)
        exact Or.inl (.of_known hhas (by omega))
      · exact Or.inr (hcarry i (by omega) (by omega))

end Transfer

end LinkSet
