import LinkSet.Messages.Receiver
import LinkSet.Wire.Format

/-!
# Releasing messages to the user

A receiving manager against an arbitrary peer: any slices in any order, `take_recvd` at any
time. Messages leave it in sequence order, each once; whether a slice can be taken at all is a
condition on its numbers.
-/

namespace LinkSet

open Framework

/-- A receiving manager and the messages it has released, each with its sequence number. -/
structure Intake where
  mgr : MessageManager
  released : List (Nat × List UInt8)

namespace Intake

inductive Action where
  | recv (seq firstIndex seqLen : Nat) (data : List UInt8)
  | takeRecvd

def fresh (epoch : Epoch) : Intake := ⟨MessageManager.new epoch, []⟩

/-- The numbers `take_recvd` goes through, in the order it does. -/
def takenSeqs (m : MessageManager) : List Nat :=
  (m.incomingSlices.splitOff m.lastAck.1).1.entries.map Prod.fst

def step (st : Intake) : Action → Option Intake
  | .recv seq firstIndex seqLen data =>
      if data = [] then none
      else (st.mgr.recv seq firstIndex seqLen data).map fun r => { st with mgr := r.2 }
  | .takeRecvd =>
      st.mgr.takeRecvd.map fun r => ⟨r.2, st.released ++ (takenSeqs st.mgr).zip r.1⟩

/-- What holds after every run. -/
structure Inv (st : Intake) : Prop where
  receiving : Receiving st.mgr st.released.length
  ordered : st.released.map Prod.fst = List.range st.released.length

private theorem inv_fresh (epoch : Epoch) : Inv (fresh epoch) := ⟨receiving_new epoch, rfl⟩

private theorem Inv.takenSeqs_eq {st : Intake} (h : Inv st) {out : List (List UInt8)}
    (hlen : st.released.length + out.length = st.mgr.lastAck.1) :
    takenSeqs st.mgr = List.range' st.released.length out.length := by
  rw [takenSeqs, SortedMap.keys_of_interval h.receiving.taken_interval, ← hlen,
    Nat.add_sub_cancel_left]

private theorem inv_step (st : Intake) (a : Action) (st' : Intake) (h : Inv st)
    (hstep : st.step a = some st') : Inv st' := by
  cases a with
  | recv seq firstIndex seqLen data =>
      by_cases hdata : data = []
      · rw [step, if_pos hdata] at hstep
        cases hstep
      · rw [step, if_neg hdata] at hstep
        obtain ⟨⟨b, m'⟩, hrecv, rfl⟩ := Option.map_eq_some_iff.mp hstep
        exact ⟨h.receiving.recv hrecv, h.ordered⟩
  | takeRecvd =>
      obtain ⟨⟨out, m'⟩, htake, rfl⟩ := Option.map_eq_some_iff.mp hstep
      obtain ⟨out', m'', htake', hrec, hlen, _⟩ := h.receiving.takeRecvd
      rw [htake] at htake'
      obtain ⟨rfl, rfl⟩ := Prod.mk.inj (Option.some.inj htake')
      have hseqs := h.takenSeqs_eq hlen
      have hzip : ((takenSeqs st.mgr).zip out).map Prod.fst =
          List.range' st.released.length out.length := by
        rw [List.map_fst_zip (by rw [hseqs, List.length_range']), hseqs]
      have hziplen : ((takenSeqs st.mgr).zip out).length = out.length := by
        rw [List.length_zip, hseqs, List.length_range', Nat.min_self]
      refine ⟨?_, ?_⟩
      · simpa only [List.length_append, hziplen] using hrec
      · simp only [List.map_append, h.ordered, hzip, List.length_append, hziplen]
        have happ := List.range'_append_1 (s := 0) (m := st.released.length) (n := out.length)
        rw [List.range_eq_range', List.range_eq_range', ← happ, Nat.zero_add]

private theorem inv_run {epoch : Epoch} {actions : List Action} {st : Intake}
    (h : run step (fresh epoch) actions = some st) : Inv st :=
  run_invariant (fun s a s' => inv_step s a s') (inv_fresh epoch) h

/-- Whatever arrives, the messages released so far carry the numbers 0, 1, 2, ... in this
order, and the next `take_recvd` returns the full buffers that follow, without failing. -/
theorem released_in_order (epoch : Epoch) (actions : List Action) (st : Intake)
    (h : run step (fresh epoch) actions = some st) :
    st.released.map Prod.fst = List.range st.released.length ∧
    ∃ out mgr, st.mgr.takeRecvd = some (out, mgr) ∧
      st.step .takeRecvd = some ⟨mgr, st.released ++
        (List.range' st.released.length out.length).zip out⟩ ∧
      ∀ i < out.length, ∃ sm, st.mgr.incomingSlices.get (st.released.length + i) = some sm ∧
        sm.seq = st.released.length + i ∧ sm.isFull = some true ∧ out[i]? = some sm.data := by
  have hinv := inv_run h
  obtain ⟨out, mgr, htake, _, hlen, _, _, hout⟩ := hinv.receiving.takeRecvd
  have hseqs := hinv.takenSeqs_eq hlen
  refine ⟨hinv.ordered, out, mgr, htake, by rw [step, htake, hseqs]; rfl, ?_⟩
  intro i hi
  obtain ⟨sm, hsm, hfull, hget⟩ := hout i hi
  obtain ⟨hvalid, hseq, _⟩ := hinv.receiving.entry _ sm hsm
  exact ⟨sm, hsm, hseq, hvalid.isFull_true.mpr hfull, hget⟩

/-- Two one-byte messages that arrive in the wrong order. -/
theorem released_in_order_swapped :
    ∃ st, run step (fresh Epoch.one) [.recv 1 0 1 [8], .takeRecvd, .recv 0 0 1 [7], .takeRecvd] =
        some st ∧ st.released = [(0, [7]), (1, [8])] ∧
      st.released.map Prod.fst = List.range st.released.length :=
  ⟨_, rfl, rfl, (released_in_order Epoch.one
    [.recv 1 0 1 [8], .takeRecvd, .recv 0 0 1 [7], .takeRecvd] _ rfl).1⟩

end Intake

/-- The slice makes its entry complete: what it marks and what is marked already fill the
buffer. -/
def Completes (m : MessageManager) (seq firstIndex seqLen : Nat) (data : List UInt8) : Prop :=
  let entry := m.entryFor seq seqLen
  ∀ i < entry.data.length, Covered entry.slices i ∨
    (firstIndex ≤ i ∧ i ≤ reach entry.slices firstIndex (entry.fragmentEnd firstIndex data))

/-- The slices a manager takes without an overflow: those of a completed sequence, and those
whose two sums fit, that do not open a sequence of length zero, and after which not every
number up to the last 64-bit one would be complete. -/
def SafeSlice (m : MessageManager) (seq firstIndex seqLen : Nat) (data : List UInt8) : Prop :=
  seq < m.lastAck.1 ∨
  ((seq = m.lastAck.1 → firstIndex + seqLen < 2 ^ 64) ∧
    ((seq = m.lastAck.1 ∧ firstIndex + seqLen ≤ m.lastAck.2) ∨
      (firstIndex + data.length < 2 ^ 64 ∧ (m.incomingSlices.get seq = none → seqLen ≠ 0) ∧
        ¬ (seq = m.lastAck.1 ∧ Completes m seq firstIndex seqLen data ∧
          ∀ s, seq < s → s < 2 ^ 64 →
            ∃ sm, m.incomingSlices.get s = some sm ∧ sm.isFull = some true))))

namespace Receiving

variable {m : MessageManager} {n seq firstIndex seqLen : Nat} {data : List UInt8}

private theorem entryFor_length (h : Receiving m n) :
    (m.entryFor seq seqLen).data.length ≠ 0 ↔ (m.incomingSlices.get seq = none → seqLen ≠ 0) := by
  unfold MessageManager.entryFor
  cases hg : m.incomingSlices.get seq with
  | none => simp [SliceManager.new]
  | some sm =>
      have := (h.entry seq sm hg).1.nonempty
      simp only [Option.getD_some, reduceCtorEq, false_implies, iff_true]
      omega

private theorem recvSlice_isSome (h : Receiving m n) (hdata : data ≠ []) :
    (∃ sm, (m.entryFor seq seqLen).recvSlice m.epoch seq firstIndex data = some sm) ↔
      firstIndex + data.length < 2 ^ 64 ∧ (m.incomingSlices.get seq = none → seqLen ≠ 0) := by
  obtain ⟨hepoch, hseq⟩ := h.entryFor_fields seq seqLen
  have heq : (m.entryFor seq seqLen).recvSlice m.epoch seq firstIndex data =
      (m.entryFor seq seqLen).recvSlice (m.entryFor seq seqLen).epoch
        (m.entryFor seq seqLen).seq firstIndex data := by rw [hepoch, hseq]
  rw [heq, SliceManager.recvSlice_eq _ _ hdata, ← h.entryFor_length]
  by_cases hbad : 2 ^ 64 ≤ firstIndex + data.length ∨ (m.entryFor seq seqLen).data.length = 0
  · rw [if_pos hbad]
    simp only [reduceCtorEq, exists_false, false_iff]
    omega
  · rw [if_neg hbad]
    have hgood : firstIndex + data.length < 2 ^ 64 ∧
        (m.entryFor seq seqLen).data.length ≠ 0 := by omega
    split
    · exact ⟨fun _ => hgood, fun _ => ⟨_, rfl⟩⟩
    · exact ⟨fun _ => hgood, fun _ => ⟨_, rfl⟩⟩

theorem full_iff_completes (h : Receiving m n) (hdata : data ≠ []) {sm : SliceManager}
    (hr : (m.entryFor seq seqLen).recvSlice m.epoch seq firstIndex data = some sm) :
    sm.Full ↔ Completes m seq firstIndex seqLen data := by
  obtain ⟨hvalid, hrec⟩ := h.received hdata hr
  unfold SliceManager.Full Completes
  rw [hrec.length]
  apply forall_congr'
  intro i
  apply imp_congr_right
  intro hi
  rw [hrec.covered i]
  constructor
  · intro hc
    rcases hc with hc | hc
    · exact Or.inl hc
    · exact Or.inr hc.2
  · intro hc
    rcases hc with hc | hc
    · exact Or.inl hc
    · exact Or.inr ⟨by omega, hc⟩

/-- Catching up after the fragment is stored fails when the fragment completes the sequence
waited for and all numbers after it are complete. -/
private theorem catchUp_fails_iff (h : Receiving m n) (hdata : data ≠ [])
    (hseq : seq = m.lastAck.1) {sm : SliceManager}
    (hr : (m.entryFor seq seqLen).recvSlice m.epoch seq firstIndex data = some sm) :
    catchUp ((m.incomingSlices.insert seq sm).rangeFrom seq) m.lastAck false = none ↔
      Completes m seq firstIndex seqLen data ∧ ∀ s, seq < s → s < 2 ^ 64 →
        ∃ sm, m.incomingSlices.get s = some sm ∧ sm.isFull = some true := by
  have hother : ∀ s, s ≠ seq → (m.incomingSlices.insert seq sm).get s = m.incomingSlices.get s := by
    intro s hs
    rw [SortedMap.get_insert, if_neg hs]
  have hvalid : ∀ e ∈ (m.incomingSlices.insert seq sm).rangeFrom seq, e.2.Valid := by
    intro e he
    exact (h.insert_entry hr e.1 e.2 (SortedMap.mem_rangeFrom.mp he).1).1
  have hfits := h.fits
  rw [catchUp_eq_none (SortedMap.rangeFrom_sorted _ seq)
    (fun e he => hseq ▸ (SortedMap.mem_rangeFrom.mp he).2) hvalid h.fits,
    ← h.full_iff_completes hdata hr]
  constructor
  · intro hall
    refine ⟨?_, ?_⟩
    · obtain ⟨sm', hmem, hfull⟩ := hall seq (by omega) (by omega)
      have hget := (SortedMap.mem_rangeFrom.mp hmem).1
      rw [SortedMap.get_insert_self] at hget
      exact Option.some.inj hget ▸ hfull
    · intro s hs hs'
      obtain ⟨sm', hmem, hfull⟩ := hall s (by omega) hs'
      have hget := (SortedMap.mem_rangeFrom.mp hmem).1
      rw [hother s (by omega)] at hget
      exact ⟨sm', hget, (h.entry s sm' hget).1.isFull_true.mpr hfull⟩
  · intro hall s hs hs'
    by_cases heq : s = seq
    · subst heq
      exact ⟨sm, SortedMap.mem_rangeFrom.mpr ⟨SortedMap.get_insert_self _ _ _, Nat.le_refl _⟩,
        hall.1⟩
    · obtain ⟨sm', hget, hfull⟩ := hall.2 s (by omega) hs'
      refine ⟨sm', SortedMap.mem_rangeFrom.mpr ⟨?_, by omega⟩,
        (h.entry s sm' hget).1.isFull_true.mp hfull⟩
      rw [hother s heq, hget]

/-- `recv` returns exactly on the safe slices. -/
theorem recv_isSome_iff (h : Receiving m n) (hdata : data ≠ []) :
    (∃ r, m.recv seq firstIndex seqLen data = some r) ↔
      SafeSlice m seq firstIndex seqLen data := by
  unfold SafeSlice
  have hslice := @recvSlice_isSome m n seq firstIndex seqLen data h hdata
  rcases Nat.lt_trichotomy seq m.lastAck.1 with hlow | hat | hhigh
  · rw [MessageManager.recv_below hlow]
    exact ⟨fun _ => Or.inl hlow, fun _ => ⟨_, rfl⟩⟩
  · rw [MessageManager.recv_at hat]
    by_cases hover : 2 ^ 64 ≤ firstIndex + seqLen
    · rw [if_pos hover]
      simp only [reduceCtorEq, exists_false, false_iff]
      omega
    rw [if_neg hover]
    by_cases hout : firstIndex + seqLen ≤ m.lastAck.2
    · rw [if_pos hout]
      exact ⟨fun _ => Or.inr ⟨fun _ => by omega, Or.inl ⟨hat, hout⟩⟩, fun _ => ⟨_, rfl⟩⟩
    rw [if_neg hout]
    cases hrecv : (m.entryFor seq seqLen).recvSlice m.epoch seq firstIndex data with
    | none =>
        rw [hrecv] at hslice
        simp only [reduceCtorEq, exists_false, false_iff] at hslice
        simp only [Option.bind_none, reduceCtorEq, exists_false, false_iff]
        intro hsafe
        rcases hsafe with hlow | ⟨_, hin | hin⟩
        · omega
        · exact hout hin.2
        · exact hslice ⟨hin.1, hin.2.1⟩
    | some sm =>
        obtain ⟨hfit, hopen⟩ := hslice.mp ⟨sm, hrecv⟩
        have hcatch := h.catchUp_fails_iff hdata hat hrecv
        rw [Option.bind_some]
        constructor
        · intro hret
          obtain ⟨r, hr⟩ := hret
          refine Or.inr ⟨fun _ => by omega, Or.inr ⟨hfit, hopen, ?_⟩⟩
          intro hend
          rw [hcatch.mpr hend.2] at hr
          cases hr
        · intro hsafe
          rcases hsafe with hlow | ⟨_, hin | hin⟩
          · omega
          · exact absurd hin.2 hout
          · cases hc : catchUp ((m.incomingSlices.insert seq sm).rangeFrom seq) m.lastAck false with
            | none => exact absurd ⟨hat, hcatch.mp hc⟩ hin.2.2
            | some r => exact ⟨_, rfl⟩
  · rw [MessageManager.recv_above hhigh]
    have hne : seq ≠ m.lastAck.1 := by omega
    constructor
    · intro hret
      obtain ⟨r, hr⟩ := hret
      obtain ⟨sm, hrecv, _⟩ := Option.map_eq_some_iff.mp hr
      obtain ⟨hfit, hopen⟩ := hslice.mp ⟨sm, hrecv⟩
      exact Or.inr ⟨fun heq => absurd heq hne, Or.inr ⟨hfit, hopen, fun hend => hne hend.1⟩⟩
    · intro hsafe
      rcases hsafe with hlow | ⟨_, hin | hin⟩
      · omega
      · exact absurd hin.1 hne
      · obtain ⟨sm, hrecv⟩ := hslice.mpr ⟨hin.1, hin.2.1⟩
        exact ⟨_, by rw [hrecv]; rfl⟩

end Receiving

/-- On every decoded slice, in every state reached from a fresh manager, `recv` and the
`take_recvd` after it return exactly when the slice is safe. -/
theorem recv_takeRecvd_returns_iff (epoch : Epoch) (actions : List Intake.Action) (st : Intake)
    (hrun : run Intake.step (Intake.fresh epoch) actions = some st)
    (bytes rest : List UInt8) (frameEpoch seq seqLen firstIndex : Nat) (data : List UInt8)
    (hdec : LinkProtocol.deserialize bytes =
      .ok (.msgSlice frameEpoch seq seqLen firstIndex data, rest)) :
    (∃ b mgr out mgr', st.mgr.recv seq firstIndex seqLen data = some (b, mgr) ∧
      mgr.takeRecvd = some (out, mgr')) ↔ SafeSlice st.mgr seq firstIndex seqLen data := by
  have hrecv := (Intake.inv_run hrun).receiving
  have hdata := LinkProtocol.deserialize_data_ne_nil hdec
  rw [← hrecv.recv_isSome_iff hdata]
  constructor
  · intro h
    obtain ⟨b, mgr, _, _, h, _⟩ := h
    exact ⟨(b, mgr), h⟩
  · intro h
    obtain ⟨⟨b, mgr⟩, h⟩ := h
    obtain ⟨out, mgr', htake, _⟩ := (hrecv.recv h).takeRecvd
    exact ⟨b, mgr, out, mgr', h, htake⟩

/-- The frame of a two-byte message's first byte. -/
private def firstByteFrame : List UInt8 :=
  LinkProtocol.serialize (.msgSlice 1 0 2 0 [7])

theorem recv_takeRecvd_returns_iff_first :
    (∃ b mgr out mgr', (MessageManager.new Epoch.one).recv 0 0 2 [7] = some (b, mgr) ∧
      mgr.takeRecvd = some (out, mgr')) ↔ SafeSlice (MessageManager.new Epoch.one) 0 0 2 [7] :=
  recv_takeRecvd_returns_iff Epoch.one [] (Intake.fresh Epoch.one) rfl firstByteFrame [] 1 0 2 0 [7]
    (by decide)

/-- A decoded slice that opens a sequence of length zero: `recv` on a fresh manager takes one
from the length of an empty buffer. -/
theorem recv_fails_on_empty_sequence :
    LinkProtocol.deserialize (LinkProtocol.serialize (.msgSlice 1 1 0 0 [7])) =
        .ok (.msgSlice 1 1 0 0 [7], []) ∧
      run Intake.step (Intake.fresh Epoch.one) [] = some (Intake.fresh Epoch.one) ∧
      ¬ ∃ b mgr out mgr', (Intake.fresh Epoch.one).mgr.recv 1 0 0 [7] = some (b, mgr) ∧
        mgr.takeRecvd = some (out, mgr') := by
  refine ⟨by decide, rfl, ?_⟩
  intro h
  obtain ⟨b, mgr, _, _, hrecv, _⟩ := h
  cases hrecv

end LinkSet
