import LinkSet.Messages.Transfer

/-!
# Retransmission of the message the receiver waits for

Acknowledgements may arrive late, twice or out of order, and a stale one even puts bytes back
to be sent. The sender nevertheless keeps what the receiver lacks of the message it waits for,
with one exception: an empty message has no bytes to send and no way to be acknowledged.
-/

namespace LinkSet

open Framework

namespace Transfer

/-- The receiver's map of message `r` covers index `i`. -/
def Marked (m : MessageManager) (r i : Nat) : Prop :=
  ∃ sm, m.incomingSlices.get r = some sm ∧ Covered sm.slices i

/-- The sender holds the message the receiver waits for, and slicing it at any size yields a
slice with a byte that the receiver lacks. -/
def CanProgress (st : Transfer) : Prop :=
  ∃ sm, st.sender.getOutgoingSlice st.receiver.lastAck.1 = some sm ∧
    ∀ size, 1 ≤ size → size < 2 ^ 32 → ∃ frames, sm.getSlices size = some frames ∧
      ∃ f ∈ frames, ∃ i, Carries f st.receiver.lastAck.1 i ∧
        ¬ Marked st.receiver st.receiver.lastAck.1 i

/-- Of the message it waits for the receiver lacks a byte at or after any index up to which it
has everything. -/
private theorem Inv.exists_unmarked {st : Transfer} (h : Inv st) {d : List UInt8} {start : Nat}
    (hd : st.inserted[st.receiver.lastAck.1]? = some d) (hstart : start < d.length)
    (hknown : start = 0 ∨ Known st.receiver st.receiver.lastAck.1 (start - 1)) :
    ∃ i, start ≤ i ∧ i ≤ d.length - 1 ∧ ¬ Marked st.receiver st.receiver.lastAck.1 i := by
  by_contra hall
  have hmarked : ∀ i, start ≤ i → i < d.length →
      Marked st.receiver st.receiver.lastAck.1 i := by
    intro i hi hlt
    by_contra hno
    exact hall ⟨i, hi, by omega, hno⟩
  obtain ⟨sm, hsm, _⟩ := hmarked start (Nat.le_refl _) hstart
  obtain ⟨d', hd', hlen⟩ := h.sized _ sm hsm
  rw [hd] at hd'
  obtain rfl := Option.some.inj hd'
  have hunique : ∀ sm', st.receiver.incomingSlices.get st.receiver.lastAck.1 = some sm' →
      sm' = sm := by
    intro sm' hsm'
    rw [hsm] at hsm'
    exact (Option.some.inj hsm').symm
  apply (h.receiving.current sm hsm).1
  intro i hi
  by_cases hlow : i < start
  · rcases hknown with hzero | hlt | ⟨sm', hsm', hcov⟩
    · omega
    · exact absurd hlt (Nat.lt_irrefl _)
    · rw [← hunique sm' hsm']
      exact hcov i (by omega)
  · obtain ⟨sm', hsm', hcov⟩ := hmarked i (by omega) (by omega)
    rwa [← hunique sm' hsm']

private theorem getSlices_nil {sm : SliceManager} {start : Nat} (h : sm.Outstanding start)
    (hdata : sm.data = []) (size : Nat) : sm.getSlices size = some [] := by
  unfold SliceManager.Outstanding at h
  rw [if_pos hdata] at h
  simp [SliceManager.getSlices, h]

/-- In every reachable state in which the receiver waits for an inserted message, the sender
can make progress on it exactly when the message is not empty. -/
theorem canProgress_iff (epoch : Epoch) (actions : List Action) (st : Transfer)
    (hrun : run step (fresh epoch) actions = some st)
    (hwait : st.receiver.lastAck.1 < st.sender.nextSeq) :
    CanProgress st ↔ st.inserted[st.receiver.lastAck.1]? ≠ some [] := by
  have hinv := inv_run hrun
  rw [hinv.sending.nextSeq] at hwait
  obtain ⟨d, hd⟩ : ∃ d, st.inserted[st.receiver.lastAck.1]? = some d :=
    ⟨_, List.getElem?_eq_getElem hwait⟩
  constructor
  · intro hprog hempty
    obtain ⟨sm, hget, hsizes⟩ := hprog
    obtain ⟨frames, hframes, f, hf, _⟩ := hsizes 1 (by decide) (by decide)
    obtain ⟨start, hout, _⟩ := hinv.pending.outstanding _ sm hget
    obtain ⟨hdata, _⟩ := hinv.sending.entry _ sm hget
    rw [hempty] at hdata
    rw [getSlices_nil hout (Option.some.inj hdata).symm] at hframes
    obtain rfl := Option.some.inj hframes
    cases hf
  · intro hne
    have hdne : d ≠ [] := fun heq => hne (by rw [hd, heq])
    obtain ⟨sm, hget⟩ := hinv.pending.held _ d (Nat.le_refl _) hd hdne
    obtain ⟨start, hout, hknown⟩ := hinv.pending.outstanding _ sm hget
    obtain ⟨hdata, hseq, _⟩ := hinv.sending.entry _ sm hget
    rw [hd] at hdata
    obtain rfl := Option.some.inj hdata
    rw [SliceManager.Outstanding, if_neg hdne] at hout
    obtain ⟨i, hi, hlast, hno⟩ := hinv.exists_unmarked hd hout.2 hknown
    have hsmall := hinv.small _ (List.mem_of_getElem? hd)
    refine ⟨sm, hget, ?_⟩
    intro size hpos hsize
    obtain ⟨frames, hframes, hcov⟩ := SliceManager.getSlices_carries hout.1 (by omega) (by omega)
      hpos (by unfold isizeMax at hsmall; omega)
    obtain ⟨f, hf, hc⟩ := hcov i hi hlast
    exact ⟨frames, hframes, f, hf, i, hseq ▸ hc, hno⟩

/-- Two of three bytes have arrived and are acknowledged, twice. -/
theorem canProgress_iff_partial :
    ∃ st, run step (fresh Epoch.one) [.insertMsg [1, 2, 3], .emitSlices 0 2, .deliverSlice 0,
        .emitAck, .deliverAck 0, .deliverAck 0] = some st ∧
      st.receiver.lastAck.1 < st.sender.nextSeq ∧
      (CanProgress st ↔ st.inserted[st.receiver.lastAck.1]? ≠ some []) :=
  ⟨_, rfl, by decide, canProgress_iff Epoch.one [.insertMsg [1, 2, 3], .emitSlices 0 2,
    .deliverSlice 0, .emitAck, .deliverAck 0, .deliverAck 0] _ rfl (by decide)⟩

/-- An empty message and one after it: the receiver waits for number 0 and nothing of it is
ever sent. -/
theorem canProgress_fails :
    ∃ st, run step (fresh Epoch.one) [.insertMsg [], .insertMsg [7]] = some st ∧
      st.receiver.lastAck.1 < st.sender.nextSeq ∧ ¬ CanProgress st := by
  refine ⟨_, rfl, by decide, ?_⟩
  intro hprog
  obtain ⟨sm, hget, hsizes⟩ := hprog
  obtain rfl := Option.some.inj hget
  obtain ⟨frames, hframes, f, hf, _⟩ := hsizes 1 (by decide) (by decide)
  obtain rfl := Option.some.inj hframes
  cases hf

end Transfer

end LinkSet
