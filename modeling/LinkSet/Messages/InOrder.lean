import LinkSet.Framework.Reach
import LinkSet.Messages.Healing
import LinkSet.Messages.Integrity

/-!
# Slices that arrive in order

If every slice that arrives starts its message or continues what is there, then what is there of a
message is always a beginning of it. Nothing lies behind a gap that a slice could be joined to, and
what is returned is what was inserted.
-/

namespace LinkSet

open Framework

namespace MessageManager

/-- Everything of its message before the slice has arrived. -/
def Follows (m : MessageManager) : LinkProtocol → Prop
  | .msgSlice _ seq _ firstIndex _ => ∀ i < firstIndex, m.Has seq i
  | _ => True

/-- What has arrived of a message is a beginning of it. -/
def Solid (m : MessageManager) : Prop :=
  ∀ s sm, m.incomingSlices.get s = some sm →
    ∀ i, Covered sm.slices i → ∀ j ≤ i, Covered sm.slices j

private theorem solid_new (epoch : Epoch) : (new epoch).Solid := by simp [Solid, new]

namespace Solid

variable {m m' : MessageManager} {n seq firstIndex seqLen : Nat} {data : List UInt8} {b : Bool}

private theorem entryFor (h : m.Solid) (seq seqLen : Nat) :
    ∀ i, Covered (m.entryFor seq seqLen).slices i →
      ∀ j ≤ i, Covered (m.entryFor seq seqLen).slices j := by
  unfold MessageManager.entryFor
  cases hget : m.incomingSlices.get seq with
  | none =>
      intro i hi
      exact absurd hi (not_covered_empty i)
  | some sm => exact h seq sm hget

private theorem joinsEntry (h : m.Solid) (hrec : Receiving m n) (f : LinkProtocol) :
    Transfer.JoinsEntry m f := by
  cases f with
  | msgSlice epoch seq seqLen firstIndex data =>
      have hnormal : Normal (m.entryFor seq seqLen).slices := by
        unfold MessageManager.entryFor
        cases hget : m.incomingSlices.get seq with
        | none => exact normal_empty
        | some sm => exact (hrec.entry seq sm hget).1.normal
      intro s e hs hle hlt
      obtain rfl := hnormal.start_eq_zero (h.entryFor seq seqLen) hs
      exact ⟨0, e, hs, hle, hlt, Nat.zero_le _⟩
  | _ => trivial

private theorem recv (h : m.Solid) (hrec : Receiving m n) (hdata : data ≠ [])
    (hfollows : ∀ i < firstIndex, m.Has seq i)
    (hr : m.recv seq firstIndex seqLen data = some (b, m')) : m'.Solid := by
  by_cases hpast : seq < m.lastAck.1
  · rw [recv_below hpast] at hr
    cases hr
    exact h
  have hstored := hrec.recv_stored hdata hr
  intro s sm hs i hi j hj
  rcases hstored.entry s sm hs with hold | ⟨rfl, _, hreceived⟩
  · exact h s sm hold i hi j hj
  · apply (hreceived.covered j).mpr
    rcases (hreceived.covered i).mp hi with hold | ⟨hin, hfirst, hreach⟩
    · exact Or.inl (h.entryFor s seqLen i hold j hj)
    · by_cases hlow : j < firstIndex
      · obtain ⟨old, hget, hcov⟩ := (hfollows j hlow).resolve_left hpast
        refine Or.inl ?_
        rw [MessageManager.entryFor, hget]
        exact hcov
      · exact Or.inr ⟨hin, Nat.not_lt.mp hlow, hj.trans hreach⟩

private theorem takeRecvd (h : m.Solid) {out : List (List UInt8)}
    (htake : m.takeRecvd = some (out, m')) : m'.Solid := by
  obtain ⟨_, rfl⟩ := takeRecvd_eq_some.mp htake
  intro s sm hs
  rw [SortedMap.get_splitOff_snd, Option.ite_none_right_eq_some] at hs
  exact h s sm hs.2

end Solid

end MessageManager

namespace Transfer

/-- The condition on a step: what it delivers continues what is there. -/
def InOrder (st : Transfer) : Action → Prop
  | .deliverSlice n => ∀ f ∈ st.frames[n]?, st.receiver.Follows f
  | _ => True

private theorem solid_step {st st' : Transfer} {a : Action} (hinv : Inv st) (h : st.receiver.Solid)
    (horder : InOrder st a) (hstep : st.step a = some st') : st'.receiver.Solid := by
  cases step_moves hstep with
  | deliverSlice hget hrecv =>
      obtain ⟨_, _, _, _, _, hf, _, hpiece⟩ := hinv.frames _ (List.mem_of_getElem? hget)
      cases hf
      exact h.recv hinv.receiving hpiece.1 (horder _ hget) hrecv
  | takeRecvd htake => exact h.takeRecvd htake
  | insertMsg => exact h
  | emitSlices => exact h
  | emitAck => exact h
  | deliverAck => exact h

theorem has_of_reaches {P : Transfer → Action → Prop} {st st' : Transfer}
    (hreach : Reaches step P st st') (hinv : Inv st) {k i : Nat} (hhas : st.receiver.Has k i) :
    st'.receiver.Has k i := by
  have hkeep : ∀ s a s', Inv s ∧ s.receiver.Has k i → P s a → s.step a = some s' →
      Inv s' ∧ s'.receiver.Has k i := by
    rintro s a s' ⟨hinv, hhas⟩ _ hstep
    refine ⟨inv_step s a s' hinv hstep, ?_⟩
    cases step_moves hstep with
    | deliverSlice hget hrecv =>
        obtain ⟨_, _, _, _, _, hf, _, hpiece⟩ := hinv.frames _ (List.mem_of_getElem? hget)
        cases hf
        exact hhas.stored (hinv.receiving.recv_stored hpiece.1 hrecv)
    | takeRecvd htake => exact hhas.takeRecvd htake
    | insertMsg => exact hhas
    | emitSlices => exact hhas
    | emitAck => exact hhas
    | deliverAck => exact hhas
  exact (hreach.invariant hkeep ⟨hinv, hhas⟩).2

/-- What is returned is what was inserted, as long as slices arrive in order. -/
theorem returned_prefix_of_inOrder {epoch : Epoch} {st : Transfer}
    (hreach : Reaches step InOrder (fresh epoch) st) : st.returned <+: st.inserted := by
  have hkeep : ∀ s a s', Inv s ∧ s.receiver.Solid ∧ Faithful s → InOrder s a →
      s.step a = some s' → Inv s' ∧ s'.receiver.Solid ∧ Faithful s' := by
    rintro s a s' ⟨hinv, hsolid, hfaithful⟩ horder hstep
    have hgapless : Gapless s a := by
      cases a with
      | deliverSlice n => exact fun f _ => hsolid.joinsEntry hinv.receiving f
      | _ => trivial
    exact ⟨inv_step s a s' hinv hstep, solid_step hinv hsolid horder hstep,
      faithful_step hinv hfaithful hgapless hstep⟩
  have hall := hreach.invariant hkeep
    ⟨inv_fresh epoch, MessageManager.solid_new epoch, faithful_fresh epoch⟩
  exact hall.2.2.returned

end Transfer

end LinkSet
