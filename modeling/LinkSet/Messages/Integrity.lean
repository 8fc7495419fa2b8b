import LinkSet.Messages.Transfer

/-!
# Integrity of a transfer

What the receiving user gets is what the sending user gave, in order and byte for byte, as
long as no slice is joined across a gap to an interval that arrived before it. `add_slice`
does not check that the two touch, so it marks the bytes between them as received.
-/

namespace LinkSet

open Framework

namespace Transfer

/-- A slice given to the manager joins the intervals of its entry without a gap. -/
def JoinsEntry (m : MessageManager) : LinkProtocol → Prop
  | .msgSlice _ seq seqLen firstIndex data =>
      Joins (m.entryFor seq seqLen).slices firstIndex
        ((m.entryFor seq seqLen).fragmentEnd firstIndex data)
  | _ => True

instance (m : MessageManager) : ∀ f, Decidable (JoinsEntry m f)
  | .msgSlice _ seq seqLen firstIndex data =>
      inferInstanceAs (Decidable (Joins (m.entryFor seq seqLen).slices firstIndex
        ((m.entryFor seq seqLen).fragmentEnd firstIndex data)))
  | .reset _ _ => isTrue trivial
  | .ack _ _ _ => isTrue trivial
  | .ping => isTrue trivial
  | .pong => isTrue trivial

/-- The condition on a step: what it delivers joins its entry. -/
def Gapless (st : Transfer) : Action → Prop
  | .deliverSlice n => ∀ f ∈ st.frames[n]?, JoinsEntry st.receiver f
  | _ => True

instance (st : Transfer) : ∀ a, Decidable (Gapless st a)
  | .deliverSlice n => inferInstanceAs (Decidable (∀ f ∈ st.frames[n]?, JoinsEntry st.receiver f))
  | .insertMsg _ => isTrue trivial
  | .emitSlices _ _ => isTrue trivial
  | .emitAck => isTrue trivial
  | .deliverAck _ => isTrue trivial
  | .takeRecvd => isTrue trivial

/-- Marked bytes are the sender's, and so is everything returned. -/
structure Faithful (st : Transfer) : Prop where
  bytes : ∀ s sm d, st.receiver.incomingSlices.get s = some sm → st.inserted[s]? = some d →
    ∀ i, Covered sm.slices i → sm.data[i]? = d[i]?
  returned : st.returned <+: st.inserted

theorem faithful_fresh (epoch : Epoch) : Faithful (fresh epoch) where
  bytes := by simp [fresh, MessageManager.new]
  returned := List.nil_prefix

private theorem received_bytes {entry sm : SliceManager} {firstIndex : Nat} {d piece : List UInt8}
    (hrec : entry.Received sm firstIndex piece) (hpiece : IsPiece d firstIndex piece)
    (hj : Joins entry.slices firstIndex (entry.fragmentEnd firstIndex piece))
    (hold : ∀ i, Covered entry.slices i → entry.data[i]? = d[i]?) (i : Nat)
    (hi : Covered sm.slices i) : sm.data[i]? = d[i]? := by
  rw [hrec.byte i]
  by_cases hnew : firstIndex ≤ i ∧ i ≤ entry.fragmentEnd firstIndex piece
  · rw [if_pos hnew]
    have hpos : 0 < piece.length := List.length_pos_of_ne_nil hpiece.1
    have hin : i - firstIndex < piece.length := by
      have hend : entry.fragmentEnd firstIndex piece ≤ firstIndex + piece.length - 1 :=
        Nat.min_le_left _ _
      omega
    rw [hpiece.getElem? hin, Nat.add_sub_cancel' hnew.1]
  · rw [if_neg hnew]
    apply hold
    rcases (hrec.covered i).mp hi with hc | ⟨_, hfirst, hreach⟩
    · exact hc
    · rcases hj.covered_of_le_reach hreach with hlast | hc
      · exact absurd ⟨hfirst, hlast⟩ hnew
      · exact hc

private theorem full_eq {sm : SliceManager} {d : List UInt8} (hlen : d.length = sm.data.length)
    (hfull : sm.Full) (hbytes : ∀ i, Covered sm.slices i → sm.data[i]? = d[i]?) : sm.data = d := by
  apply List.ext_getElem?
  intro i
  by_cases hi : i < sm.data.length
  · exact hbytes i (hfull i hi)
  · rw [List.getElem?_eq_none (by omega), List.getElem?_eq_none (by omega)]

private theorem returned_append {st : Transfer} (hinv : Inv st) (h : Faithful st)
    {out : List (List UInt8)} {m : MessageManager}
    (htake : st.receiver.takeRecvd = some (out, m)) : st.returned ++ out <+: st.inserted := by
  obtain ⟨_, _, htake', _, _, _, _, hout⟩ := hinv.receiving.takeRecvd
  rw [htake] at htake'
  obtain ⟨rfl, rfl⟩ := Prod.mk.inj (Option.some.inj htake')
  apply List.prefix_iff_getElem?.mpr
  intro i hi
  by_cases hlow : i < st.returned.length
  · rw [List.getElem_append_left hlow]
    exact List.prefix_iff_getElem?.mp h.returned i hlow
  · rw [List.length_append] at hi
    obtain ⟨sm, hsm, hfull, hget⟩ := hout (i - st.returned.length) (by omega)
    obtain ⟨d, hd, hlen⟩ := hinv.sized _ sm hsm
    have heq := full_eq hlen hfull (h.bytes _ sm d hsm hd)
    rw [Nat.add_sub_cancel' (Nat.not_lt.mp hlow)] at hd
    rw [hd, List.getElem_append_right (Nat.not_lt.mp hlow), ← heq, ← hget,
      List.getElem?_eq_getElem]

theorem faithful_step {st st' : Transfer} {a : Action} (hinv : Inv st) (h : Faithful st)
    (hgap : Gapless st a) (hstep : st.step a = some st') : Faithful st' := by
  cases step_moves hstep with
  | @insertMsg data _ _ _ _ =>
      refine ⟨?_, h.returned.trans (List.prefix_append _ _)⟩
      intro s sm d hs hd
      obtain ⟨d', hd', _⟩ := hinv.sized s sm hs
      have hlt := (List.getElem?_eq_some_iff.mp hd').1
      rw [List.getElem?_append_left hlt] at hd
      exact h.bytes s sm d hs hd
  | emitSlices => exact ⟨h.bytes, h.returned⟩
  | deliverSlice hget hrecv =>
      obtain ⟨_, _, d, _, _, hf, hd, hpiece⟩ := hinv.frames _ (List.mem_of_getElem? hget)
      cases hf
      have hstored := hinv.receiving.recv_stored hpiece.1 hrecv
      refine ⟨?_, h.returned⟩
      intro s sm d' hs hd'
      rcases hstored.entry s sm hs with hold | ⟨rfl, _, hrec⟩
      · exact h.bytes s sm d' hold hd'
      · rw [hd] at hd'
        obtain rfl := Option.some.inj hd'
        apply received_bytes hrec hpiece (hgap _ hget)
        intro i hi
        cases hentry : st.receiver.incomingSlices.get s with
        | none =>
            simp only [MessageManager.entryFor, hentry, Option.getD_none] at hi
            exact absurd hi (not_covered_empty i)
        | some old =>
            simp only [MessageManager.entryFor, hentry, Option.getD_some] at hi ⊢
            exact h.bytes s old d hentry hd i hi
  | emitAck => exact ⟨h.bytes, h.returned⟩
  | deliverAck => exact ⟨h.bytes, h.returned⟩
  | takeRecvd htake =>
      refine ⟨?_, returned_append hinv h htake⟩
      obtain ⟨_, rfl⟩ := MessageManager.takeRecvd_eq_some.mp htake
      intro s sm d hs
      rw [SortedMap.get_splitOff_snd] at hs
      split at hs
      · exact h.bytes s sm d hs
      · cases hs

/-- In a run whose deliveries all join without a gap, the messages returned so far are a prefix
of the messages inserted. -/
theorem returned_prefix_of_gapless (epoch : Epoch) (actions : List Action) (st : Transfer)
    (hgap : AllSteps step Gapless (fresh epoch) actions)
    (hrun : run step (fresh epoch) actions = some st) : st.returned <+: st.inserted := by
  have hstart : Inv (fresh epoch) ∧ Faithful (fresh epoch) :=
    ⟨inv_fresh epoch, faithful_fresh epoch⟩
  have hkeep : ∀ s a s', Inv s ∧ Faithful s → Gapless s a → s.step a = some s' →
      Inv s' ∧ Faithful s' := by
    intro s a s' h hP hstep
    exact ⟨inv_step s a s' h.1 hstep, faithful_step h.1 h.2 hP hstep⟩
  exact (run_invariant_of hkeep hstart hgap hrun).2.returned

/-- Three one-byte slices in turn, the middle one twice. -/
private def inTurn : List Action :=
  [.insertMsg [1, 2, 3], .emitSlices 0 1, .deliverSlice 0, .deliverSlice 1, .deliverSlice 1,
    .deliverSlice 2, .emitAck, .takeRecvd]

theorem returned_prefix_of_gapless_in_turn :
    ∃ st, run step (fresh Epoch.one) inTurn = some st ∧ st.returned = [[1, 2, 3]] ∧
      st.returned <+: st.inserted :=
  ⟨_, rfl, rfl, returned_prefix_of_gapless Epoch.one inTurn _ (by decide) rfl⟩

/-- The last byte of three arrives first, then the first one: `add_slice` joins the two, the
message counts as complete, and a zero is returned for the byte in between. -/
theorem returned_not_prefix :
    ∃ st, run step (fresh Epoch.one)
        [.insertMsg [1, 2, 3], .emitSlices 0 1, .deliverSlice 2, .deliverSlice 0, .takeRecvd] =
          some st ∧
      st.returned = [[1, 0, 3]] ∧ ¬ st.returned <+: st.inserted :=
  ⟨_, rfl, rfl, by decide⟩

end Transfer

end LinkSet
