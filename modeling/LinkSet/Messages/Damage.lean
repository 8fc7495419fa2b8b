import Mathlib.Data.List.Forall2
import LinkSet.Messages.Integrity

/-!
# How far a message can be damaged

Fragments that arrive with a gap between them let a message count as complete while bytes of it
are missing. The damage is bounded: a buffer is made of zeros and only pieces of the message are
written into it, so what is returned has the message's length and shows, byte for byte, the
message or a zero.
-/

namespace LinkSet

open Framework

namespace Transfer

/-- `r` is `d` with zeros in some places. -/
def Blanked (d r : List UInt8) : Prop := List.Forall₂ (fun sent got => got = 0 ∨ got = sent) d r

theorem blanked_iff {d r : List UInt8} :
    Blanked d r ↔ r.length = d.length ∧ ∀ (i : Nat) b, r[i]? = some b → b = 0 ∨ d[i]? = some b := by
  unfold Blanked
  rw [List.forall₂_iff_get]
  constructor
  · rintro ⟨hlen, hbytes⟩
    refine ⟨hlen.symm, ?_⟩
    intro i b hb
    obtain ⟨hi, rfl⟩ := List.getElem?_eq_some_iff.mp hb
    have hi' : i < d.length := hlen ▸ hi
    apply (hbytes i hi' hi).imp_right
    intro heq
    rw [List.getElem?_eq_getElem hi']
    exact congrArg some heq.symm
  · rintro ⟨hlen, hbytes⟩
    refine ⟨hlen.symm, ?_⟩
    intro i hd hr
    apply (hbytes i _ (List.getElem?_eq_getElem hr)).imp_right
    intro heq
    rw [List.getElem?_eq_getElem hd] at heq
    exact (Option.some.inj heq).symm

private theorem blanked_zeros (d : List UInt8) : Blanked d (List.replicate d.length 0) := by
  apply blanked_iff.mpr
  refine ⟨List.length_replicate, ?_⟩
  intro i b hb
  exact Or.inl (List.eq_of_mem_replicate (List.mem_of_getElem? hb))

private theorem Blanked.received {entry sm : SliceManager} {firstIndex : Nat} {d piece : List UInt8}
    (h : Blanked d entry.data) (hrec : entry.Received sm firstIndex piece)
    (hpiece : IsPiece d firstIndex piece) : Blanked d sm.data := by
  obtain ⟨hlen, hbytes⟩ := blanked_iff.mp h
  apply blanked_iff.mpr
  refine ⟨hrec.length.trans hlen, ?_⟩
  intro i b hb
  rw [hrec.byte] at hb
  split at hb
  · next hin =>
      have hlt := (List.getElem?_eq_some_iff.mp hb).1
      rw [hpiece.getElem? hlt, Nat.add_sub_cancel' hin.1] at hb
      exact Or.inr hb
  · exact hbytes i b hb

/-- Everything the receiver holds or has returned is a message with zeros in some places. -/
structure Bounded (st : Transfer) : Prop where
  held : ∀ s sm, st.receiver.incomingSlices.get s = some sm →
    ∃ d, st.inserted[s]? = some d ∧ Blanked d sm.data
  returned : ∀ (k : Nat) r, st.returned[k]? = some r → ∃ d, st.inserted[k]? = some d ∧ Blanked d r

theorem bounded_fresh (epoch : Epoch) : Bounded (fresh epoch) := by
  constructor <;> simp [fresh, MessageManager.new]

private theorem Bounded.insert {st : Transfer} (h : Bounded st) (m : MessageManager)
    (data : List UInt8) : Bounded { st with sender := m, inserted := st.inserted ++ [data] } := by
  have hkeep : ∀ {s : Nat} {r : List UInt8}, (∃ d, st.inserted[s]? = some d ∧ Blanked d r) →
      ∃ d, (st.inserted ++ [data])[s]? = some d ∧ Blanked d r := by
    rintro s r ⟨d, hd, hr⟩
    refine ⟨d, ?_, hr⟩
    rw [List.getElem?_append_left (List.getElem?_eq_some_iff.mp hd).1, hd]
  exact ⟨fun s sm hs => hkeep (h.held s sm hs), fun k r hk => hkeep (h.returned k r hk)⟩

private theorem Bounded.take {st : Transfer} (hinv : Inv st) (h : Bounded st)
    {out : List (List UInt8)} {m : MessageManager} (htake : st.receiver.takeRecvd = some (out, m)) :
    Bounded { st with receiver := m, returned := st.returned ++ out } := by
  obtain ⟨out', m', htake', _, _, _, _, hout⟩ := hinv.receiving.takeRecvd
  rw [htake] at htake'
  obtain ⟨rfl, rfl⟩ := Prod.mk.inj (Option.some.inj htake')
  constructor
  · intro s sm hs
    obtain ⟨_, rfl⟩ := MessageManager.takeRecvd_eq_some.mp htake
    rw [SortedMap.get_splitOff_snd, Option.ite_none_right_eq_some] at hs
    exact h.held s sm hs.2
  · intro k r hk
    by_cases hold : k < st.returned.length
    · rw [List.getElem?_append_left hold] at hk
      exact h.returned k r hk
    · rw [List.getElem?_append_right (Nat.not_lt.mp hold)] at hk
      obtain ⟨sm, hsm, _, heq⟩ := hout _ (List.getElem?_eq_some_iff.mp hk).1
      rw [hk] at heq
      obtain rfl := Option.some.inj heq
      rw [Nat.add_sub_cancel' (Nat.not_lt.mp hold)] at hsm
      exact h.held k sm hsm

theorem bounded_step {st st' : Transfer} {a : Action} (hinv : Inv st) (h : Bounded st)
    (hstep : st.step a = some st') : Bounded st' := by
  cases step_moves hstep with
  | insertMsg _ _ => exact h.insert _ _
  | emitSlices => exact ⟨h.held, h.returned⟩
  | @deliverSlice _ _ _ _ _ _ _ _ hget hrecv =>
      obtain ⟨_, _, d, _, _, hf, hd, hpiece⟩ := hinv.frames _ (List.mem_of_getElem? hget)
      cases hf
      have hstored := hinv.receiving.recv_stored hpiece.1 hrecv
      refine ⟨?_, h.returned⟩
      intro s sm hs
      rcases hstored.entry s sm hs with hold | ⟨rfl, _, hrec⟩
      · exact h.held s sm hold
      · refine ⟨d, hd, Blanked.received ?_ hrec hpiece⟩
        cases hentry : st.receiver.incomingSlices.get s with
        | none =>
            simp only [MessageManager.entryFor, hentry, Option.getD_none]
            exact blanked_zeros d
        | some old =>
            simp only [MessageManager.entryFor, hentry, Option.getD_some]
            obtain ⟨d', hd', hold⟩ := h.held s old hentry
            rw [hd] at hd'
            obtain rfl := Option.some.inj hd'
            exact hold
  | emitAck => exact ⟨h.held, h.returned⟩
  | deliverAck => exact ⟨h.held, h.returned⟩
  | takeRecvd htake => exact h.take hinv htake

/-- What is returned is a prefix of what was inserted, with zeros in some places. -/
theorem Bounded.returned_blanked {st : Transfer} (h : Bounded st) :
    ∃ sent, sent <+: st.inserted ∧ List.Forall₂ Blanked sent st.returned := by
  have hlen : st.returned.length ≤ st.inserted.length := by
    by_contra hlt
    obtain ⟨d, hd, _⟩ := h.returned st.inserted.length _
      (List.getElem?_eq_getElem (Nat.not_le.mp hlt))
    simp at hd
  refine ⟨st.inserted.take st.returned.length, List.take_prefix _ _, ?_⟩
  apply List.forall₂_iff_get.mpr
  refine ⟨by simpa using hlen, ?_⟩
  intro i hi hr
  obtain ⟨d, hd, hblank⟩ := h.returned i _ (List.getElem?_eq_getElem hr)
  have hget : (st.inserted.take st.returned.length).get ⟨i, hi⟩ = d := by
    obtain ⟨hlt, rfl⟩ := List.getElem?_eq_some_iff.mp hd
    exact List.getElem_take
  rw [hget]
  exact hblank

end Transfer

end LinkSet
