import LinkSet.Framework.Run
import LinkSet.Messages.Manager

/-!
# The receiving side

The invariant that `take_recvd` relies on: the entries below the acknowledged sequence number
are exactly the full ones not yet released, whatever the peer sends.
-/

namespace LinkSet

open Framework

/-- The state of the receiving half after `n` messages have been released. -/
structure Receiving (m : MessageManager) (n : Nat) : Prop where
  gone : ∀ s < n, m.incomingSlices.get s = none
  le : n ≤ m.lastAck.1
  fits : m.lastAck.1 < 2 ^ 64
  complete : ∀ s, n ≤ s → s < m.lastAck.1 → ∃ sm, m.incomingSlices.get s = some sm ∧ sm.Full
  entry : ∀ s sm, m.incomingSlices.get s = some sm → sm.Valid ∧ sm.seq = s ∧ sm.epoch = m.epoch
  current : ∀ sm, m.incomingSlices.get m.lastAck.1 = some sm →
    ¬ sm.Full ∧ m.lastAck.2 = sm.lastHeadIndex.getD 0
  absent : m.incomingSlices.get m.lastAck.1 = none → m.lastAck.2 = 0

/-- What a `recv` that returns changes. -/
structure Stored (m m' : MessageManager) (seq firstIndex seqLen : Nat) (data : List UInt8) :
    Prop where
  epoch : m'.epoch = m.epoch
  nextSeq : m'.nextSeq = m.nextSeq
  outgoing : m'.outgoingSlices = m.outgoingSlices
  ack_le : m.lastAck.1 ≤ m'.lastAck.1
  entry : ∀ s sm', m'.incomingSlices.get s = some sm' → m.incomingSlices.get s = some sm' ∨
    (s = seq ∧ (m.entryFor seq seqLen).Valid ∧
      (m.entryFor seq seqLen).Received sm' firstIndex data)
  kept : ∀ s sm, m.incomingSlices.get s = some sm →
    ∃ sm', m'.incomingSlices.get s = some sm' ∧ ∀ i, Covered sm.slices i → Covered sm'.slices i

theorem receiving_new (epoch : Epoch) : Receiving (MessageManager.new epoch) 0 where
  gone := by simp
  le := Nat.le_refl _
  fits := by simp [MessageManager.new]
  complete := by
    intro s _ hs
    exact absurd hs (Nat.not_lt_zero s)
  entry := by simp [MessageManager.new]
  current := by simp [MessageManager.new]
  absent := by simp [MessageManager.new]

section catchUp

variable {l : List (Nat × SliceManager)} {seq : Nat} {sm : SliceManager}
  {lastAck lastAck' : Nat × Nat} {b b' : Bool}

theorem catchUp_other (h : seq ≠ lastAck.1) :
    catchUp ((seq, sm) :: l) lastAck b = some (lastAck, b) := by
  rw [catchUp, if_pos h]

theorem catchUp_full (hseq : seq = lastAck.1) (hv : sm.Valid) (hfull : sm.Full) :
    catchUp ((seq, sm) :: l) lastAck b =
      (checkedAdd seq 1).bind fun next => catchUp l (next, 0) true := by
  rw [catchUp, if_neg (not_not_intro hseq), hv.isFull_true.mpr hfull]
  rfl

theorem catchUp_unfilled (hseq : seq = lastAck.1) (hv : sm.Valid) (hfull : ¬ sm.Full) :
    catchUp ((seq, sm) :: l) lastAck b =
      some ((seq, sm.lastHeadIndex.getD 0), b || lastAck = (seq, sm.lastHeadIndex.getD 0)) := by
  rw [catchUp, if_neg (not_not_intro hseq), hv.isFull_false.mpr hfull]
  rfl

private theorem eq_head_of_mem (hsorted : ((seq, sm) :: l).Pairwise fun x y => x.1 < y.1) {n : Nat}
    (hle : n ≤ seq) {sm' : SliceManager} (hmem : (n, sm') ∈ (seq, sm) :: l) :
    n = seq ∧ sm' = sm := by
  rcases List.mem_cons.mp hmem with heq | hmem
  · exact Prod.mk.inj heq
  · have hlt : seq < n := (List.pairwise_cons.mp hsorted).1 _ hmem
    omega

/-- Where the catch-up loop stops: it passes the full entries that follow the acknowledged number
without a gap, up to the first sequence that is missing or partial. -/
structure CaughtUp (l : List (Nat × SliceManager)) (lastAck lastAck' : Nat × Nat) : Prop where
  le : lastAck.1 ≤ lastAck'.1
  fits : lastAck'.1 < 2 ^ 64
  complete : ∀ s, lastAck.1 ≤ s → s < lastAck'.1 → ∃ sm, (s, sm) ∈ l ∧ sm.Full
  current : ∀ sm, (lastAck'.1, sm) ∈ l → ¬ sm.Full ∧ lastAck'.2 = sm.lastHeadIndex.getD 0
  absent : (∀ sm, (lastAck'.1, sm) ∉ l) → lastAck' = lastAck ∨ lastAck'.2 = 0

private theorem CaughtUp.missing (hlt : lastAck.1 < 2 ^ 64) (hmissing : ∀ sm, (lastAck.1, sm) ∉ l) :
    CaughtUp l lastAck lastAck where
  le := Nat.le_refl _
  fits := hlt
  complete := by
    intro s h1 h2
    omega
  current := by
    intro sm hmem
    exact absurd hmem (hmissing sm)
  absent := fun _ => Or.inl rfl

private theorem CaughtUp.next (h : CaughtUp l (seq + 1, 0) lastAck') (hseq : seq = lastAck.1)
    (hfull : sm.Full) : CaughtUp ((seq, sm) :: l) lastAck lastAck' := by
  have hle : seq + 1 ≤ lastAck'.1 := h.le
  refine ⟨by omega, h.fits, ?_, ?_, ?_⟩
  · intro s hs hlt
    by_cases heq : s = seq
    · exact ⟨sm, by simp [heq], hfull⟩
    · have hs' : seq + 1 ≤ s := by omega
      obtain ⟨sm', hmem, hf⟩ := h.complete s hs' hlt
      exact ⟨sm', List.mem_cons_of_mem _ hmem, hf⟩
  · intro sm' hmem
    rcases List.mem_cons.mp hmem with heq | hmem
    · have : lastAck'.1 = seq := congrArg Prod.fst heq
      omega
    · exact h.current sm' hmem
  · intro hnone
    rcases h.absent (fun sm' hmem => hnone sm' (List.mem_cons_of_mem _ hmem)) with heq | hzero
    · exact Or.inr (by rw [heq])
    · exact Or.inr hzero

private theorem catchUp_spec (hsorted : l.Pairwise fun x y => x.1 < y.1)
    (hle : ∀ e ∈ l, lastAck.1 ≤ e.1) (hvalid : ∀ e ∈ l, e.2.Valid) (hlt : lastAck.1 < 2 ^ 64)
    (h : catchUp l lastAck b = some (lastAck', b')) : CaughtUp l lastAck lastAck' := by
  induction l generalizing lastAck b with
  | nil =>
      cases h
      exact .missing hlt (by simp)
  | cons e l ih =>
      obtain ⟨seq, sm⟩ := e
      have hv := hvalid (seq, sm) List.mem_cons_self
      have hseq_le := hle (seq, sm) List.mem_cons_self
      by_cases hseq : seq = lastAck.1
      · by_cases hfull : sm.Full
        · rw [catchUp_full hseq hv hfull] at h
          obtain ⟨next, hnext, h⟩ := Option.bind_eq_some_iff.mp h
          obtain ⟨hover, rfl⟩ := checkedAdd_eq_some.mp hnext
          have hrest := List.pairwise_cons.mp hsorted
          have habove : ∀ e ∈ l, (seq + 1, 0).1 ≤ e.1 := hrest.1
          have hvalid' : ∀ e ∈ l, e.2.Valid := fun e he => hvalid e (List.mem_cons_of_mem _ he)
          exact (ih hrest.2 habove hvalid' hover h).next hseq hfull
        · rw [catchUp_unfilled hseq hv hfull] at h
          cases h
          refine ⟨by omega, by omega, fun s h1 h2 => by omega, ?_, ?_⟩
          · intro sm' hmem
            obtain ⟨_, rfl⟩ := eq_head_of_mem hsorted (Nat.le_refl seq) hmem
            exact ⟨hfull, rfl⟩
          · intro hnone
            exact absurd List.mem_cons_self (hnone sm)
      · rw [catchUp_other hseq] at h
        cases h
        apply CaughtUp.missing hlt
        intro sm' hmem
        exact hseq (eq_head_of_mem hsorted hseq_le hmem).1.symm

/-- The loop overflows exactly when every number from the acknowledged one up to the last
64-bit one is complete. -/
theorem catchUp_eq_none (hsorted : l.Pairwise fun x y => x.1 < y.1)
    (hle : ∀ e ∈ l, lastAck.1 ≤ e.1) (hvalid : ∀ e ∈ l, e.2.Valid) (hlt : lastAck.1 < 2 ^ 64) :
    catchUp l lastAck b = none ↔
      ∀ s, lastAck.1 ≤ s → s < 2 ^ 64 → ∃ sm, (s, sm) ∈ l ∧ sm.Full := by
  induction l generalizing lastAck b with
  | nil =>
      simp only [catchUp, reduceCtorEq, List.not_mem_nil, false_and, exists_false, false_iff]
      intro h
      exact h lastAck.1 (Nat.le_refl _) hlt
  | cons e l ih =>
      obtain ⟨seq, sm⟩ := e
      have hv := hvalid (seq, sm) List.mem_cons_self
      have hseq_le := hle (seq, sm) List.mem_cons_self
      by_cases hseq : seq = lastAck.1
      · by_cases hfull : sm.Full
        · rw [catchUp_full hseq hv hfull]
          by_cases hover : seq + 1 < 2 ^ 64
          · have hrest := List.pairwise_cons.mp hsorted
            have habove : ∀ e ∈ l, (seq + 1, 0).1 ≤ e.1 := hrest.1
            have hvalid' : ∀ e ∈ l, e.2.Valid := fun e he => hvalid e (List.mem_cons_of_mem _ he)
            rw [checkedAdd_of_lt hover, Option.bind_some, ih hrest.2 habove hvalid' hover]
            constructor
            · intro h s hs hs'
              by_cases heq : s = seq
              · exact ⟨sm, by simp [heq], hfull⟩
              · obtain ⟨sm', hmem, hf⟩ := h s (by simp only; omega) hs'
                exact ⟨sm', List.mem_cons_of_mem _ hmem, hf⟩
            · intro h s hs hs'
              simp only at hs
              obtain ⟨sm', hmem, hf⟩ := h s (by omega) hs'
              rcases List.mem_cons.mp hmem with heq | hmem
              · have := congrArg Prod.fst heq
                simp only at this
                omega
              · exact ⟨sm', hmem, hf⟩
          · rw [checkedAdd_eq_none.mpr (by omega), Option.bind_none, eq_self, true_iff]
            intro s hs hs'
            exact ⟨sm, by simp [show s = seq by omega], hfull⟩
        · rw [catchUp_unfilled hseq hv hfull]
          simp only [reduceCtorEq, false_iff]
          intro h
          obtain ⟨sm', hmem, hf⟩ := h lastAck.1 (Nat.le_refl _) hlt
          obtain ⟨_, rfl⟩ := eq_head_of_mem hsorted hseq_le hmem
          exact hfull hf
      · rw [catchUp_other hseq]
        simp only [reduceCtorEq, false_iff]
        intro h
        obtain ⟨sm', hmem, _⟩ := h lastAck.1 (Nat.le_refl _) hlt
        exact hseq (eq_head_of_mem hsorted hseq_le hmem).1.symm

end catchUp

namespace Receiving

variable {m m' : MessageManager} {n seq firstIndex seqLen : Nat} {data : List UInt8}

theorem entryFor_fields (h : Receiving m n) (seq seqLen : Nat) :
    (m.entryFor seq seqLen).epoch = m.epoch ∧ (m.entryFor seq seqLen).seq = seq := by
  unfold MessageManager.entryFor
  cases hg : m.incomingSlices.get seq with
  | none => exact ⟨rfl, rfl⟩
  | some sm => exact ⟨(h.entry seq sm hg).2.2, (h.entry seq sm hg).2.1⟩

theorem entryFor_valid (h : Receiving m n)
    (hlen : (m.entryFor seq seqLen).data.length ≠ 0) : (m.entryFor seq seqLen).Valid := by
  unfold MessageManager.entryFor at hlen ⊢
  cases hg : m.incomingSlices.get seq with
  | none =>
      rw [hg] at hlen
      apply SliceManager.new_valid
      simpa [SliceManager.new, Nat.pos_iff_ne_zero] using hlen
  | some sm => exact (h.entry seq sm hg).1

private theorem recvSlice_own (h : Receiving m n) {sm : SliceManager}
    (hr : (m.entryFor seq seqLen).recvSlice m.epoch seq firstIndex data = some sm) :
    (m.entryFor seq seqLen).Valid ∧
      (m.entryFor seq seqLen).recvSlice (m.entryFor seq seqLen).epoch
        (m.entryFor seq seqLen).seq firstIndex data = some sm := by
  obtain ⟨hepoch, hseq⟩ := h.entryFor_fields seq seqLen
  have hr' : (m.entryFor seq seqLen).recvSlice (m.entryFor seq seqLen).epoch
      (m.entryFor seq seqLen).seq firstIndex data = some sm := by rw [hepoch, hseq, hr]
  exact ⟨h.entryFor_valid (SliceManager.recvSlice_nonempty hr'), hr'⟩

theorem received (h : Receiving m n) (hdata : data ≠ []) {sm : SliceManager}
    (hr : (m.entryFor seq seqLen).recvSlice m.epoch seq firstIndex data = some sm) :
    (m.entryFor seq seqLen).Valid ∧
      (m.entryFor seq seqLen).Received sm firstIndex data := by
  obtain ⟨hv, hr'⟩ := h.recvSlice_own hr
  exact ⟨hv, SliceManager.recvSlice_received hv hdata hr'⟩

theorem grown (h : Receiving m n) {sm : SliceManager}
    (hr : (m.entryFor seq seqLen).recvSlice m.epoch seq firstIndex data = some sm) :
    (m.entryFor seq seqLen).Valid ∧ (m.entryFor seq seqLen).Grown sm := by
  obtain ⟨hv, hr'⟩ := h.recvSlice_own hr
  exact ⟨hv, SliceManager.recvSlice_grown hv hr'⟩

theorem insert_entry (h : Receiving m n) {sm : SliceManager}
    (hr : (m.entryFor seq seqLen).recvSlice m.epoch seq firstIndex data = some sm) (s : Nat)
    (sm' : SliceManager) (hs : (m.incomingSlices.insert seq sm).get s = some sm') :
    sm'.Valid ∧ sm'.seq = s ∧ sm'.epoch = m.epoch := by
  obtain ⟨hepoch, hseq⟩ := h.entryFor_fields seq seqLen
  have hgrown := (h.grown hr).2
  by_cases heq : s = seq
  · subst heq
    obtain rfl : sm = sm' := by simpa using hs
    exact ⟨hgrown.valid, hgrown.seq.trans hseq, hgrown.epoch.trans hepoch⟩
  · rw [SortedMap.get_insert_of_ne _ _ heq] at hs
    exact h.entry s sm' hs

theorem catchUp_insert (h : Receiving m n) {sm : SliceManager}
    {lastAck : Nat × Nat} {b : Bool} (hseq : seq = m.lastAck.1)
    (hr : (m.entryFor seq seqLen).recvSlice m.epoch seq firstIndex data = some sm)
    (hcatch : catchUp ((m.incomingSlices.insert seq sm).rangeFrom seq) m.lastAck false =
      some (lastAck, b)) :
    m.lastAck.1 ≤ lastAck.1 ∧ lastAck.1 < 2 ^ 64 ∧
    (∀ s, m.lastAck.1 ≤ s → s < lastAck.1 →
      ∃ sm', (m.incomingSlices.insert seq sm).get s = some sm' ∧ sm'.Full) ∧
    (∀ sm', (m.incomingSlices.insert seq sm).get lastAck.1 = some sm' →
      ¬ sm'.Full ∧ lastAck.2 = sm'.lastHeadIndex.getD 0) ∧
    ((m.incomingSlices.insert seq sm).get lastAck.1 = none → lastAck.2 = 0) := by
  have hentry := h.insert_entry hr
  obtain ⟨hle, hfits, hfull, hcur, habs⟩ := catchUp_spec (SortedMap.rangeFrom_sorted _ seq)
    (fun e he => hseq ▸ (SortedMap.mem_rangeFrom.mp he).2)
    (fun e he => (hentry e.1 e.2 (SortedMap.mem_rangeFrom.mp he).1).1) h.fits hcatch
  refine ⟨hle, hfits, ?_, ?_, ?_⟩
  · intro s hs hlt
    obtain ⟨sm', hmem, hf⟩ := hfull s hs hlt
    exact ⟨sm', (SortedMap.mem_rangeFrom.mp hmem).1, hf⟩
  · intro sm' hs
    exact hcur sm' (SortedMap.mem_rangeFrom.mpr ⟨hs, by omega⟩)
  · intro hs
    have hnone : ∀ sm', (lastAck.1, sm') ∉ (m.incomingSlices.insert seq sm).rangeFrom seq := by
      intro sm' hmem
      rw [(SortedMap.mem_rangeFrom.mp hmem).1] at hs
      cases hs
    rcases habs hnone with heq | hzero
    · rw [heq, ← hseq, SortedMap.get_insert_self] at hs
      cases hs
    · exact hzero

theorem congr (h : Receiving m n) (hincoming : m'.incomingSlices = m.incomingSlices)
    (hack : m'.lastAck = m.lastAck) (hepoch : m'.epoch = m.epoch) : Receiving m' n := by
  obtain ⟨gone, le, fits, complete, entry, current, absent⟩ := h
  rw [← hincoming] at gone complete entry current absent
  rw [← hack] at le fits complete current absent
  rw [← hepoch] at entry
  exact ⟨gone, le, fits, complete, entry, current, absent⟩

/-- One `recv` keeps the invariant, whatever it is given. -/
theorem recv (h : Receiving m n) {b : Bool}
    (hr : m.recv seq firstIndex seqLen data = some (b, m')) : Receiving m' n := by
  have hle := h.le
  rcases MessageManager.recv_cases hr with ⟨rfl, _⟩ | ⟨sm, hseq, _, hrecv, rfl⟩ |
    ⟨sm, lastAck, hseq, _, hrecv, hcatch, rfl⟩
  · exact h
  · have hat := SortedMap.get_insert_of_ne m.incomingSlices sm (show m.lastAck.1 ≠ seq by omega)
    exact {
      gone := by
        intro s hs
        rw [SortedMap.get_insert_of_ne _ _ (by omega)]
        exact h.gone s hs
      le := h.le
      fits := h.fits
      complete := by
        intro s hs hlt
        simp only at hlt ⊢
        rw [SortedMap.get_insert_of_ne _ _ (by omega)]
        exact h.complete s hs hlt
      entry := h.insert_entry hrecv
      current := by
        intro sm' hs
        exact h.current sm' (hat ▸ hs)
      absent := by
        intro hs
        exact h.absent (hat ▸ hs) }
  · obtain ⟨hack, hfits, hfull, hcur, habs⟩ := h.catchUp_insert hseq hrecv hcatch
    exact {
      gone := by
        intro s hs
        rw [SortedMap.get_insert_of_ne _ _ (by omega)]
        exact h.gone s hs
      le := hle.trans hack
      fits := hfits
      complete := by
        intro s hs hlt
        by_cases hlow : s < m.lastAck.1
        · simp only [SortedMap.get_insert_of_ne _ _ (show s ≠ seq by omega)]
          exact h.complete s hs hlow
        · exact hfull s (by omega) hlt
      entry := h.insert_entry hrecv
      current := hcur
      absent := habs }

theorem recv_kept (h : Receiving m n) {b : Bool}
    (hr : m.recv seq firstIndex seqLen data = some (b, m')) {s : Nat} {sm : SliceManager}
    (hs : m.incomingSlices.get s = some sm) :
    ∃ sm', m'.incomingSlices.get s = some sm' ∧ sm.Grown sm' := by
  have hself : sm.Grown sm := ⟨rfl, rfl, (h.entry s sm hs).1, fun _ hi => hi⟩
  have hinsert : ∀ new,
      (m.entryFor seq seqLen).recvSlice m.epoch seq firstIndex data = some new →
      ∃ sm', (m.incomingSlices.insert seq new).get s = some sm' ∧ sm.Grown sm' := by
    intro new hrecv
    by_cases heq : s = seq
    · subst heq
      refine ⟨new, SortedMap.get_insert_self _ _ _, ?_⟩
      simpa [MessageManager.entryFor, hs] using (h.grown hrecv).2
    · exact ⟨sm, (SortedMap.get_insert_of_ne m.incomingSlices new heq).trans hs, hself⟩
  rcases MessageManager.recv_cases hr with ⟨rfl, _⟩ | ⟨new, _, _, hrecv, rfl⟩ |
    ⟨new, lastAck, _, _, hrecv, _, rfl⟩
  · exact ⟨sm, hs, hself⟩
  · exact hinsert new hrecv
  · exact hinsert new hrecv

theorem recv_ack_le (h : Receiving m n) {b : Bool}
    (hr : m.recv seq firstIndex seqLen data = some (b, m')) : m.lastAck.1 ≤ m'.lastAck.1 := by
  rcases MessageManager.recv_cases hr with ⟨rfl, _⟩ | ⟨new, _, _, _, rfl⟩ |
    ⟨new, lastAck, hseq, _, hrecv, hcatch, rfl⟩
  · exact Nat.le_refl _
  · exact Nat.le_refl _
  · exact (h.catchUp_insert hseq hrecv hcatch).1

/-- A `recv` that returns touches at most the entry of its number, where it stores the slice,
and never takes anything back. -/
theorem recv_stored (h : Receiving m n) (hdata : data ≠ []) {b : Bool}
    (hr : m.recv seq firstIndex seqLen data = some (b, m')) :
    Stored m m' seq firstIndex seqLen data := by
  have hkept : ∀ s sm, m.incomingSlices.get s = some sm → ∃ sm',
      m'.incomingSlices.get s = some sm' ∧ ∀ i, Covered sm.slices i → Covered sm'.slices i := by
    intro s sm hs
    obtain ⟨sm', hs', hgrown⟩ := h.recv_kept hr hs
    exact ⟨sm', hs', hgrown.covered⟩
  have hack := h.recv_ack_le hr
  have hentry : ∀ new s sm',
      (m.entryFor seq seqLen).recvSlice m.epoch seq firstIndex data = some new →
      (m.incomingSlices.insert seq new).get s = some sm' → m.incomingSlices.get s = some sm' ∨
        (s = seq ∧ (m.entryFor seq seqLen).Valid ∧
          (m.entryFor seq seqLen).Received sm' firstIndex data) := by
    intro new s sm' hrecv hs
    by_cases heq : s = seq
    · subst heq
      obtain rfl : new = sm' := by simpa using hs
      exact Or.inr ⟨rfl, h.received hdata hrecv⟩
    · exact Or.inl (SortedMap.get_insert_of_ne m.incomingSlices new heq ▸ hs)
  rcases MessageManager.recv_cases hr with ⟨rfl, _⟩ | ⟨new, _, _, hrecv, rfl⟩ |
    ⟨new, lastAck, _, _, hrecv, _, rfl⟩
  · exact ⟨rfl, rfl, rfl, hack, fun s sm' hs => Or.inl hs, hkept⟩
  · exact ⟨rfl, rfl, rfl, hack, fun s sm' => hentry new s sm' hrecv, hkept⟩
  · exact ⟨rfl, rfl, rfl, hack, fun s sm' => hentry new s sm' hrecv, hkept⟩

theorem taken_interval (h : Receiving m n) (k : Nat) :
    (∃ v, (m.incomingSlices.splitOff m.lastAck.1).1.get k = some v) ↔ n ≤ k ∧ k < m.lastAck.1 := by
  rw [SortedMap.get_splitOff_fst]
  constructor
  · intro hk
    obtain ⟨v, hv⟩ := hk
    split at hv
    · next hlt =>
        refine ⟨?_, hlt⟩
        by_contra hlow
        rw [h.gone k (by omega)] at hv
        cases hv
    · cases hv
  · intro hk
    obtain ⟨sm, hsm, _⟩ := h.complete k hk.1 hk.2
    exact ⟨sm, by rw [if_pos hk.2, hsm]⟩

private theorem taken_full (h : Receiving m n) :
    ∀ sm ∈ (m.incomingSlices.splitOff m.lastAck.1).1.values, sm.fullData.join = some sm.data := by
  intro sm hmem
  obtain ⟨k, hk⟩ := SortedMap.mem_values.mp hmem
  have hk' := (h.taken_interval k).mp ⟨sm, hk⟩
  rw [SortedMap.get_splitOff_fst, if_pos hk'.2] at hk
  obtain ⟨sm', hsm', hf⟩ := h.complete k hk'.1 hk'.2
  rw [hk] at hsm'
  cases hsm'
  rw [(h.entry k sm hk).1.fullData_of_full hf]
  rfl

theorem left_behind (h : Receiving m n) :
    Receiving { m with incomingSlices := (m.incomingSlices.splitOff m.lastAck.1).2 }
      m.lastAck.1 := by
  have hkept : ∀ s, m.lastAck.1 ≤ s →
      (m.incomingSlices.splitOff m.lastAck.1).2.get s = m.incomingSlices.get s := by
    intro s hs
    rw [SortedMap.get_splitOff_snd, if_pos hs]
  exact {
    gone := by
      intro s hs
      simp only [SortedMap.get_splitOff_snd, if_neg (not_le.mpr hs)]
    le := Nat.le_refl _
    fits := h.fits
    complete := by
      intro s h1 h2
      simp only at h2
      omega
    entry := by
      intro s sm hs
      simp only [SortedMap.get_splitOff_snd] at hs
      split at hs
      · exact h.entry s sm hs
      · cases hs
    current := by
      intro sm hs
      simp only [hkept _ (Nat.le_refl _)] at hs
      exact h.current sm hs
    absent := by
      intro hs
      simp only [hkept _ (Nat.le_refl _)] at hs
      exact h.absent hs }

/-- `take_recvd` never fails, and returns the buffers numbered from `n` on, in order. -/
theorem takeRecvd (h : Receiving m n) :
    ∃ out m', m.takeRecvd = some (out, m') ∧ Receiving m' (n + out.length) ∧
      n + out.length = m.lastAck.1 ∧ m'.lastAck = m.lastAck ∧ m'.epoch = m.epoch ∧
      ∀ i < out.length, ∃ sm, m.incomingSlices.get (n + i) = some sm ∧ sm.Full ∧
        out[i]? = some sm.data := by
  have hint := h.taken_interval
  have hlen := SortedMap.length_values_of_interval hint
  have hle := h.le
  refine ⟨_, _, MessageManager.takeRecvd_eq_some.mpr ⟨mapM_eq_some_map h.taken_full, rfl⟩, ?_⟩
  have hn : n + ((m.incomingSlices.splitOff m.lastAck.1).1.values.map SliceManager.data).length =
      m.lastAck.1 := by
    rw [List.length_map, hlen]
    omega
  rw [hn]
  refine ⟨h.left_behind, rfl, rfl, rfl, ?_⟩
  intro i hi
  rw [List.length_map, hlen] at hi
  obtain ⟨sm, hsm, hf⟩ := h.complete (n + i) (by omega) (by omega)
  refine ⟨sm, hsm, hf, ?_⟩
  rw [List.getElem?_map, SortedMap.values_getElem?_of_interval hint, SortedMap.get_splitOff_fst,
    if_pos (by omega), hsm]
  rfl

end Receiving

end LinkSet
