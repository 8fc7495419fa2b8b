import Mathlib.Data.Prod.Lex
import LinkSet.Messages.Release
import LinkSet.Messages.Sender

/-!
# What the acknowledgement says

A manager under any calls, from a fresh one on. Its `last_ack` stands at the first sequence that
is not complete and at the end of the bytes that have arrived there without a gap, and it only
moves forward. The flag that `recv` returns about it is another matter.
-/

namespace LinkSet

open Framework

namespace MessageManager

/-- The calls that change a manager. -/
inductive Call where
  | insertMsg (data : List UInt8)
  | recvAck (ack : Nat × Nat)
  | recv (seq firstIndex seqLen : Nat) (data : List UInt8)
  | takeRecvd

def call (m : MessageManager) : Call → Option MessageManager
  | .insertMsg data => (m.insertMsg data).map Prod.snd
  | .recvAck ack => some (m.recvAck ack)
  | .recv seq firstIndex seqLen data => (m.recv seq firstIndex seqLen data).map Prod.snd
  | .takeRecvd => m.takeRecvd.map Prod.snd

private theorem call_cases {m m' : MessageManager} {c : Call} (h : m.call c = some m') :
    (∃ seq firstIndex seqLen data b, m.recv seq firstIndex seqLen data = some (b, m')) ∨
    (m'.epoch = m.epoch ∧ m'.lastAck = m.lastAck ∧ (m'.incomingSlices = m.incomingSlices ∨
      m'.incomingSlices = (m.incomingSlices.splitOff m.lastAck.1).2)) := by
  cases c with
  | insertMsg data =>
      obtain ⟨⟨seq, m'⟩, hins, rfl⟩ := Option.map_eq_some_iff.mp h
      simp [(insertMsg_eq_some.mp hins).2.2]
  | recvAck ack =>
      obtain rfl := Option.some.inj h
      simp [recvAck_fields m ack]
  | recv seq firstIndex seqLen data =>
      obtain ⟨⟨b, m'⟩, hrecv, rfl⟩ := Option.map_eq_some_iff.mp h
      exact Or.inl ⟨seq, firstIndex, seqLen, data, b, hrecv⟩
  | takeRecvd =>
      obtain ⟨⟨out, m'⟩, htake, rfl⟩ := Option.map_eq_some_iff.mp h
      simp [(takeRecvd_eq_some.mp htake).2]

/-- Sequence `s` was complete in a state that the calls passed through. -/
def CompletedBy (epoch : Epoch) (calls : List Call) (s : Nat) : Prop :=
  ∃ before m sm, before <+: calls ∧ run call (new epoch) before = some m ∧
    m.incomingSlices.get s = some sm ∧ sm.isFull = some true

private theorem CompletedBy.append {epoch : Epoch} {calls : List Call} {s : Nat}
    (h : CompletedBy epoch calls s) (more : List Call) : CompletedBy epoch (calls ++ more) s := by
  obtain ⟨before, m, sm, hpre, hrest⟩ := h
  exact ⟨before, m, sm, hpre.trans (List.prefix_append calls more), hrest⟩

end MessageManager

namespace Receiving

open MessageManager

variable {m m' : MessageManager} {n : Nat} {c : Call}

private theorem call (h : Receiving m n) (hc : m.call c = some m') :
    ∃ n', n' ≤ m.lastAck.1 ∧ Receiving m' n' := by
  rcases call_cases hc with ⟨_, _, _, _, _, hrecv⟩ | ⟨hepoch, hack, hin | hin⟩
  · exact ⟨n, h.le, h.recv hrecv⟩
  · exact ⟨n, h.le, h.congr hin hack hepoch⟩
  · exact ⟨m.lastAck.1, Nat.le_refl _, h.left_behind.congr hin hack hepoch⟩

private theorem recv_head_le (h : Receiving m n) {seq firstIndex seqLen : Nat} {data : List UInt8}
    {b : Bool} (hr : m.recv seq firstIndex seqLen data = some (b, m'))
    (heq : m.lastAck.1 = m'.lastAck.1) : m.lastAck.2 ≤ m'.lastAck.2 := by
  cases hs : m.incomingSlices.get m.lastAck.1 with
  | none =>
      rw [h.absent hs]
      exact Nat.zero_le _
  | some sm =>
      obtain ⟨sm', hs', hgrown⟩ := h.recv_kept hr hs
      rw [heq] at hs'
      rw [(h.current sm hs).2, ((h.recv hr).current sm' hs').2]
      exact hgrown.head_le (h.entry _ sm hs).1

private theorem lastAck_mono (h : Receiving m n) (hc : m.call c = some m') :
    toLex m.lastAck ≤ toLex m'.lastAck := by
  rcases call_cases hc with ⟨_, _, _, _, _, hrecv⟩ | ⟨_, hack, _⟩
  · apply Prod.Lex.toLex_le_toLex.mpr
    rcases Nat.lt_or_eq_of_le (h.recv_ack_le hrecv) with hlt | heq
    · exact Or.inl hlt
    · exact Or.inr ⟨heq, h.recv_head_le hrecv heq⟩
  · rw [hack]

private theorem run_lastAck_mono {calls : List Call} (h : Receiving m n)
    (hrun : run MessageManager.call m calls = some m') : toLex m.lastAck ≤ toLex m'.lastAck := by
  induction calls generalizing m n with
  | nil =>
      obtain rfl := Option.some.inj hrun
      exact le_rfl
  | cons c calls ih =>
      obtain ⟨m1, hc, hrun⟩ := run_cons.mp hrun
      obtain ⟨n', _, h'⟩ := h.call hc
      exact (h.lastAck_mono hc).trans (ih h' hrun)

end Receiving

namespace MessageManager

/-- The state after the calls, and what they completed. -/
structure Tracked (epoch : Epoch) (calls : List Call) (m : MessageManager) : Prop where
  reached : run call (new epoch) calls = some m
  receiving : ∃ n, Receiving m n
  completed : ∀ s < m.lastAck.1, CompletedBy epoch calls s

private theorem tracked_new (epoch : Epoch) : Tracked epoch [] (new epoch) where
  reached := rfl
  receiving := ⟨0, receiving_new epoch⟩
  completed := by simp [new]

private theorem Tracked.step {epoch : Epoch} {calls : List Call} {m m' : MessageManager} {c : Call}
    (h : Tracked epoch calls m) (hc : m.call c = some m') : Tracked epoch (calls ++ [c]) m' := by
  obtain ⟨n, hrec⟩ := h.receiving
  obtain ⟨n', hn', hrec'⟩ := hrec.call hc
  have hreached : run call (new epoch) (calls ++ [c]) = some m' := by
    rw [run_append, h.reached, Option.bind_some, run_cons]
    exact ⟨m', hc, rfl⟩
  refine ⟨hreached, ⟨n', hrec'⟩, ?_⟩
  intro s hs
  by_cases hold : s < m.lastAck.1
  · exact (h.completed s hold).append [c]
  · obtain ⟨sm, hsm, hfull⟩ := hrec'.complete s (by omega) hs
    exact ⟨calls ++ [c], m', sm, List.prefix_rfl, hreached, hsm,
      (hrec'.entry s sm hsm).1.isFull_true.mpr hfull⟩

private theorem tracked_run {epoch : Epoch} {calls : List Call} {m : MessageManager}
    (h : run call (new epoch) calls = some m) : Tracked epoch calls m := by
  have := run_history (fun _ _ _ _ hinv hc => Tracked.step hinv hc) (tracked_new epoch) h
  rwa [List.nil_append] at this

/-- After any calls `last_ack` is `(r, h)` where every sequence below `r` has been complete, the
entry of `r` is absent or not full, and `h` is the end of its slice that begins at zero. Whatever
is called next, it never goes back. -/
theorem lastAck_at_first_incomplete (epoch : Epoch) (calls : List Call) (m : MessageManager)
    (hrun : run call (new epoch) calls = some m) :
    (∀ s < m.lastAck.1, CompletedBy epoch calls s) ∧
    (∀ sm, m.incomingSlices.get m.lastAck.1 = some sm → sm.isFull = some false) ∧
    m.lastAck.2 =
      ((m.incomingSlices.get m.lastAck.1).bind fun sm => sm.slices.get 0).getD 0 ∧
    ∀ more m', run call m more = some m' → toLex m.lastAck ≤ toLex m'.lastAck := by
  have htracked := tracked_run hrun
  obtain ⟨n, hrec⟩ := htracked.receiving
  refine ⟨htracked.completed, ?_, ?_, fun more m' hmore => hrec.run_lastAck_mono hmore⟩
  · intro sm hsm
    exact (hrec.entry _ sm hsm).1.isFull_false.mpr (hrec.current sm hsm).1
  · cases hs : m.incomingSlices.get m.lastAck.1 with
    | none => exact hrec.absent hs
    | some sm =>
        rw [(hrec.current sm hs).2, SliceManager.lastHeadIndex_eq]
        rfl

/-- A slice that arrives after a later one: `last_ack` jumps over both. -/
theorem lastAck_at_first_incomplete_swapped :
    ∃ m, run call (new Epoch.one) [.recv 1 0 1 [8], .recv 0 0 1 [7], .recv 2 0 3 [5, 6]] =
        some m ∧ m.lastAck = (2, 1) ∧
      m.lastAck.2 =
        ((m.incomingSlices.get m.lastAck.1).bind fun sm => sm.slices.get 0).getD 0 :=
  ⟨_, rfl, rfl, (lastAck_at_first_incomplete Epoch.one
    [.recv 1 0 1 [8], .recv 0 0 1 [7], .recv 2 0 3 [5, 6]] _ rfl).2.2.1⟩

end MessageManager

section report

variable {l : List (Nat × SliceManager)} {lastAck lastAck' : Nat × Nat} {b : Bool}

private theorem catchUp_true (h : catchUp l lastAck true = some (lastAck', b)) : b = true := by
  induction l generalizing lastAck with
  | nil => simp_all [catchUp]
  | cons e l ih =>
      by_cases hseq : e.1 = lastAck.1
      · rw [catchUp, if_neg (not_not_intro hseq)] at h
        obtain ⟨full, _, h⟩ := Option.bind_eq_some_iff.mp h
        cases full with
        | false => simp_all
        | true =>
            obtain ⟨next, _, h⟩ := Option.bind_eq_some_iff.mp h
            exact ih h
      · rw [catchUp_other hseq] at h
        simp_all

end report

namespace Receiving

open MessageManager

variable {m m' : MessageManager} {n seq firstIndex seqLen : Nat} {data : List UInt8}
  {sm : SliceManager} {b : Bool}

/-- At the acknowledged number an empty fragment never leaves a full entry: the one it finds is
not full, and the one it opens has no mark. -/
private theorem full_iff (h : Receiving m n) (hseq : seq = m.lastAck.1)
    (hr : (m.entryFor seq seqLen).recvSlice m.epoch seq firstIndex data = some sm) :
    sm.Full ↔ data ≠ [] ∧ Completes m seq firstIndex seqLen data := by
  by_cases hdata : data = []
  · simp only [hdata, ne_eq, not_true_eq_false, false_and, iff_false]
    obtain ⟨hepoch, hnum⟩ := h.entryFor_fields seq seqLen
    rw [hdata, ← hepoch] at hr
    nth_rewrite 3 [← hnum] at hr
    have hvalid := h.entryFor_valid (SliceManager.recvSlice_nonempty hr)
    obtain rfl := SliceManager.recvSlice_nil hr
    unfold entryFor at hvalid ⊢
    cases hs : m.incomingSlices.get seq with
    | none =>
        intro hfull
        rw [hs] at hvalid
        exact not_covered_empty 0 (hfull 0 hvalid.nonempty)
    | some old => exact (h.current old (hseq ▸ hs)).1
  · simp only [ne_eq, hdata, not_false_eq_true, true_and]
    exact h.full_iff_completes hdata hr

/-- What storing a slice of the acknowledged number does to the acknowledgement and the report,
by whether the entry is full after it. -/
theorem catchUp_report (h : Receiving m n) (hseq : seq = m.lastAck.1)
    (hr : (m.entryFor seq seqLen).recvSlice m.epoch seq firstIndex data = some sm)
    {lastAck : Nat × Nat}
    (hcatch : catchUp ((m.incomingSlices.insert seq sm).rangeFrom seq) m.lastAck false =
      some (lastAck, b)) :
    (sm.Full → b = true ∧ lastAck ≠ m.lastAck) ∧ (¬ sm.Full → (b = true ↔ lastAck = m.lastAck)) := by
  have hvalid := (h.grown hr).2.valid
  have hself := SortedMap.get_insert_self m.incomingSlices seq sm
  obtain ⟨rest, hrest⟩ := SortedMap.rangeFrom_cons hself
  have hcurrent := (h.catchUp_insert hseq hr hcatch).2.2.2.1
  rw [hrest] at hcatch
  constructor
  · intro hfull
    rw [catchUp_full hseq hvalid hfull] at hcatch
    obtain ⟨next, _, hcatch⟩ := Option.bind_eq_some_iff.mp hcatch
    refine ⟨catchUp_true hcatch, ?_⟩
    intro heq
    rw [heq, ← hseq] at hcurrent
    exact (hcurrent sm hself).1 hfull
  · intro hfull
    rw [catchUp_unfilled hseq hvalid hfull] at hcatch
    simp only [Bool.false_or, Option.some.injEq, Prod.mk.injEq] at hcatch
    rw [← hcatch.1, ← hcatch.2, decide_eq_true_iff]
    exact eq_comm

private theorem recvInRange_false (hr : m.recv seq firstIndex seqLen data = some (b, m')) :
    m.recvInRange seq firstIndex seqLen = some false ↔
      seq < m.lastAck.1 ∨ (seq = m.lastAck.1 ∧ firstIndex + seqLen ≤ m.lastAck.2) := by
  unfold recvInRange
  rcases Nat.lt_trichotomy seq m.lastAck.1 with hlow | hat | hhigh
  · simp [hlow]
  · have hfit : firstIndex + seqLen < 2 ^ 64 := by
      by_contra hover
      rw [recv_at hat, if_pos (by omega)] at hr
      cases hr
    simp [hat, checkedAdd_of_lt hfit]
  · simp [hhigh, show ¬ seq < m.lastAck.1 by omega, show seq ≠ m.lastAck.1 by omega]

end Receiving

/-- The slices about which `recv` reports what became of the acknowledgement: all but those of
the acknowledged number that are in range and do not complete their entry. -/
def RightlyReported (m : MessageManager) (seq firstIndex seqLen : Nat) (data : List UInt8) :
    Prop :=
  seq = m.lastAck.1 → firstIndex + seqLen ≤ m.lastAck.2 ∨
    (data ≠ [] ∧ Completes m seq firstIndex seqLen data)

namespace MessageManager

/-- After any calls, a `recv` that returns reports `true` exactly when the slice was out of range
or the acknowledgement moved, if and only if the slice is not one of the acknowledged number that
is in range and leaves its entry unfinished. There the comparison that sets the report is the
wrong way round. -/
theorem recv_reports_change_iff (epoch : Epoch) (calls : List Call) (m m' : MessageManager)
    (seq firstIndex seqLen : Nat) (data : List UInt8) (b : Bool)
    (hrun : run call (new epoch) calls = some m)
    (hr : m.recv seq firstIndex seqLen data = some (b, m')) :
    (b = true ↔ m.recvInRange seq firstIndex seqLen = some false ∨ m'.lastAck ≠ m.lastAck) ↔
      RightlyReported m seq firstIndex seqLen data := by
  obtain ⟨n, hrec⟩ := (tracked_run hrun).receiving
  rw [Receiving.recvInRange_false hr, RightlyReported]
  rcases recv_cases hr with ⟨rfl, rfl, hout⟩ | ⟨sm, hseq, rfl, _, rfl⟩ |
    ⟨sm, lastAck, hseq, hin, hrecv, hcatch, rfl⟩
  · simp only [hout, ne_eq, not_true_eq_false, or_false, true_iff]
    intro hat
    exact Or.inl (by omega)
  · simp only [Bool.false_eq_true, ne_eq, not_true_eq_false, or_false, false_iff]
    exact ⟨fun _ hat => by omega, fun _ => by omega⟩
  · have hreport := hrec.catchUp_report hseq hrecv hcatch
    have hrange : ¬ firstIndex + seqLen ≤ m.lastAck.2 := by omega
    have hbelow : ¬ seq < m.lastAck.1 := by omega
    simp only [hbelow, hrange, and_false, false_or]
    rw [← hrec.full_iff hseq hrecv, imp_iff_right hseq]
    by_cases hfull : sm.Full
    · simp [hfull, hreport.1 hfull]
    · simp [hfull, hreport.2 hfull]

/-- A message of one byte: the slice completes it, and the report is right. -/
theorem recv_reports_change_iff_complete :
    ∃ m', (new Epoch.one).recv 0 0 1 [7] = some (true, m') ∧ m'.lastAck = (1, 0) ∧
      ((true = true ↔ (new Epoch.one).recvInRange 0 0 1 = some false ∨
        m'.lastAck ≠ (new Epoch.one).lastAck) ↔ RightlyReported (new Epoch.one) 0 0 1 [7]) :=
  ⟨_, rfl, rfl, recv_reports_change_iff Epoch.one [] (new Epoch.one) _ 0 0 1 [7] true rfl rfl⟩

/-- Two of three bytes move the acknowledgement and are reported as no change; the first of two
leaves it where it was and is reported as a change. -/
theorem recv_reports_inverted :
    (∃ b m', (new Epoch.one).recv 0 0 3 [7, 8] = some (b, m') ∧ b = false ∧ m'.lastAck = (0, 1) ∧
      ¬ (b = true ↔ (new Epoch.one).recvInRange 0 0 3 = some false ∨
        m'.lastAck ≠ (new Epoch.one).lastAck)) ∧
    ∃ b m', (new Epoch.one).recv 0 0 2 [7] = some (b, m') ∧ b = true ∧ m'.lastAck = (0, 0) ∧
      ¬ (b = true ↔ (new Epoch.one).recvInRange 0 0 2 = some false ∨
        m'.lastAck ≠ (new Epoch.one).lastAck) :=
  ⟨⟨false, _, rfl, rfl, rfl, by decide⟩, ⟨true, _, rfl, rfl, rfl, by decide⟩⟩

end MessageManager

end LinkSet
