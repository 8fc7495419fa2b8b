import LinkSet.Framework.Run
import LinkSet.Slices.Manager

/-!
# The normal form of a slice map

However a slice manager is used, its map stays in normal form inside the buffer, although its
calls may mark bytes they should not. The queries read only the first entry of the map and its
length; the normal form is what makes their answers right about the marked bytes.
-/

namespace LinkSet

open Framework

/-- The calls that change a slice manager. -/
inductive SliceCall where
  | recvSlice (epoch : Epoch) (seq firstIndex : Nat) (data : List UInt8)
  | ack (epoch : Epoch) (seq lastIndex : Nat)

/-- A fragment that is not empty and whose end is a number of 64 bits. -/
def SliceCall.Regular : SliceCall → Prop
  | .recvSlice _ _ firstIndex data => data ≠ [] ∧ firstIndex + data.length < 2 ^ 64
  | .ack _ _ _ => True

namespace SliceManager

def call (s : SliceManager) : SliceCall → Option SliceManager
  | .recvSlice epoch seq firstIndex data => s.recvSlice epoch seq firstIndex data
  | .ack epoch seq lastIndex => some (s.ack epoch seq lastIndex)

/-- How a manager of at least one byte is made. -/
inductive Built : SliceManager → Prop where
  | new (epoch : Epoch) (seq : Nat) {size : Nat} (h : 1 ≤ size) : Built (new epoch seq size)
  | fromVec (epoch : Epoch) (seq : Nat) {data : List UInt8} (h : data ≠ []) :
      Built (fromVec epoch seq data)

private theorem Built.valid {s : SliceManager} (h : s.Built) : s.Valid := by
  cases h with
  | new epoch seq h => exact new_valid epoch seq h
  | @fromVec epoch seq data h =>
      have hslices : (SliceManager.fromVec epoch seq data).slices =
          SortedMap.empty.insert 0 (data.length - 1) := by
        simp [SliceManager.fromVec, h]
      have hpos : 0 < data.length := List.length_pos_of_ne_nil h
      constructor
      · exact hpos
      · rw [hslices]
        apply normal_empty.insert (Nat.zero_le _)
        simp
      · intro a e ha
        rw [hslices, SortedMap.get_insert] at ha
        split at ha
        · cases ha
          exact Nat.sub_lt hpos Nat.one_pos
        · cases ha

private theorem recvSlice_valid {s : SliceManager} (h : s.Valid) (epoch : Epoch)
    (seq firstIndex : Nat) {data : List UInt8} (hdata : data ≠ [])
    (hfit : firstIndex + data.length < 2 ^ 64) :
    ∃ s', s.recvSlice epoch seq firstIndex data = some s' ∧ s'.Valid ∧
      s'.data.length = s.data.length := by
  by_cases hother : epoch ≠ s.epoch ∨ seq ≠ s.seq
  · exact ⟨s, if_pos hother, h, rfl⟩
  · push Not at hother
    obtain ⟨rfl, rfl⟩ := hother
    have hpos := h.nonempty
    have hsome : ∃ s', s.recvSlice s.epoch s.seq firstIndex data = some s' := by
      rw [recvSlice_eq s firstIndex hdata, if_neg (by omega)]
      split
      · exact ⟨s, rfl⟩
      · exact ⟨_, rfl⟩
    obtain ⟨s', hs'⟩ := hsome
    have hreceived := recvSlice_received h hdata hs'
    exact ⟨s', hs', hreceived.valid, hreceived.length⟩

private theorem ack_valid {s : SliceManager} (h : s.Valid) (epoch : Epoch) (seq lastIndex : Nat) :
    (s.ack epoch seq lastIndex).Valid := by
  unfold ack
  split
  · exact h
  · by_cases hzero : lastIndex = 0
    · rw [hzero, removeSlice, if_pos rfl]
      exact h
    · obtain ⟨hnormal, hcovered⟩ := removeSlice_spec h.normal (show 0 < lastIndex by omega)
      refine ⟨h.nonempty, hnormal, ?_⟩
      intro a e ha
      have hce := (hcovered e).mp ⟨a, e, ha, hnormal.le a e ha, Nat.le_refl _⟩
      rcases hce with ⟨⟨a', e', ha', _, hle⟩, _⟩ | ⟨hlt, _⟩ | ⟨hlt, _, hle⟩
      · exact Nat.lt_of_le_of_lt hle (h.bound a' e' ha')
      · omega
      · obtain ⟨a', ha'⟩ := exists_get_of_lt_reach (hlt.trans_le hle)
        exact Nat.lt_of_le_of_lt hle (h.bound a' _ ha')

private theorem call_valid {s : SliceManager} (h : s.Valid) {c : SliceCall} (hc : c.Regular) :
    ∃ s', s.call c = some s' ∧ s'.Valid ∧ s'.data.length = s.data.length := by
  cases c with
  | recvSlice epoch seq firstIndex data => exact recvSlice_valid h epoch seq firstIndex hc.1 hc.2
  | ack epoch seq lastIndex =>
      exact ⟨s.ack epoch seq lastIndex, rfl, ack_valid h epoch seq lastIndex,
        congrArg List.length (ack_data s epoch seq lastIndex)⟩

private theorem run_valid {s : SliceManager} (h : s.Valid) {calls : List SliceCall}
    (hcalls : ∀ c ∈ calls, c.Regular) :
    ∃ s', run call s calls = some s' ∧ s'.Valid ∧ s'.data.length = s.data.length := by
  induction calls generalizing s with
  | nil => exact ⟨s, rfl, h, rfl⟩
  | cons c calls ih =>
      obtain ⟨s1, hs1, hvalid, hlen⟩ := call_valid h (hcalls c (by simp))
      obtain ⟨s2, hs2, hvalid2, hlen2⟩ := ih hvalid fun d hd => hcalls d (by simp [hd])
      exact ⟨s2, run_cons.mpr ⟨s1, hs1, hs2⟩, hvalid2, hlen2.trans hlen⟩

private theorem Valid.isFull_eq_decide {s : SliceManager} (h : s.Valid) :
    s.isFull = some (decide (∀ i < s.data.length, Covered s.slices i)) := by
  rw [h.isFull_eq, Option.some.injEq, decide_eq_decide]
  exact h.single_iff

theorem Valid.isEmpty_iff {s : SliceManager} (h : s.Valid) :
    s.isEmpty = true ↔ ∀ i, ¬ Covered s.slices i := by
  rw [isEmpty, decide_eq_true_iff]
  exact h.normal.len_eq_zero_iff

theorem Valid.lastHeadIndex_iff {s : SliceManager} (h : s.Valid) (k : Nat) :
    s.lastHeadIndex = some k ↔ IsGreatest {k | ∀ i ≤ k, Covered s.slices i} k := by
  rw [lastHeadIndex_eq_some]
  exact h.normal.get_zero_iff_isGreatest

/-- Whatever fragments are received and whatever is acknowledged, the map holds disjoint intervals
of the buffer with a gap between any two. So the manager is full exactly when every index is
marked and empty exactly when none is, and its head ends at the greatest index up to which all
are marked. -/
theorem slices_in_normal_form {s : SliceManager} (hbuilt : s.Built) (calls : List SliceCall)
    (hcalls : ∀ c ∈ calls, c.Regular) :
    ∃ s', run call s calls = some s' ∧ s'.data.length = s.data.length ∧
      Normal s'.slices ∧ (∀ a e, s'.slices.get a = some e → e < s'.data.length) ∧
      s'.isFull = some (decide (∀ i < s'.data.length, Covered s'.slices i)) ∧
      (s'.isEmpty = true ↔ ∀ i, ¬ Covered s'.slices i) ∧
      ∀ k, s'.lastHeadIndex = some k ↔ IsGreatest {k | ∀ i ≤ k, Covered s'.slices i} k := by
  obtain ⟨s', hrun, hvalid, hlen⟩ := run_valid hbuilt.valid hcalls
  exact ⟨s', hrun, hlen, hvalid.normal, hvalid.bound, hvalid.isFull_eq_decide, hvalid.isEmpty_iff,
    hvalid.lastHeadIndex_iff⟩

/-- Two fragments with a gap between them; the acknowledgement cuts the first. -/
theorem slices_in_normal_form_cut :
    ∃ s, run call (new Epoch.one 0 6) [.recvSlice Epoch.one 0 0 [7, 8, 8],
        .recvSlice Epoch.one 0 4 [9], .ack Epoch.one 0 1] = some s ∧
      s.slices.entries = [(2, 2), (4, 4)] ∧ Normal s.slices := by
  have hbuilt : (new Epoch.one 0 6).Built := Built.new Epoch.one 0 (by decide)
  obtain ⟨s, hrun, _, hnormal, _⟩ := slices_in_normal_form hbuilt
    [.recvSlice Epoch.one 0 0 [7, 8, 8], .recvSlice Epoch.one 0 4 [9], .ack Epoch.one 0 1]
    (by simp [SliceCall.Regular])
  refine ⟨s, hrun, ?_, hnormal⟩
  obtain rfl := Option.some.inj hrun
  rfl

end SliceManager

end LinkSet
