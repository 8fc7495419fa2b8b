import LinkSet.Framework.Run
import LinkSet.Slices.Slicing

/-!
# Reassembly in any order

Fragments of one message arrive in any order, overlapping and repeated. `add_slice` may mark
bytes that have not arrived, but it never unmarks one, and every fragment is copied; so once the
fragments cover the message the buffer is full and holds it.
-/

namespace LinkSet

open Framework

/-- A piece of `d` and the index it starts at. -/
structure Fragment (d : List UInt8) where
  firstIndex : Nat
  piece : List UInt8
  isPiece : IsPiece d firstIndex piece

/-- The fragment carries the byte at index `i`. -/
def Fragment.Has {d : List UInt8} (f : Fragment d) (i : Nat) : Prop :=
  f.firstIndex ≤ i ∧ i < f.firstIndex + f.piece.length

instance {d : List UInt8} (f : Fragment d) (i : Nat) : Decidable (f.Has i) :=
  inferInstanceAs (Decidable (f.firstIndex ≤ i ∧ i < f.firstIndex + f.piece.length))

namespace SliceManager

/-- One `recv_slice` of a fragment. -/
def recvFragment (epoch : Epoch) (seq : Nat) {d : List UInt8} (s : SliceManager) (f : Fragment d) :
    Option SliceManager :=
  s.recvSlice epoch seq f.firstIndex f.piece

/-- The manager after some fragments of `d`: what they carry is marked and copied. -/
structure Gathered (d : List UInt8) (epoch : Epoch) (seq : Nat) (done : List (Fragment d))
    (s : SliceManager) : Prop where
  valid : s.Valid
  epoch : s.epoch = epoch
  seq : s.seq = seq
  length : s.data.length = d.length
  marked : ∀ f ∈ done, ∀ i, f.Has i → Covered s.slices i ∧ s.data[i]? = d[i]?

private theorem gathered_new (epoch : Epoch) (seq : Nat) {d : List UInt8} (hd : d ≠ []) :
    Gathered d epoch seq [] (new epoch seq d.length) where
  valid := new_valid epoch seq (List.length_pos_of_ne_nil hd)
  epoch := rfl
  seq := rfl
  length := by simp [new]
  marked := by simp

variable {d : List UInt8} {epoch : Epoch} {seq : Nat} {done : List (Fragment d)} {s : SliceManager}

private theorem Gathered.fragmentEnd_eq (h : Gathered d epoch seq done s) (f : Fragment d) :
    s.fragmentEnd f.firstIndex f.piece = f.firstIndex + f.piece.length - 1 := by
  have hle := f.isPiece.length_le
  have hlen := h.length
  unfold fragmentEnd
  omega

private theorem Gathered.recvFragment_isSome (h : Gathered d epoch seq done s)
    (hsmall : d.length < 2 ^ 64) (f : Fragment d) : ∃ s', s.recvFragment epoch seq f = some s' := by
  have hle := f.isPiece.length_le
  have hnonempty := h.valid.nonempty
  unfold recvFragment
  rw [← h.epoch, ← h.seq, recvSlice_eq s f.firstIndex f.isPiece.1, if_neg (by omega)]
  split
  · exact ⟨_, rfl⟩
  · exact ⟨_, rfl⟩

private theorem Gathered.step (h : Gathered d epoch seq done s) {f : Fragment d} {s' : SliceManager}
    (hr : s.recvFragment epoch seq f = some s') : Gathered d epoch seq (done ++ [f]) s' := by
  have hpos : 0 < f.piece.length := List.length_pos_of_ne_nil f.isPiece.1
  have hend := h.fragmentEnd_eq f
  have hreceived : Received s s' f.firstIndex f.piece := by
    apply recvSlice_received h.valid f.isPiece.1
    rw [h.epoch, h.seq]
    exact hr
  -- an index of the new fragment gets its byte from it, every other one keeps what it had
  have hnew : ∀ i, f.Has i → s'.data[i]? = d[i]? := by
    intro i hi
    have hin : i - f.firstIndex < f.piece.length := by
      have := hi.1
      have := hi.2
      omega
    rw [hreceived.byte i, hend, if_pos ⟨hi.1, by have := hi.2; omega⟩, f.isPiece.getElem? hin,
      Nat.add_sub_cancel' hi.1]
  have hold : ∀ i, ¬ f.Has i → s'.data[i]? = s.data[i]? := by
    intro i hi
    rw [hreceived.byte i, hend, if_neg]
    intro hrange
    exact hi ⟨hrange.1, by have := hrange.2; omega⟩
  exact {
    valid := hreceived.valid
    epoch := hreceived.epoch.trans h.epoch
    seq := hreceived.seq.trans h.seq
    length := hreceived.length.trans h.length
    marked := by
      intro g hg i hi
      rw [hreceived.covered i]
      by_cases hf : f.Has i
      · refine ⟨Or.inr ⟨?_, hf.1, ?_⟩, hnew i hf⟩
        · have hle := f.isPiece.length_le
          have hlen := h.length
          omega
        · have hreach := le_reach s.slices f.firstIndex (s.fragmentEnd f.firstIndex f.piece)
          have hlt := hf.2
          omega
      · rw [hold i hf]
        rcases List.mem_append.mp hg with hg | hg
        · obtain ⟨hcov, hbyte⟩ := h.marked g hg i hi
          exact ⟨Or.inl hcov, hbyte⟩
        · rw [List.mem_singleton] at hg
          exact absurd (hg ▸ hi) hf }

private theorem Gathered.run (hsmall : d.length < 2 ^ 64) (frags : List (Fragment d))
    (h : Gathered d epoch seq done s) :
    ∃ s', Framework.run (recvFragment epoch seq) s frags = some s' ∧
      Gathered d epoch seq (done ++ frags) s' := by
  induction frags generalizing done s with
  | nil => exact ⟨s, rfl, by simpa using h⟩
  | cons f frags ih =>
      obtain ⟨s1, hs1⟩ := h.recvFragment_isSome hsmall f
      obtain ⟨s', hrun, hs'⟩ := ih (h.step hs1)
      exact ⟨s', run_cons.mpr ⟨s1, hs1, hrun⟩, by simpa using hs'⟩

private theorem Gathered.complete (h : Gathered d epoch seq done s)
    (hcover : ∀ i < d.length, ∃ f ∈ done, f.Has i) : s.Full ∧ s.data = d := by
  constructor
  · intro i hi
    obtain ⟨f, hf, hi⟩ := hcover i (h.length ▸ hi)
    exact (h.marked f hf i hi).1
  · apply List.ext_getElem?
    intro i
    by_cases hi : i < d.length
    · obtain ⟨f, hf, hi⟩ := hcover i hi
      exact (h.marked f hf i hi).2
    · have hlen := h.length
      rw [List.getElem?_eq_none (by omega), List.getElem?_eq_none (by omega)]

/-- Whatever fragments of a message arrive and in whatever order: once they cover it, the
manager is full and its data is the message. -/
theorem reassembled (epoch : Epoch) (seq : Nat) (d : Payload) (hd : d.bytes ≠ [])
    (frags : List (Fragment d.bytes)) (hcover : ∀ i < d.bytes.length, ∃ f ∈ frags, f.Has i) :
    ∃ s, Framework.run (recvFragment epoch seq) (new epoch seq d.bytes.length) frags = some s ∧
      s.isFull = some true ∧ s.fullData = some (some d.bytes) := by
  have hsmall := d.small
  have hmax : isizeMax = 2 ^ 63 - 1 := rfl
  obtain ⟨s, hrun, hs⟩ := (gathered_new epoch seq hd).run (by omega) frags
  obtain ⟨hfull, hdata⟩ := hs.complete hcover
  refine ⟨s, hrun, hs.valid.isFull_true.mpr hfull, ?_⟩
  rw [hs.valid.fullData_of_full hfull, hdata]

/-- Three bytes, the last one first; the middle one is marked before it arrives. -/
theorem reassembled_backwards :
    ∃ s, Framework.run (recvFragment Epoch.one 0) (new Epoch.one 0 3)
        [(⟨2, [3], by decide⟩ : Fragment [1, 2, 3]), ⟨0, [1], by decide⟩, ⟨1, [2, 3], by decide⟩] =
          some s ∧
      s.isFull = some true ∧ s.fullData = some (some [1, 2, 3]) :=
  reassembled Epoch.one 0 ⟨[1, 2, 3], by decide⟩ (by decide)
    [⟨2, [3], by decide⟩, ⟨0, [1], by decide⟩, ⟨1, [2, 3], by decide⟩] (by decide)

end SliceManager

end LinkSet
