import LinkSet.Protocol
import LinkSet.Slices.AddRemove

/-!
# Slice managers

A `SliceManager` is one message of a session. On the sending side its map holds the bytes
still to be acknowledged, on the receiving side the bytes that have arrived. A function
returns `none` where the source overflows, indexes out of range or unwraps nothing.
-/

namespace LinkSet

open Framework

/-- A `Vec<u8>`. -/
structure Payload where
  bytes : List UInt8
  small : bytes.length ≤ isizeMax

structure SliceManager where
  epoch : Epoch
  seq : Nat
  data : List UInt8
  /-- The start of a slice to the index of its final element. -/
  slices : SortedMap Nat Nat

namespace SliceManager

/-- `vec![0; size]` panics on a size above `isize::MAX`, which `Core.round` adds. -/
def new (epoch : Epoch) (seq size : Nat) : SliceManager :=
  ⟨epoch, seq, List.replicate size 0, SortedMap.empty⟩

def fromVec (epoch : Epoch) (seq : Nat) (data : List UInt8) : SliceManager :=
  ⟨epoch, seq, data,
    if data.isEmpty then SortedMap.empty else SortedMap.empty.insert 0 (data.length - 1)⟩

def isFull (s : SliceManager) : Option Bool :=
  if s.slices.len = 1 then
    (checkedSub s.data.length 1).map fun last => s.slices.first = some (0, last)
  else some false

def isEmpty (s : SliceManager) : Bool := s.slices.len = 0

/-- `SliceManager::data`: the buffer, if it is full. -/
def fullData (s : SliceManager) : Option (Option (List UInt8)) :=
  s.isFull.map fun full => if full then some s.data else none

def lastHeadIndex (s : SliceManager) : Option Nat :=
  s.slices.first.bind fun entry => if entry.1 ≠ 0 then none else some entry.2

def recvSlice (s : SliceManager) (epoch : Epoch) (seq firstIndex : Nat) (data : List UInt8) :
    Option SliceManager :=
  if epoch ≠ s.epoch ∨ seq ≠ s.seq then some s
  else do
    let sum ← checkedAdd firstIndex data.length
    let lastIndex ← checkedSub sum 1
    let bound ← checkedSub s.data.length 1
    let lastIndex := min lastIndex bound
    if lastIndex < firstIndex then some s
    else
      let length := lastIndex - firstIndex
      -- the two ranges copied between are `firstIndex..=lastIndex` and `..=length`
      if lastIndex < s.data.length ∧ length < data.length then
        some { s with
          slices := addSlice s.slices firstIndex lastIndex
          data := s.data.take firstIndex ++ data.take (length + 1) ++ s.data.drop (lastIndex + 1) }
      else none

def ack (s : SliceManager) (epoch : Epoch) (seq lastIndex : Nat) : SliceManager :=
  if epoch ≠ s.epoch ∨ seq ≠ s.seq then s
  else { s with slices := removeSlice s.slices 0 lastIndex }

end SliceManager

/-- The loop of `make_slices`; `none` also stands for running out of fuel. -/
def sliceLoop (data : List UInt8) (epoch : Epoch) (seq size last : Nat) :
    Nat → Nat → Option (List LinkProtocol)
  | 0, _ => none
  | fuel + 1, cursor => do
      let next ← checkedAdd cursor size
      let top ← checkedSub next 1
      let bound ← checkedSub data.length 1
      let sliceEnd := min (min top last) bound
      if sliceEnd < cursor then some []
      else if data.length ≤ sliceEnd then none
      else
        let frame := LinkProtocol.msgSlice epoch.toInt seq data.length cursor
          ((data.drop cursor).take (sliceEnd + 1 - cursor))
        let cursor ← checkedAdd cursor size
        if last < cursor then some [frame]
        else return frame :: (← sliceLoop data epoch seq size last fuel cursor)

/-- The cursor grows in every round and stays at most `last`, which bounds their number. -/
def makeSlices (data : List UInt8) (epoch : Epoch) (seq start size last : Nat) :
    Option (List LinkProtocol) :=
  if size = 0 then some [] else sliceLoop data epoch seq size last (last + 1 - start + 1) start

def SliceManager.getSlices (s : SliceManager) (size : Nat) : Option (List LinkProtocol) :=
  (s.slices.entries.mapM fun entry =>
    makeSlices s.data s.epoch s.seq entry.1 size entry.2).map List.flatten

namespace SliceManager

/-- The shape every slice manager of a run has: a non-empty buffer and a map in normal form
inside it. -/
structure Valid (s : SliceManager) : Prop where
  nonempty : 0 < s.data.length
  normal : Normal s.slices
  bound : ∀ a e, s.slices.get a = some e → e < s.data.length

/-- Every byte of the buffer is marked. -/
def Full (s : SliceManager) : Prop := ∀ i < s.data.length, Covered s.slices i

theorem Valid.single_iff {s : SliceManager} (h : s.Valid) :
    s.slices.entries = [(0, s.data.length - 1)] ↔ s.Full :=
  h.normal.single_iff h.nonempty h.bound

theorem Valid.isFull_eq {s : SliceManager} (h : s.Valid) :
    s.isFull = some (decide (s.slices.entries = [(0, s.data.length - 1)])) := by
  unfold isFull
  rw [checkedSub_of_le (show 1 ≤ s.data.length from h.nonempty)]
  by_cases hlen : s.slices.len = 1
  · obtain ⟨k, v, hkv⟩ := SortedMap.len_eq_one.mp hlen
    rw [if_pos hlen]
    simp [SortedMap.first, hkv]
  · rw [if_neg hlen]
    have hne : s.slices.entries ≠ [(0, s.data.length - 1)] := by
      intro heq
      exact hlen (by simp [SortedMap.len, heq])
    simp [hne]

theorem Valid.isFull_true {s : SliceManager} (h : s.Valid) : s.isFull = some true ↔ s.Full := by
  rw [h.isFull_eq, ← h.single_iff]
  simp

theorem Valid.isFull_false {s : SliceManager} (h : s.Valid) :
    s.isFull = some false ↔ ¬ s.Full := by
  rw [h.isFull_eq, ← h.single_iff]
  simp

theorem Valid.fullData_of_full {s : SliceManager} (h : s.Valid) (hf : s.Full) :
    s.fullData = some (some s.data) := by
  simp [fullData, h.isFull_true.mpr hf]

theorem lastHeadIndex_eq_some {s : SliceManager} {k : Nat} :
    s.lastHeadIndex = some k ↔ s.slices.get 0 = some k := by
  unfold lastHeadIndex
  constructor
  · intro h
    obtain ⟨⟨a, e⟩, hfirst, hk⟩ := Option.bind_eq_some_iff.mp h
    by_cases ha : a = 0
    · subst ha
      obtain rfl : e = k := by simpa using hk
      exact (SortedMap.first_eq_some.mp hfirst).1
    · simp [ha] at hk
  · intro h
    have hfirst : s.slices.first = some (0, k) :=
      SortedMap.first_eq_some.mpr ⟨h, fun b _ _ => Nat.zero_le b⟩
    simp [hfirst]

@[simp] theorem ack_data (s : SliceManager) (epoch : Epoch) (seq lastIndex : Nat) :
    (s.ack epoch seq lastIndex).data = s.data := by
  unfold ack
  split <;> rfl

@[simp] theorem ack_seq (s : SliceManager) (epoch : Epoch) (seq lastIndex : Nat) :
    (s.ack epoch seq lastIndex).seq = s.seq := by
  unfold ack
  split <;> rfl

@[simp] theorem ack_epoch (s : SliceManager) (epoch : Epoch) (seq lastIndex : Nat) :
    (s.ack epoch seq lastIndex).epoch = s.epoch := by
  unfold ack
  split <;> rfl

theorem new_valid (epoch : Epoch) (seq : Nat) {size : Nat} (h : 0 < size) :
    (new epoch seq size).Valid where
  nonempty := by simpa [new] using h
  normal := normal_empty
  bound := by simp [new]

/-- The last index a fragment marks, capped at the end of the buffer. -/
def fragmentEnd (s : SliceManager) (firstIndex : Nat) (data : List UInt8) : Nat :=
  min (firstIndex + data.length - 1) (s.data.length - 1)

/-- `recv_slice` in one equation: it fails on an overflowing fragment or an empty buffer,
ignores a fragment that starts past the end, and otherwise marks and copies. -/
theorem recvSlice_eq (s : SliceManager) (firstIndex : Nat) {data : List UInt8}
    (hdata : data ≠ []) :
    s.recvSlice s.epoch s.seq firstIndex data =
      if 2 ^ 64 ≤ firstIndex + data.length ∨ s.data.length = 0 then none
      else if s.data.length ≤ firstIndex then some s
      else some { s with
        slices := addSlice s.slices firstIndex (s.fragmentEnd firstIndex data)
        data := s.data.take firstIndex ++ data.take (s.fragmentEnd firstIndex data - firstIndex + 1) ++
          s.data.drop (s.fragmentEnd firstIndex data + 1) } := by
  have hpos : 0 < data.length := List.length_pos_of_ne_nil hdata
  unfold recvSlice
  rw [if_neg (by simp)]
  by_cases hover : 2 ^ 64 ≤ firstIndex + data.length
  · rw [checkedAdd_eq_none.mpr hover, if_pos (Or.inl hover)]
    rfl
  rw [checkedAdd_of_lt (by omega), Option.bind_eq_bind, Option.bind_some,
    checkedSub_of_le (by omega), Option.bind_some]
  by_cases hzero : s.data.length = 0
  · have hnone : checkedSub s.data.length 1 = none := by
      unfold checkedSub
      rw [if_neg (by omega)]
    rw [hnone, if_pos (Or.inr hzero)]
    rfl
  rw [checkedSub_of_le (by omega), Option.bind_some,
    if_neg (by omega : ¬ (2 ^ 64 ≤ firstIndex + data.length ∨ s.data.length = 0))]
  change (if s.fragmentEnd firstIndex data < firstIndex then _ else _) = _
  have hend : s.fragmentEnd firstIndex data < firstIndex ↔ s.data.length ≤ firstIndex := by
    unfold fragmentEnd
    omega
  by_cases hpast : s.data.length ≤ firstIndex
  · rw [if_pos (hend.mpr hpast), if_pos hpast]
  · rw [if_neg (fun h => hpast (hend.mp h)), if_neg hpast]
    have hin : s.fragmentEnd firstIndex data < s.data.length ∧
        s.fragmentEnd firstIndex data - firstIndex < data.length := by
      unfold fragmentEnd
      omega
    exact if_pos hin

/-- What receiving a fragment does to a slice manager. -/
structure Received (s s' : SliceManager) (firstIndex : Nat) (data : List UInt8) : Prop where
  epoch : s'.epoch = s.epoch
  seq : s'.seq = s.seq
  length : s'.data.length = s.data.length
  valid : s'.Valid
  covered : ∀ i, Covered s'.slices i ↔ Covered s.slices i ∨
    (firstIndex < s.data.length ∧ firstIndex ≤ i ∧
      i ≤ reach s.slices firstIndex (s.fragmentEnd firstIndex data))
  byte : ∀ i, s'.data[i]? =
    if firstIndex ≤ i ∧ i ≤ s.fragmentEnd firstIndex data then data[i - firstIndex]? else s.data[i]?

private theorem fragmentEnd_lt {s : SliceManager} (h : s.Valid) (firstIndex : Nat)
    (data : List UInt8) : s.fragmentEnd firstIndex data < s.data.length := by
  have := h.nonempty
  unfold fragmentEnd
  omega

private theorem splice_getElem? (buf src : List UInt8) {a b : Nat} (hab : a ≤ b)
    (hb : b < buf.length) (hsrc : b - a < src.length) (i : Nat) :
    (buf.take a ++ src.take (b - a + 1) ++ buf.drop (b + 1))[i]? =
      if a ≤ i ∧ i ≤ b then src[i - a]? else buf[i]? := by
  have h1 : (buf.take a).length = a := List.length_take_of_le (by omega)
  have h2 : (src.take (b - a + 1)).length = b - a + 1 := List.length_take_of_le (by omega)
  have h3 : (buf.take a ++ src.take (b - a + 1)).length = b + 1 := by
    rw [List.length_append, h1, h2]
    omega
  by_cases hlt : i < a
  · rw [List.getElem?_append_left (by omega), List.getElem?_append_left (by omega),
      List.getElem?_take_of_lt hlt, if_neg (by omega)]
  · by_cases hle : i ≤ b
    · rw [List.getElem?_append_left (by omega), List.getElem?_append_right (by omega), h1,
        List.getElem?_take_of_lt (by omega), if_pos ⟨by omega, hle⟩]
    · rw [List.getElem?_append_right (by omega), h3, List.getElem?_drop, if_neg (by omega)]
      congr 1
      omega

theorem recvSlice_received {s s' : SliceManager} (h : s.Valid) {firstIndex : Nat}
    {data : List UInt8} (hdata : data ≠ [])
    (hr : s.recvSlice s.epoch s.seq firstIndex data = some s') :
    Received s s' firstIndex data := by
  have hend := fragmentEnd_lt h firstIndex data
  have hpos : 0 < data.length := List.length_pos_of_ne_nil hdata
  rw [recvSlice_eq s firstIndex hdata] at hr
  split at hr
  · cases hr
  split at hr
  · next hpast =>
      obtain rfl : s = s' := by simpa using hr
      exact {
        epoch := rfl
        seq := rfl
        length := rfl
        valid := h
        covered := fun i => ⟨Or.inl, fun hc => hc.elim id fun hc => absurd hc.1 (by omega)⟩
        byte := fun i => by rw [if_neg (by omega)] }
  · next hin =>
      have hfirst : firstIndex ≤ s.fragmentEnd firstIndex data := by
        unfold fragmentEnd
        omega
      have hsrc : s.fragmentEnd firstIndex data - firstIndex < data.length := by
        unfold fragmentEnd
        omega
      obtain ⟨hnormal, hcov⟩ := addSlice_spec h.normal hfirst
      have hbyte := splice_getElem? s.data data hfirst hend hsrc
      have hreach := @reach_lt s.slices firstIndex _ _ hend h.bound
      obtain rfl := Option.some.inj hr
      have hlength : (s.data.take firstIndex ++
          data.take (s.fragmentEnd firstIndex data - firstIndex + 1) ++
          s.data.drop (s.fragmentEnd firstIndex data + 1)).length = s.data.length := by
        simp only [List.length_append, List.length_take, List.length_drop]
        omega
      exact {
        epoch := rfl
        seq := rfl
        length := hlength
        valid := {
          nonempty := by
            rw [hlength]
            exact h.nonempty
          normal := hnormal
          bound := by
            intro a e ha
            rw [hlength]
            have hce := (hcov e).mp ⟨a, e, ha, hnormal.le a e ha, Nat.le_refl _⟩
            rcases hce with ⟨a', e', ha', _, hle⟩ | hnew
            · exact Nat.lt_of_le_of_lt hle (h.bound a' e' ha')
            · omega }
        covered := fun i => by
          rw [hcov i]
          simp only [show firstIndex < s.data.length by omega, true_and]
        byte := hbyte }

theorem recvSlice_nonempty {s s' : SliceManager} {firstIndex : Nat} {data : List UInt8}
    (hr : s.recvSlice s.epoch s.seq firstIndex data = some s') : s.data.length ≠ 0 := by
  rw [recvSlice, if_neg (by simp)] at hr
  obtain ⟨sum, _, hr⟩ := Option.bind_eq_some_iff.mp hr
  obtain ⟨lastIndex, _, hr⟩ := Option.bind_eq_some_iff.mp hr
  obtain ⟨bound, hbound, _⟩ := Option.bind_eq_some_iff.mp hr
  have := (checkedSub_eq_some.mp hbound).1
  omega

theorem recvSlice_nil {s s' : SliceManager} {firstIndex : Nat}
    (hr : s.recvSlice s.epoch s.seq firstIndex [] = some s') : s' = s := by
  rw [recvSlice, if_neg (by simp)] at hr
  obtain ⟨sum, hsum, hr⟩ := Option.bind_eq_some_iff.mp hr
  obtain ⟨lastIndex, hlast, hr⟩ := Option.bind_eq_some_iff.mp hr
  obtain ⟨bound, _, hr⟩ := Option.bind_eq_some_iff.mp hr
  obtain ⟨_, rfl⟩ := checkedAdd_eq_some.mp hsum
  obtain ⟨hpos, rfl⟩ := checkedSub_eq_some.mp hlast
  simp only [List.length_nil] at hpos hr
  rw [if_pos (by omega)] at hr
  exact (Option.some.inj hr).symm

/-- What every fragment does, be it empty or not: no mark is taken back. -/
structure Grown (s s' : SliceManager) : Prop where
  epoch : s'.epoch = s.epoch
  seq : s'.seq = s.seq
  valid : s'.Valid
  covered : ∀ i, Covered s.slices i → Covered s'.slices i

private theorem Received.grown {s s' : SliceManager} {firstIndex : Nat} {data : List UInt8}
    (h : Received s s' firstIndex data) : Grown s s' where
  epoch := h.epoch
  seq := h.seq
  valid := h.valid
  covered := fun i hi => (h.covered i).mpr (Or.inl hi)

theorem recvSlice_grown {s s' : SliceManager} (h : s.Valid) {firstIndex : Nat}
    {data : List UInt8} (hr : s.recvSlice s.epoch s.seq firstIndex data = some s') :
    Grown s s' := by
  by_cases hdata : data = []
  · subst hdata
    obtain rfl := recvSlice_nil hr
    exact ⟨rfl, rfl, h, fun _ hi => hi⟩
  · exact (recvSlice_received h hdata hr).grown

theorem lastHeadIndex_eq (s : SliceManager) : s.lastHeadIndex = s.slices.get 0 := by
  apply Option.ext
  intro k
  rw [lastHeadIndex_eq_some]

theorem Grown.head_le {s s' : SliceManager} (h : Grown s s') (hv : s.Valid) :
    s.lastHeadIndex.getD 0 ≤ s'.lastHeadIndex.getD 0 := by
  rw [lastHeadIndex_eq, lastHeadIndex_eq]
  exact hv.normal.get_zero_mono h.valid.normal h.covered

end SliceManager

end LinkSet
