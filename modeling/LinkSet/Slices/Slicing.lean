import LinkSet.Slices.Manager

/-!
# Slicing a message

`get_slices` cuts what is outstanding of a message into frames for one link. The frames of a
range tile it: each one is a piece of the message that starts where the one before ends.
-/

namespace LinkSet

open Framework

/-- `data` is the piece of `d` that starts at `firstIndex`, and it is not empty. -/
def IsPiece (d : List UInt8) (firstIndex : Nat) (data : List UInt8) : Prop :=
  data ≠ [] ∧ data <+: d.drop firstIndex

instance (d : List UInt8) (firstIndex : Nat) (data : List UInt8) :
    Decidable (IsPiece d firstIndex data) :=
  inferInstanceAs (Decidable (data ≠ [] ∧ data <+: d.drop firstIndex))

theorem IsPiece.length_le {d data : List UInt8} {firstIndex : Nat}
    (h : IsPiece d firstIndex data) : firstIndex + data.length ≤ d.length := by
  have hpos : 0 < data.length := List.length_pos_of_ne_nil h.1
  have hle := h.2.length_le
  rw [List.length_drop] at hle
  omega

theorem IsPiece.getElem? {d data : List UInt8} {firstIndex i : Nat}
    (h : IsPiece d firstIndex data) (hi : i < data.length) :
    data[i]? = d[firstIndex + i]? := by
  obtain ⟨rest, hrest⟩ := h.2
  rw [← List.getElem?_drop, ← hrest, List.getElem?_append_left hi]

private theorem sliceLoop_pieces (data : List UInt8) (epoch : Epoch) (seq size last : Nat)
    (fuel cursor : Nat) (frames : List LinkProtocol)
    (h : sliceLoop data epoch seq size last fuel cursor = some frames) :
    ∀ f ∈ frames, ∃ firstIndex piece,
      f = .msgSlice epoch.toInt seq data.length firstIndex piece ∧
        IsPiece data firstIndex piece ∧ piece.length ≤ size := by
  induction fuel generalizing cursor frames with
  | zero => cases h
  | succ fuel ih =>
      simp only [sliceLoop, Option.bind_eq_bind, Option.bind_eq_some_iff] at h
      obtain ⟨next, hnext, top, htop, bound, _, h⟩ := h
      have hcursor := (checkedAdd_eq_some.mp hnext).2
      have htop := checkedSub_eq_some.mp htop
      split at h
      · obtain rfl := Option.some.inj h
        simp
      · next hcur =>
          split at h
          · cases h
          · next hlen =>
              have hpiece : IsPiece data cursor
                  ((data.drop cursor).take (min (min top last) bound + 1 - cursor)) := by
                refine ⟨?_, List.take_prefix _ _⟩
                intro hnil
                have := congrArg List.length hnil
                simp only [List.length_take, List.length_drop, List.length_nil] at this
                omega
              have hsize : ((data.drop cursor).take
                  (min (min top last) bound + 1 - cursor)).length ≤ size := by
                rw [List.length_take]
                omega
              obtain ⟨cursor', _, h⟩ := Option.bind_eq_some_iff.mp h
              split at h
              · obtain rfl := Option.some.inj h
                intro f hf
                exact ⟨_, _, List.mem_singleton.mp hf, hpiece, hsize⟩
              · obtain ⟨tail, htail, h⟩ := Option.bind_eq_some_iff.mp h
                obtain rfl := Option.some.inj h
                intro f hf
                rcases List.mem_cons.mp hf with hf | hf
                · exact ⟨_, _, hf, hpiece, hsize⟩
                · exact ih cursor' tail htail f hf

private theorem makeSlices_pieces {data : List UInt8} {epoch : Epoch} {seq start size last : Nat}
    {frames : List LinkProtocol} (h : makeSlices data epoch seq start size last = some frames) :
    ∀ f ∈ frames, ∃ firstIndex piece,
      f = .msgSlice epoch.toInt seq data.length firstIndex piece ∧
        IsPiece data firstIndex piece ∧ piece.length ≤ size := by
  unfold makeSlices at h
  split at h
  · obtain rfl := Option.some.inj h
    simp
  · exact sliceLoop_pieces data epoch seq size last _ start frames h

private theorem mem_flatten_mapM {α β : Type} {f : α → Option (List β)} {l : List α}
    {out : List (List β)} (h : l.mapM f = some out) {b : β} (hb : b ∈ out.flatten) :
    ∃ a ∈ l, ∃ bs, f a = some bs ∧ b ∈ bs := by
  induction l generalizing out with
  | nil =>
      obtain rfl : out = [] := by simpa using h.symm
      simp at hb
  | cons a l ih =>
      simp only [List.mapM_cons, Option.bind_eq_bind, Option.bind_eq_some_iff] at h
      obtain ⟨bs, hbs, tail, htail, h⟩ := h
      obtain rfl := Option.some.inj h
      rw [List.flatten_cons, List.mem_append] at hb
      rcases hb with hb | hb
      · exact ⟨a, by simp, bs, hbs, hb⟩
      · obtain ⟨a', ha', hrest⟩ := ih htail hb
        exact ⟨a', by simp [ha'], hrest⟩

/-- Everything a slice manager sends is a piece of its buffer no longer than asked for, under its
epoch, number and length. -/
theorem SliceManager.getSlices_pieces {s : SliceManager} {size : Nat} {frames : List LinkProtocol}
    (h : s.getSlices size = some frames) :
    ∀ f ∈ frames, ∃ firstIndex piece,
      f = .msgSlice s.epoch.toInt s.seq s.data.length firstIndex piece ∧
        IsPiece s.data firstIndex piece ∧ piece.length ≤ size := by
  intro f hf
  obtain ⟨out, hout, rfl⟩ := Option.map_eq_some_iff.mp h
  obtain ⟨entry, _, frames, hframes, hmem⟩ := mem_flatten_mapM hout hf
  exact makeSlices_pieces hframes f hmem

/-- A frame carries the byte at index `i` of message `seq`. -/
def Carries (f : LinkProtocol) (seq i : Nat) : Prop :=
  ∃ epoch seqLen firstIndex data, f = .msgSlice epoch seq seqLen firstIndex data ∧
    firstIndex ≤ i ∧ i < firstIndex + data.length

/-- The pieces tile `first ..= last` of `d`: each is at most `size` long and starts where the one
before it ends. -/
inductive Tiles (d : List UInt8) (size last : Nat) : Nat → List (Nat × List UInt8) → Prop where
  | done {first : Nat} {piece : List UInt8} (hpiece : IsPiece d first piece)
      (hsize : piece.length ≤ size) (hlast : first + piece.length = last + 1) :
      Tiles d size last first [(first, piece)]
  | more {first : Nat} {piece : List UInt8} {rest : List (Nat × List UInt8)}
      (hpiece : IsPiece d first piece) (hsize : piece.length ≤ size)
      (hrest : Tiles d size last (first + piece.length) rest) :
      Tiles d size last first ((first, piece) :: rest)

namespace Tiles

variable {d : List UInt8} {size last first : Nat} {pieces : List (Nat × List UInt8)}

private theorem piece (h : Tiles d size last first pieces) :
    ∀ p ∈ pieces, IsPiece d p.1 p.2 ∧ p.2.length ≤ size := by
  induction h with
  | done hpiece hsize _ => simpa using ⟨hpiece, hsize⟩
  | more hpiece hsize _ ih => simpa using ⟨⟨hpiece, hsize⟩, fun a b => ih (a, b)⟩

private theorem le (h : Tiles d size last first pieces) : first ≤ last := by
  induction h with
  | done hpiece _ hlast =>
      have := List.length_pos_of_ne_nil hpiece.1
      omega
  | more _ _ _ ih => omega

private theorem carried (h : Tiles d size last first pieces) (i : Nat) :
    (∃ p ∈ pieces, p.1 ≤ i ∧ i < p.1 + p.2.length) ↔ first ≤ i ∧ i ≤ last := by
  induction h with
  | done hpiece _ hlast =>
      simp only [List.mem_singleton, exists_eq_left]
      omega
  | more hpiece _ hrest ih =>
      have hle := hrest.le
      simp only [List.mem_cons, exists_eq_or_imp, ih]
      omega

private theorem ordered (h : Tiles d size last first pieces) :
    pieces.Pairwise fun p q => p.1 + p.2.length ≤ q.1 := by
  induction h with
  | done => simp
  | more hpiece _ hrest ih =>
      apply List.pairwise_cons.mpr
      refine ⟨?_, ih⟩
      intro q hq
      have hpos := List.length_pos_of_ne_nil (hrest.piece q hq).1.1
      exact ((hrest.carried q.1).mp ⟨q, hq, Nat.le_refl _, by omega⟩).1

theorem starts (h : Tiles d size last first pieces) {n : Nat} {q : Nat × List UInt8}
    (hq : pieces[n]? = some q) :
    (n = 0 ∧ q.1 = first) ∨ ∃ k p, n = k + 1 ∧ pieces[k]? = some p ∧ p.1 + p.2.length = q.1 := by
  induction h generalizing n with
  | done =>
      cases n with
      | zero =>
          cases hq
          exact Or.inl ⟨rfl, rfl⟩
      | succ n => cases hq
  | @more first piece rest hpiece _ hrest ih =>
      cases n with
      | zero =>
          cases hq
          exact Or.inl ⟨rfl, rfl⟩
      | succ n =>
          rcases ih hq with ⟨rfl, hfirst⟩ | ⟨k, p, rfl, hp, hend⟩
          · exact Or.inr ⟨0, (first, piece), rfl, rfl, hfirst.symm⟩
          · exact Or.inr ⟨k + 1, p, rfl, hp, hend⟩

end Tiles

/-- The frame that carries a piece. -/
def SliceManager.frame (s : SliceManager) (p : Nat × List UInt8) : LinkProtocol :=
  .msgSlice s.epoch.toInt s.seq s.data.length p.1 p.2

private theorem isPiece_take {d : List UInt8} {first n : Nat} (hn : 0 < n)
    (hlt : first + n ≤ d.length) :
    IsPiece d first ((d.drop first).take n) ∧ ((d.drop first).take n).length = n := by
  have hlen : ((d.drop first).take n).length = n := by
    rw [List.length_take, List.length_drop]
    omega
  refine ⟨⟨?_, List.take_prefix _ _⟩, hlen⟩
  intro hnil
  rw [hnil, List.length_nil] at hlen
  omega

private theorem sliceLoop_round (s : SliceManager) {size last fuel cursor : Nat}
    (hsize : 0 < size) (hlast : last < s.data.length) (hfit : last + size < 2 ^ 64)
    (hcur : cursor ≤ last) :
    sliceLoop s.data s.epoch s.seq size last (fuel + 1) cursor =
      if last < cursor + size then
        some [s.frame (cursor, (s.data.drop cursor).take (last + 1 - cursor))]
      else (sliceLoop s.data s.epoch s.seq size last fuel (cursor + size)).map
        (s.frame (cursor, (s.data.drop cursor).take size) :: ·) := by
  rw [sliceLoop, checkedAdd_of_lt (by omega), Option.bind_eq_bind, Option.bind_some,
    checkedSub_of_le (by omega), Option.bind_some, checkedSub_of_le (by omega), Option.bind_some]
  simp only [Option.bind_some]
  rw [if_neg (by omega), if_neg (by omega)]
  by_cases hdone : last < cursor + size
  · rw [if_pos hdone, if_pos hdone,
      show min (min (cursor + size - 1) last) (s.data.length - 1) = last by omega]
    rfl
  · rw [if_neg hdone, if_neg hdone, Option.map_eq_bind,
      show min (min (cursor + size - 1) last) (s.data.length - 1) + 1 - cursor = size by omega]
    rfl

private theorem sliceLoop_tiles (s : SliceManager) {size last : Nat} (hsize : 0 < size)
    (hlast : last < s.data.length) (hfit : last + size < 2 ^ 64) (fuel cursor : Nat)
    (hcur : cursor ≤ last) (hfuel : last - cursor < fuel) :
    ∃ pieces, sliceLoop s.data s.epoch s.seq size last fuel cursor = some (pieces.map s.frame) ∧
      Tiles s.data size last cursor pieces := by
  induction fuel generalizing cursor with
  | zero => omega
  | succ fuel ih =>
      rw [sliceLoop_round s hsize hlast hfit hcur]
      by_cases hdone : last < cursor + size
      · obtain ⟨hpiece, hlen⟩ := @isPiece_take s.data cursor (last + 1 - cursor) (by omega) (by omega)
        rw [if_pos hdone]
        exact ⟨_, rfl, .done hpiece (by omega) (by omega)⟩
      · obtain ⟨hpiece, hlen⟩ := @isPiece_take s.data cursor size hsize (by omega)
        obtain ⟨rest, hrest, htiles⟩ := ih (cursor + size) (by omega) (by omega)
        rw [if_neg hdone, hrest]
        refine ⟨(cursor, (s.data.drop cursor).take size) :: rest, rfl, ?_⟩
        apply Tiles.more hpiece (by omega)
        rw [hlen]
        exact htiles

namespace SliceManager

/-- A manager whose outstanding bytes are the single range `start ..= last` tiles it. -/
theorem getSlices_tiles {s : SliceManager} {start last size : Nat}
    (hone : s.slices.entries = [(start, last)]) (hle : start ≤ last)
    (hlast : last < s.data.length) (hsize : 0 < size) (hfit : last + size < 2 ^ 64) :
    ∃ pieces, s.getSlices size = some (pieces.map s.frame) ∧
      Tiles s.data size last start pieces := by
  obtain ⟨pieces, hpieces, htiles⟩ :=
    sliceLoop_tiles s hsize hlast hfit (last + 1 - start + 1) start hle (by omega)
  refine ⟨pieces, ?_, htiles⟩
  simp only [getSlices, hone, List.mapM_cons, List.mapM_nil, makeSlices,
    if_neg (show size ≠ 0 by omega), hpieces]
  simp

theorem getSlices_carries {s : SliceManager} {start last size : Nat}
    (hone : s.slices.entries = [(start, last)]) (hle : start ≤ last)
    (hlast : last < s.data.length) (hsize : 0 < size) (hfit : last + size < 2 ^ 64) :
    ∃ frames, s.getSlices size = some frames ∧
      ∀ i, start ≤ i → i ≤ last → ∃ f ∈ frames, Carries f s.seq i := by
  obtain ⟨pieces, hpieces, htiles⟩ := getSlices_tiles hone hle hlast hsize hfit
  refine ⟨_, hpieces, ?_⟩
  intro i hi hil
  obtain ⟨p, hp, hcarry⟩ := (htiles.carried i).mpr ⟨hi, hil⟩
  exact ⟨s.frame p, List.mem_map_of_mem hp, _, _, _, _, rfl, hcarry⟩

end SliceManager

/-- Taking `0 ..= last` out of a range that ends later leaves what follows, even bytes of a
range that started later. -/
theorem removeSlice_single {slices : SortedMap Nat Nat} {start fin last : Nat}
    (h : slices.entries = [(start, fin)]) (hpos : 0 < last) (hlt : last < fin) :
    (removeSlice slices 0 last).entries = [(last + 1, fin)] := by
  have hnext : slices.nextFrom 0 = some (start, fin) := by
    simp [SortedMap.nextFrom, SortedMap.rangeFrom, h]
  have hlen : slices.len = 1 := by simp [SortedMap.len, h]
  simp only [removeSlice_zero slices hpos, hlen, trim, hnext, if_neg (not_le.mpr hlt), if_pos hlt]
  simp [SortedMap.insert, SortedMap.erase, SortedMap.retain, h]

theorem removeSlice_all {slices : SortedMap Nat Nat} {start fin last : Nat}
    (h : slices.entries = [(start, fin)]) (hpos : 0 < last) (hle : fin ≤ last) :
    (removeSlice slices 0 last).entries = [] := by
  have hnext : slices.nextFrom 0 = some (start, fin) := by
    simp [SortedMap.nextFrom, SortedMap.rangeFrom, h]
  have hlen : slices.len = 1 := by simp [SortedMap.len, h]
  simp only [removeSlice_zero slices hpos, hlen, trim, hnext, if_pos hle, if_neg (not_lt.mpr hle)]
  simp [SortedMap.erase, SortedMap.retain, h]

private theorem removeSlice_nothing {slices : SortedMap Nat Nat} (h : slices.entries = [])
    (last : Nat) : (removeSlice slices 0 last).entries = [] := by
  have hlen : slices.len = 0 := by simp [SortedMap.len, h]
  rcases Nat.eq_zero_or_pos last with rfl | hpos
  · rw [removeSlice, if_pos rfl, h]
  · simp only [removeSlice_zero slices hpos, hlen, trim, h]

namespace SliceManager

/-- What acknowledgements can leave of a message: nothing, or the bytes from some index on. -/
def Suffix (s : SliceManager) : Prop :=
  s.slices.entries = [] ∨
    ∃ start < s.data.length, s.slices.entries = [(start, s.data.length - 1)]

theorem fromVec_suffix (epoch : Epoch) (seq : Nat) (data : List UInt8) :
    (fromVec epoch seq data).Suffix := by
  by_cases hdata : data = []
  · exact Or.inl (by simp [fromVec, hdata, SortedMap.empty])
  · refine Or.inr ⟨0, List.length_pos_of_ne_nil hdata, ?_⟩
    simp [fromVec, hdata, SortedMap.insert, SortedMap.empty]

theorem Suffix.ack {s : SliceManager} (h : s.Suffix) (epoch : Epoch) (seq lastIndex : Nat) :
    (s.ack epoch seq lastIndex).Suffix := by
  unfold SliceManager.ack
  split
  · exact h
  · rcases h with hnone | ⟨start, hlt, hone⟩
    · exact Or.inl (removeSlice_nothing hnone lastIndex)
    · by_cases hzero : lastIndex = 0
      · exact Or.inr ⟨start, hlt, by simp [removeSlice, hzero, hone]⟩
      by_cases hall : s.data.length - 1 ≤ lastIndex
      · exact Or.inl (removeSlice_all hone (by omega) hall)
      · have hleft := removeSlice_single hone (show 0 < lastIndex by omega) (by omega)
        have hin : lastIndex + 1 < s.data.length := by omega
        exact Or.inr ⟨lastIndex + 1, hin, hleft⟩

/-- Slicing what is left of a message of the size of a vector, for any link: the frames carry
pieces in order and apart, and together exactly the outstanding bytes. -/
theorem Suffix.getSlices {s : SliceManager} (h : s.Suffix) (hlen : s.data.length ≤ isizeMax)
    {size : Nat} (hpos : 1 ≤ size) (hsize : size < 2 ^ 32) :
    ∃ pieces : List (Nat × List UInt8), s.getSlices size = some (pieces.map s.frame) ∧
      (∀ p ∈ pieces, IsPiece s.data p.1 p.2 ∧ p.2.length ≤ size) ∧
      (pieces.Pairwise fun p q => p.1 + p.2.length ≤ q.1) ∧
      ∀ i, Covered s.slices i ↔ ∃ p ∈ pieces, p.1 ≤ i ∧ i < p.1 + p.2.length := by
  have hmax : isizeMax = 2 ^ 63 - 1 := rfl
  rcases h with hnone | ⟨start, hlt, hone⟩
  · refine ⟨[], by simp [SliceManager.getSlices, hnone], by simp, by simp, ?_⟩
    simp [Covered, SortedMap.get, hnone]
  · obtain ⟨pieces, hpieces, htiles⟩ :=
      getSlices_tiles hone (by omega) (by omega) hpos (by omega)
    refine ⟨pieces, hpieces, htiles.piece, htiles.ordered, ?_⟩
    intro i
    rw [htiles.carried i]
    simp [Covered, SortedMap.get, hone]

/-- The calls of `ack` one after another. -/
def acked (s : SliceManager) (acks : List (Epoch × Nat × Nat)) : SliceManager :=
  acks.foldl (fun s a => s.ack a.1 a.2.1 a.2.2) s

theorem acked_fields (s : SliceManager) (acks : List (Epoch × Nat × Nat)) :
    (s.acked acks).epoch = s.epoch ∧ (s.acked acks).seq = s.seq ∧
      (s.acked acks).data = s.data := by
  induction acks generalizing s with
  | nil => simp [acked]
  | cons a acks ih => simpa [acked] using ih (s.ack a.1 a.2.1 a.2.2)

theorem Suffix.acked {s : SliceManager} (h : s.Suffix) (acks : List (Epoch × Nat × Nat)) :
    (s.acked acks).Suffix := by
  induction acks generalizing s with
  | nil => exact h
  | cons a acks ih => exact ih (h.ack a.1 a.2.1 a.2.2)

/-- Slicing is exact: after any acknowledgements and for every size a link can ask for, the
frames carry the message's epoch, number and length and pieces of it that are not empty and at
most `size` long; the pieces follow one another without overlap, and they are exactly what is
outstanding. -/
theorem getSlices_partition (epoch : Epoch) (seq : Nat) (d : Payload)
    (acks : List (Epoch × Nat × Nat)) (size : Nat) (hpos : 1 ≤ size) (hsize : size < 2 ^ 32) :
    ∃ pieces : List (Nat × List UInt8),
      ((fromVec epoch seq d.bytes).acked acks).getSlices size =
        some (pieces.map fun p => .msgSlice epoch.toInt seq d.bytes.length p.1 p.2) ∧
      (∀ p ∈ pieces, IsPiece d.bytes p.1 p.2 ∧ p.2.length ≤ size) ∧
      (pieces.Pairwise fun p q => p.1 < q.1 ∧ p.1 + p.2.length ≤ q.1) ∧
      ∀ i, Covered ((fromVec epoch seq d.bytes).acked acks).slices i ↔
        ∃ p ∈ pieces, p.1 ≤ i ∧ i < p.1 + p.2.length := by
  obtain ⟨hepoch, hseq, hdata⟩ := acked_fields (fromVec epoch seq d.bytes) acks
  have hsuffix := (fromVec_suffix epoch seq d.bytes).acked acks
  have hlen : ((fromVec epoch seq d.bytes).acked acks).data.length ≤ isizeMax := by
    rw [hdata]
    exact d.small
  obtain ⟨pieces, hpieces, hpiece, hordered, hcovered⟩ := hsuffix.getSlices hlen hpos hsize
  rw [hdata] at hpiece
  refine ⟨pieces, ?_, hpiece, ?_, hcovered⟩
  · rw [hpieces]
    unfold frame
    rw [hepoch, hseq, hdata]
    rfl
  · apply hordered.imp_of_mem
    intro p q hp _ hpq
    have := List.length_pos_of_ne_nil (hpiece p hp).1.1
    exact ⟨by omega, hpq⟩

/-- Five bytes cut by two after the first two are acknowledged. -/
theorem getSlices_partition_five :
    ((fromVec Epoch.one 3 [1, 2, 3, 4, 5]).acked [(Epoch.one, 3, 1)]).getSlices 2 =
      some [.msgSlice 1 3 5 2 [3, 4], .msgSlice 1 3 5 4 [5]] ∧
    ∃ pieces : List (Nat × List UInt8),
      ((fromVec Epoch.one 3 [1, 2, 3, 4, 5]).acked [(Epoch.one, 3, 1)]).getSlices 2 =
        some (pieces.map fun p => .msgSlice Epoch.one.toInt 3 5 p.1 p.2) :=
  ⟨by decide, (getSlices_partition Epoch.one 3 ⟨[1, 2, 3, 4, 5], by decide⟩ [(Epoch.one, 3, 1)] 2
    (by decide) (by decide)).imp fun _ h => h.1⟩

end SliceManager

end LinkSet
