import LinkSet.Slices.Slicing

/-!
# Message managers

The `MessageManager` of a session numbers and keeps the outgoing messages until they are
acknowledged, reassembles the incoming ones, and releases them in order.
-/

namespace LinkSet

open Framework

structure MessageManager where
  epoch : Epoch
  outgoingSlices : SortedMap Nat SliceManager
  nextSeq : Nat
  incomingSlices : SortedMap Nat SliceManager
  lastAck : Nat × Nat

/-- The loop of `recv` over the entries from the received one on. -/
def catchUp : List (Nat × SliceManager) → Nat × Nat → Bool → Option ((Nat × Nat) × Bool)
  | [], lastAck, didChange => some (lastAck, didChange)
  | (seq, sliceMgr) :: rest, lastAck, didChange =>
      if seq ≠ lastAck.1 then some (lastAck, didChange)
      else do
        let full ← sliceMgr.isFull
        if full then
          let next ← checkedAdd seq 1
          catchUp rest (next, 0) true
        else
          let offset := sliceMgr.lastHeadIndex.getD 0
          return ((seq, offset), didChange || lastAck = (seq, offset))

namespace MessageManager

def new (epoch : Epoch) : MessageManager where
  epoch := epoch
  outgoingSlices := SortedMap.empty
  nextSeq := 0
  incomingSlices := SortedMap.empty
  lastAck := (0, 0)

def insertMsg (m : MessageManager) (data : List UInt8) : Option (Nat × MessageManager) := do
  let seq := m.nextSeq
  let nextSeq ← checkedAdd m.nextSeq 1
  let sliceMgr := SliceManager.fromVec m.epoch seq data
  return (seq, { m with nextSeq, outgoingSlices := m.outgoingSlices.insert seq sliceMgr })

def getOutgoingSlice (m : MessageManager) (seq : Nat) : Option SliceManager :=
  m.outgoingSlices.get seq

def getOutgoingSlices (m : MessageManager) : List SliceManager := m.outgoingSlices.values

def recvAck (m : MessageManager) (ack : Nat × Nat) : MessageManager :=
  let (seq, lastIndex) := ack
  let outgoing := m.outgoingSlices.retain fun s _ => seq ≤ s
  match outgoing.get seq with
  | none => { m with outgoingSlices := outgoing }
  | some sliceMgr =>
      let sliceMgr := sliceMgr.ack m.epoch seq lastIndex
      if sliceMgr.isEmpty then { m with outgoingSlices := outgoing.erase seq }
      else { m with outgoingSlices := outgoing.insert seq sliceMgr }

def recvInRange (m : MessageManager) (seq firstIndex seqLen : Nat) : Option Bool :=
  if seq < m.lastAck.1 then some false
  else if m.lastAck.1 < seq then some true
  else (checkedAdd firstIndex seqLen).map fun sum => m.lastAck.2 < sum

/-- The entry that `or_insert_with` yields. -/
def entryFor (m : MessageManager) (seq seqLen : Nat) : SliceManager :=
  (m.incomingSlices.get seq).getD (SliceManager.new m.epoch seq seqLen)

def recv (m : MessageManager) (seq firstIndex seqLen : Nat) (data : List UInt8) :
    Option (Bool × MessageManager) := do
  let inRange ← m.recvInRange seq firstIndex seqLen
  if inRange = false then return (true, m)
  else
    let sliceMgr ← (m.entryFor seq seqLen).recvSlice m.epoch seq firstIndex data
    let incoming := m.incomingSlices.insert seq sliceMgr
    if m.lastAck.1 < seq then return (false, { m with incomingSlices := incoming })
    else
      let (lastAck, didChange) ← catchUp (incoming.rangeFrom seq) m.lastAck false
      return (didChange, { m with incomingSlices := incoming, lastAck })

/-- Fails where `slice_mgr.data().unwrap()` does. -/
def takeRecvd (m : MessageManager) : Option (List (List UInt8) × MessageManager) := do
  let (slices, incoming) := m.incomingSlices.splitOff m.lastAck.1
  let ret ← slices.values.mapM fun sliceMgr => sliceMgr.fullData.join
  return (ret, { m with incomingSlices := incoming })

section recv

variable {m m' : MessageManager} {seq firstIndex seqLen : Nat} {data : List UInt8} {b : Bool}

theorem recv_below (h : seq < m.lastAck.1) :
    m.recv seq firstIndex seqLen data = some (true, m) := by
  unfold recv recvInRange
  rw [if_pos h]
  rfl

theorem recv_above (h : m.lastAck.1 < seq) :
    m.recv seq firstIndex seqLen data =
      ((m.entryFor seq seqLen).recvSlice m.epoch seq firstIndex data).map fun sliceMgr =>
        (false, { m with incomingSlices := m.incomingSlices.insert seq sliceMgr }) := by
  unfold recv recvInRange
  rw [if_neg (by omega), if_pos h, Option.bind_eq_bind, Option.bind_some, if_neg (by simp),
    Option.map_eq_bind]
  congr 1
  funext sliceMgr
  exact if_pos h

theorem recv_at (h : seq = m.lastAck.1) :
    m.recv seq firstIndex seqLen data =
      if 2 ^ 64 ≤ firstIndex + seqLen then none
      else if firstIndex + seqLen ≤ m.lastAck.2 then some (true, m)
      else ((m.entryFor seq seqLen).recvSlice m.epoch seq firstIndex data).bind fun sliceMgr =>
        (catchUp ((m.incomingSlices.insert seq sliceMgr).rangeFrom seq) m.lastAck false).map fun r =>
          (r.2, { m with incomingSlices := m.incomingSlices.insert seq sliceMgr, lastAck := r.1 }) := by
  unfold recv recvInRange
  rw [if_neg (by omega), if_neg (by omega)]
  by_cases hover : 2 ^ 64 ≤ firstIndex + seqLen
  · rw [checkedAdd_eq_none.mpr hover, if_pos hover]
    rfl
  rw [checkedAdd_of_lt (by omega), if_neg hover, Option.map_some, Option.bind_eq_bind,
    Option.bind_some]
  by_cases hout : firstIndex + seqLen ≤ m.lastAck.2
  · rw [if_pos (by simpa using hout), if_pos hout]
    rfl
  rw [if_neg (by simpa using hout), if_neg hout]
  congr 1
  funext sliceMgr
  rw [Option.map_eq_bind]
  exact if_neg (by omega)

theorem recv_cases (h : m.recv seq firstIndex seqLen data = some (b, m')) :
    (m' = m ∧ b = true ∧ (seq < m.lastAck.1 ∨
      (seq = m.lastAck.1 ∧ firstIndex + seqLen ≤ m.lastAck.2))) ∨
    (∃ sliceMgr, m.lastAck.1 < seq ∧ b = false ∧
      (m.entryFor seq seqLen).recvSlice m.epoch seq firstIndex data = some sliceMgr ∧
      m' = { m with incomingSlices := m.incomingSlices.insert seq sliceMgr }) ∨
    (∃ sliceMgr lastAck, seq = m.lastAck.1 ∧ m.lastAck.2 < firstIndex + seqLen ∧
      (m.entryFor seq seqLen).recvSlice m.epoch seq firstIndex data = some sliceMgr ∧
      catchUp ((m.incomingSlices.insert seq sliceMgr).rangeFrom seq) m.lastAck false =
        some (lastAck, b) ∧
      m' = { m with incomingSlices := m.incomingSlices.insert seq sliceMgr, lastAck }) := by
  rcases Nat.lt_trichotomy seq m.lastAck.1 with hlow | hat | hhigh
  · rw [recv_below hlow] at h
    obtain ⟨rfl, rfl⟩ := Prod.mk.inj (Option.some.inj h)
    exact Or.inl ⟨rfl, rfl, Or.inl hlow⟩
  · rw [recv_at hat] at h
    split at h
    · cases h
    split at h
    · next hout =>
        obtain ⟨rfl, rfl⟩ := Prod.mk.inj (Option.some.inj h)
        exact Or.inl ⟨rfl, rfl, Or.inr ⟨hat, hout⟩⟩
    · next hin =>
        obtain ⟨sliceMgr, hrecv, h⟩ := Option.bind_eq_some_iff.mp h
        obtain ⟨⟨lastAck, didChange⟩, hcatch, h⟩ := Option.map_eq_some_iff.mp h
        obtain ⟨rfl, rfl⟩ := Prod.mk.inj h
        exact Or.inr (Or.inr ⟨sliceMgr, lastAck, hat, by omega, hrecv, hcatch, rfl⟩)
  · rw [recv_above hhigh] at h
    obtain ⟨sliceMgr, hrecv, h⟩ := Option.map_eq_some_iff.mp h
    obtain ⟨rfl, rfl⟩ := Prod.mk.inj h
    exact Or.inr (Or.inl ⟨sliceMgr, hhigh, rfl, hrecv, rfl⟩)

end recv

theorem insertMsg_eq_some {m m' : MessageManager} {data : List UInt8} {seq : Nat} :
    m.insertMsg data = some (seq, m') ↔ m.nextSeq + 1 < 2 ^ 64 ∧ seq = m.nextSeq ∧
      m' = { m with
        nextSeq := m.nextSeq + 1
        outgoingSlices := m.outgoingSlices.insert m.nextSeq
          (SliceManager.fromVec m.epoch m.nextSeq data) } := by
  unfold insertMsg
  constructor
  · intro h
    obtain ⟨next, hnext, h⟩ := Option.bind_eq_some_iff.mp h
    obtain ⟨hlt, rfl⟩ := checkedAdd_eq_some.mp hnext
    obtain ⟨rfl, rfl⟩ := Prod.mk.inj (Option.some.inj h)
    exact ⟨hlt, rfl, rfl⟩
  · intro h
    obtain ⟨hlt, rfl, rfl⟩ := h
    rw [checkedAdd_of_lt hlt]
    rfl

theorem takeRecvd_eq_some {m m' : MessageManager} {out : List (List UInt8)} :
    m.takeRecvd = some (out, m') ↔
      (m.incomingSlices.splitOff m.lastAck.1).1.values.mapM (fun s => s.fullData.join) = some out ∧
      m' = { m with incomingSlices := (m.incomingSlices.splitOff m.lastAck.1).2 } := by
  unfold takeRecvd
  constructor
  · intro h
    obtain ⟨ret, hret, h⟩ := Option.bind_eq_some_iff.mp h
    obtain ⟨rfl, rfl⟩ := Prod.mk.inj (Option.some.inj h)
    exact ⟨hret, rfl⟩
  · intro h
    obtain ⟨hret, rfl⟩ := h
    simp only [hret]
    rfl

end MessageManager

end LinkSet
