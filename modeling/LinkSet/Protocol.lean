import LinkSet.Epoch

/-!
# Link frames

The five frames two endpoints exchange and their wire format: a variant byte, then every
number as eight big-endian bytes.
-/

namespace LinkSet

open Framework

/-- `LinkProtocol`. Numbers are the `u64` fields of the source; `Fits` says so. -/
inductive LinkProtocol where
  | reset (epoch : Option Epoch) (request : Bool)
  | ack (epoch seq lastIndex : Nat)
  | msgSlice (epoch seq seqLen firstIndex : Nat) (data : List UInt8)
  | ping
  | pong
deriving DecidableEq

/-- The errors a decoder reports. -/
inductive DecodeError where
  | deserializeEOF
  | deserializeInvalid (variant : UInt8)
  | deserializeInvalidLen
deriving DecidableEq

namespace LinkProtocol

/-- Every number of the frame is a 64-bit one. -/
def Fits : LinkProtocol → Prop
  | .reset _ _ => True
  | .ack epoch seq lastIndex => epoch < 2 ^ 64 ∧ seq < 2 ^ 64 ∧ lastIndex < 2 ^ 64
  | .msgSlice epoch seq seqLen firstIndex data =>
      epoch < 2 ^ 64 ∧ seq < 2 ^ 64 ∧ seqLen < 2 ^ 64 ∧ firstIndex < 2 ^ 64 ∧
        data.length < 2 ^ 64
  | .ping => True
  | .pong => True

def serialize : LinkProtocol → List UInt8
  | .reset epoch request =>
      0 :: toBeBytes 8 (optEpochToInt epoch) ++ [if request then 1 else 0]
  | .ack epoch seq lastIndex =>
      1 :: toBeBytes 8 epoch ++ toBeBytes 8 seq ++ toBeBytes 8 lastIndex
  | .msgSlice epoch seq seqLen firstIndex data =>
      2 :: toBeBytes 8 epoch ++ toBeBytes 8 seq ++ toBeBytes 8 seqLen ++
        toBeBytes 8 firstIndex ++ toBeBytes 8 data.length ++ data
  | .ping => [3]
  | .pong => [4]

end LinkProtocol

/-- `read_exact` of eight bytes, then `u64::from_be_bytes`. -/
def readU64 (data : List UInt8) : Except DecodeError (Nat × List UInt8) :=
  if data.length < 8 then .error .deserializeEOF
  else .ok (fromBeBytes (data.take 8), data.drop 8)

def popFront : List UInt8 → Except DecodeError (UInt8 × List UInt8)
  | [] => .error .deserializeEOF
  | b :: data => .ok (b, data)

/-- The decoded frame and the bytes left unread. -/
def LinkProtocol.deserialize (data : List UInt8) :
    Except DecodeError (LinkProtocol × List UInt8) := do
  let (variant, data) ← popFront data
  if variant = 0 then
    let (epoch, data) ← readU64 data
    let (reply, data) ← popFront data
    return (.reset (Epoch.fromInt epoch) (reply ≠ 0), data)
  else if variant = 1 then
    let (epoch, data) ← readU64 data
    let (seq, data) ← readU64 data
    let (lastIndex, data) ← readU64 data
    return (.ack epoch seq lastIndex, data)
  else if variant = 2 then
    let (epoch, data) ← readU64 data
    let (seq, data) ← readU64 data
    let (seqLen, data) ← readU64 data
    let (firstIndex, data) ← readU64 data
    let (dataLen, data) ← readU64 data
    if dataLen = 0 then .error .deserializeInvalidLen
    else if data.length < dataLen then .error .deserializeEOF
    else return (.msgSlice epoch seq seqLen firstIndex (data.take dataLen), data.drop dataLen)
  else if variant = 3 then return (.ping, data)
  else if variant = 4 then return (.pong, data)
  else .error (.deserializeInvalid variant)

theorem readU64_eq_ok {data rest : List UInt8} {n : Nat} :
    readU64 data = .ok (n, rest) ↔
      8 ≤ data.length ∧ n = fromBeBytes (data.take 8) ∧ rest = data.drop 8 := by
  unfold readU64
  split
  · next h =>
      simp only [reduceCtorEq, false_iff]
      omega
  · next h =>
      simp only [Except.ok.injEq, Prod.mk.injEq, not_lt.mp h, true_and]
      constructor <;> rintro ⟨rfl, rfl⟩ <;> exact ⟨rfl, rfl⟩

theorem readU64_lt {data rest : List UInt8} {n : Nat} (h : readU64 data = .ok (n, rest)) :
    n < 2 ^ 64 := by
  obtain ⟨hlen, rfl, _⟩ := readU64_eq_ok.mp h
  have := fromBeBytes_lt (data.take 8)
  rw [List.length_take_of_le hlen] at this
  exact this

/-- The frame is what some bytes decode to. -/
def LinkProtocol.Decoded (msg : LinkProtocol) : Prop :=
  ∃ bytes rest, LinkProtocol.deserialize bytes = .ok (msg, rest)

end LinkSet
