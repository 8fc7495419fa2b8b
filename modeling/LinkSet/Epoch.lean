import LinkSet.Framework.Machine

/-!
# Epochs

An epoch numbers one session of two endpoints. It is a non-zero 64-bit integer; the absent
epoch of an endpoint that never had a session is `none` and travels as zero.
-/

namespace LinkSet

open Framework

/-- `Epoch(NonZero<u64>)`. -/
structure Epoch where
  val : Nat
  pos : 0 < val
  lt : val < 2 ^ 64
deriving DecidableEq

namespace Epoch

def one : Epoch := ⟨1, by decide, by decide⟩

def fromInt (value : Nat) : Option Epoch :=
  if h : 0 < value ∧ value < 2 ^ 64 then some ⟨value, h.1, h.2⟩ else none

def toInt (e : Epoch) : Nat := e.val

/-- The last epoch, at which `increment` saturates. -/
def last : Epoch := ⟨2 ^ 64 - 1, by decide, by decide⟩

/-- `saturating_add(1)`. -/
def increment (e : Epoch) : Epoch :=
  if h : e.val + 1 < 2 ^ 64 then ⟨e.val + 1, by omega, h⟩ else e

theorem ext_val {a b : Epoch} (h : a.val = b.val) : a = b := by
  cases a
  cases b
  simpa using h

theorem le_increment (e : Epoch) : e.val ≤ e.increment.val := by
  unfold increment
  split <;> simp

theorem increment_val (e : Epoch) : e.increment.val = min (e.val + 1) (2 ^ 64 - 1) := by
  have := e.lt
  unfold increment
  split
  · change e.val + 1 = _
    omega
  · omega

theorem lt_increment_or_last (e : Epoch) : e.val < e.increment.val ∨ e = last := by
  have := e.lt
  rcases Nat.lt_or_ge (e.val + 1) (2 ^ 64) with h | h
  · left
    rw [increment_val]
    omega
  · right
    apply ext_val
    change e.val = 2 ^ 64 - 1
    omega

end Epoch

def optEpochToInt : Option Epoch → Nat
  | some epoch => epoch.toInt
  | none => 0

def optEpochIncrement (epoch : Option Epoch) : Option Epoch := epoch.map Epoch.increment

/-- An absent epoch compares below everything, another absent epoch included. -/
def compareEpochs : Option Epoch → Option Epoch → Ordering
  | some a, some b => compare a.val b.val
  | some _, none => .gt
  | none, _ => .lt

theorem optEpochToInt_injective {a b : Option Epoch} (h : optEpochToInt a = optEpochToInt b) :
    a = b := by
  cases a with
  | none =>
      cases b with
      | none => rfl
      | some b =>
          have := b.pos
          simp only [optEpochToInt, Epoch.toInt] at h
          omega
  | some a =>
      cases b with
      | none =>
          have := a.pos
          simp only [optEpochToInt, Epoch.toInt] at h
          omega
      | some b => rw [Epoch.ext_val h]

theorem optEpochToInt_lt (epoch : Option Epoch) : optEpochToInt epoch < 2 ^ 64 := by
  cases epoch with
  | none => simp [optEpochToInt]
  | some epoch => exact epoch.lt

theorem optEpochToInt_fromInt {n : Nat} (h : n < 2 ^ 64) :
    optEpochToInt (Epoch.fromInt n) = n := by
  unfold Epoch.fromInt
  split
  · rfl
  · simp only [optEpochToInt]
    omega

theorem le_optEpochIncrement (e : Option Epoch) :
    optEpochToInt e ≤ optEpochToInt (optEpochIncrement e) := by
  cases e with
  | none => exact Nat.le_refl _
  | some e => exact e.le_increment

theorem compareEpochs_eq_gt {a b : Option Epoch} :
    compareEpochs a b = .gt ↔ optEpochToInt b < optEpochToInt a := by
  cases a with
  | none => simp [compareEpochs, optEpochToInt]
  | some a =>
      cases b with
      | none => simpa [compareEpochs, optEpochToInt, Epoch.toInt] using a.pos
      | some b => simp [compareEpochs, optEpochToInt, Epoch.toInt, Nat.compare_eq_gt]

theorem compareEpochs_eq_eq {a b : Option Epoch} :
    compareEpochs a b = .eq ↔ a = b ∧ a ≠ none := by
  cases a with
  | none => simp [compareEpochs]
  | some a =>
      cases b with
      | none => simp [compareEpochs]
      | some b =>
          simp only [compareEpochs, Nat.compare_eq_eq, ne_eq, reduceCtorEq, not_false_eq_true,
            and_true, Option.some.injEq]
          exact ⟨Epoch.ext_val, congrArg Epoch.val⟩

theorem compareEpochs_eq_lt {a b : Option Epoch} :
    compareEpochs a b = .lt ↔ optEpochToInt a < optEpochToInt b ∨ (a = none ∧ b = none) := by
  cases a with
  | none =>
      cases b with
      | none => simp [compareEpochs]
      | some b => simpa [compareEpochs, optEpochToInt, Epoch.toInt] using b.pos
  | some a =>
      cases b with
      | none => simp [compareEpochs, optEpochToInt]
      | some b => simp [compareEpochs, optEpochToInt, Epoch.toInt, Nat.compare_eq_lt]

end LinkSet
