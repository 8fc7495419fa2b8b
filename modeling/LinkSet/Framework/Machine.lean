import Mathlib.Data.Nat.Digits.Defs
import Mathlib.Data.Nat.Digits.Lemmas

/-!
# Checked machine arithmetic and big-endian words

Unsigned 64-bit values are natural numbers. An addition or a subtraction whose result does
not fit fails, so a computation returns exactly when none of its steps overflows. A vector
never holds more than `isizeMax` bytes.
-/

namespace Framework

/-- The largest size of an allocated buffer. -/
def isizeMax : Nat := 2 ^ 63 - 1

def checkedAdd (a b : Nat) : Option Nat := if a + b < 2 ^ 64 then some (a + b) else none

def checkedSub (a b : Nat) : Option Nat := if b ≤ a then some (a - b) else none

theorem checkedAdd_eq_some {a b c : Nat} :
    checkedAdd a b = some c ↔ a + b < 2 ^ 64 ∧ c = a + b := by
  unfold checkedAdd
  split
  · next h => simp only [Option.some.injEq, h, true_and, eq_comm]
  · next h => simp only [reduceCtorEq, h, false_and]

theorem checkedAdd_eq_none {a b : Nat} : checkedAdd a b = none ↔ 2 ^ 64 ≤ a + b := by
  unfold checkedAdd
  split <;> simp_all

theorem checkedSub_eq_some {a b c : Nat} : checkedSub a b = some c ↔ b ≤ a ∧ c = a - b := by
  unfold checkedSub
  split
  · next h => simp only [Option.some.injEq, h, true_and, eq_comm]
  · next h => simp only [reduceCtorEq, h, false_and]

theorem checkedAdd_of_lt {a b : Nat} (h : a + b < 2 ^ 64) : checkedAdd a b = some (a + b) :=
  checkedAdd_eq_some.mpr ⟨h, rfl⟩

theorem checkedSub_of_le {a b : Nat} (h : b ≤ a) : checkedSub a b = some (a - b) :=
  checkedSub_eq_some.mpr ⟨h, rfl⟩

theorem except_bind_eq_ok {ε α β : Type} {x : Except ε α} {f : α → Except ε β} {b : β} :
    (x >>= f) = .ok b ↔ ∃ a, x = .ok a ∧ f a = .ok b := by
  cases x with
  | error e => simp [bind, Except.bind]
  | ok a => simp [bind, Except.bind]

/-- The `width` low bytes of `n`, most significant byte first. -/
def toBeBytes : Nat → Nat → List UInt8
  | 0, _ => []
  | width + 1, n => UInt8.ofNat (n / 256 ^ width % 256) :: toBeBytes width n

def fromBeBytes (bytes : List UInt8) : Nat :=
  Nat.ofDigits 256 (bytes.reverse.map UInt8.toNat)

theorem fromBeBytes_lt (bytes : List UInt8) : fromBeBytes bytes < 256 ^ bytes.length := by
  have h := Nat.ofDigits_lt_base_pow_length (b := 256) (l := bytes.reverse.map UInt8.toNat)
    (by omega) (by
      intro x hx
      obtain ⟨b, _, rfl⟩ := List.mem_map.mp hx
      exact b.toNat_lt)
  simpa [fromBeBytes] using h

@[simp]
theorem toBeBytes_length (width n : Nat) : (toBeBytes width n).length = width := by
  induction width with
  | zero => rfl
  | succ width ih => simp only [toBeBytes, List.length_cons, ih]

theorem fromBeBytes_cons (b : UInt8) (bytes : List UInt8) :
    fromBeBytes (b :: bytes) = b.toNat * 256 ^ bytes.length + fromBeBytes bytes := by
  simp only [fromBeBytes, List.reverse_cons, List.map_append, List.map_cons, List.map_nil,
    Nat.ofDigits_append, Nat.ofDigits_singleton, List.length_map, List.length_reverse]
  rw [Nat.mul_comm, Nat.add_comm]

theorem fromBeBytes_toBeBytes_mod (width n : Nat) :
    fromBeBytes (toBeBytes width n) = n % 256 ^ width := by
  induction width with
  | zero => simp [toBeBytes, fromBeBytes, Nat.mod_one]
  | succ width ih =>
      have hbyte : (UInt8.ofNat (n / 256 ^ width % 256)).toNat = n / 256 ^ width % 256 :=
        UInt8.toNat_ofNat_of_lt (Nat.mod_lt _ (by decide))
      rw [toBeBytes, fromBeBytes_cons, ih, hbyte, toBeBytes_length, Nat.pow_succ, Nat.mod_mul]
      rw [Nat.mul_comm, Nat.add_comm]

theorem fromBeBytes_toBeBytes {width n : Nat} (h : n < 256 ^ width) :
    fromBeBytes (toBeBytes width n) = n := by
  rw [fromBeBytes_toBeBytes_mod, Nat.mod_eq_of_lt h]

/-- Bytes above the width do not show in the word. -/
theorem toBeBytes_mul_add (width k n : Nat) :
    toBeBytes width (k * 256 ^ width + n) = toBeBytes width n := by
  suffices h : ∀ m ≤ width, toBeBytes m (k * 256 ^ width + n) = toBeBytes m n from
    h width le_rfl
  intro m
  induction m with
  | zero => simp [toBeBytes]
  | succ m ih =>
      intro hm
      have hpow : k * 256 ^ width = 256 ^ m * (256 * (k * 256 ^ (width - (m + 1)))) := by
        have hsplit : (256 : Nat) ^ width = 256 ^ m * 256 * 256 ^ (width - (m + 1)) := by
          rw [← Nat.pow_succ, ← Nat.pow_add]
          congr 1
          omega
        rw [hsplit]
        ring
      have hpos : 0 < 256 ^ m := Nat.pow_pos (by decide)
      rw [toBeBytes, toBeBytes, ih (by omega), hpow, Nat.mul_add_div hpos, Nat.mul_add_mod]

theorem toBeBytes_fromBeBytes (bytes : List UInt8) :
    toBeBytes bytes.length (fromBeBytes bytes) = bytes := by
  induction bytes with
  | nil => rfl
  | cons b bytes ih =>
      have hpos : 0 < 256 ^ bytes.length := Nat.pow_pos (by decide)
      have hhead : (b.toNat * 256 ^ bytes.length + fromBeBytes bytes) / 256 ^ bytes.length
          = b.toNat := by
        rw [Nat.mul_comm, Nat.mul_add_div hpos, Nat.div_eq_of_lt (fromBeBytes_lt bytes),
          Nat.add_zero]
      rw [List.length_cons, toBeBytes, fromBeBytes_cons, toBeBytes_mul_add, ih, hhead]
      rw [Nat.mod_eq_of_lt b.toNat_lt, UInt8.ofNat_toNat]

end Framework
