import Mathlib.Data.String.Basic

/-!
# Base64

An engine is any pair of an encoder and a decoder that undoes it. The URL-safe alphabet with
canonical padding is one: three bytes are four digits of six bits.
-/

namespace Framework

structure Base64 where
  encode : List UInt8 → String
  decode : String → Option (List UInt8)
  decode_encode : ∀ bytes, decode (encode bytes) = some bytes

namespace Base64

/-- The digits of the URL-safe alphabet. -/
def digit (n : Nat) : Char :=
  if n < 26 then Char.ofNat (65 + n)
  else if n < 52 then Char.ofNat (71 + n)
  else if n < 62 then Char.ofNat (n - 4)
  else if n = 62 then '-'
  else '_'

def value (c : Char) : Option Nat :=
  if 65 ≤ c.toNat ∧ c.toNat ≤ 90 then some (c.toNat - 65)
  else if 97 ≤ c.toNat ∧ c.toNat ≤ 122 then some (c.toNat - 71)
  else if 48 ≤ c.toNat ∧ c.toNat ≤ 57 then some (c.toNat + 4)
  else if c = '-' then some 62
  else if c = '_' then some 63
  else none

theorem value_digit : ∀ n < 64, value (digit n) = some n := by decide

theorem digit_ne_pad : ∀ n < 64, digit n ≠ '=' := by decide

def encodeGroups : List UInt8 → List Char
  | [] => []
  | [a] => [digit (a.toNat / 4), digit (a.toNat % 4 * 16), '=', '=']
  | [a, b] =>
      [digit (a.toNat / 4), digit (a.toNat % 4 * 16 + b.toNat / 16), digit (b.toNat % 16 * 4), '=']
  | a :: b :: c :: rest =>
      digit (a.toNat / 4) :: digit (a.toNat % 4 * 16 + b.toNat / 16) ::
        digit (b.toNat % 16 * 4 + c.toNat / 64) :: digit (c.toNat % 64) :: encodeGroups rest

/-- Padding is allowed in the last group only, and the bits it cuts off are zero. -/
def decodeGroups : List Char → Option (List UInt8)
  | [] => some []
  | w :: x :: y :: z :: rest => do
      let p ← value w
      let q ← value x
      if rest = [] ∧ y = '=' ∧ z = '=' then
        if q % 16 = 0 then some [UInt8.ofNat (p * 4 + q / 16)] else none
      else
        let r ← value y
        if rest = [] ∧ z = '=' then
          if r % 4 = 0 then
            some [UInt8.ofNat (p * 4 + q / 16), UInt8.ofNat (q % 16 * 16 + r / 4)]
          else none
        else
          let s ← value z
          let bytes ← decodeGroups rest
          return UInt8.ofNat (p * 4 + q / 16) :: UInt8.ofNat (q % 16 * 16 + r / 4) ::
            UInt8.ofNat (r % 4 * 64 + s) :: bytes
  | _ => none

private theorem ofNat_eq {n : Nat} {a : UInt8} (h : n = a.toNat) : UInt8.ofNat n = a := by
  rw [h, UInt8.ofNat_toNat]

theorem decodeGroups_encodeGroups (bytes : List UInt8) :
    decodeGroups (encodeGroups bytes) = some bytes := by
  induction bytes using encodeGroups.induct with
  | case1 => rfl
  | case2 a =>
      have ha := a.toNat_lt
      have hbyte : UInt8.ofNat (a.toNat / 4 * 4 + a.toNat % 4 * 16 / 16) = a :=
        ofNat_eq (by omega)
      simp only [encodeGroups, decodeGroups, value_digit (a.toNat / 4) (by omega),
        value_digit (a.toNat % 4 * 16) (by omega), Option.bind_eq_bind, Option.bind_some, true_and,
        if_true, hbyte]
      rw [if_pos (by omega)]
  | case3 a b =>
      have ha := a.toNat_lt
      have hb := b.toNat_lt
      have hfirst : UInt8.ofNat (a.toNat / 4 * 4 + (a.toNat % 4 * 16 + b.toNat / 16) / 16) = a :=
        ofNat_eq (by omega)
      have hsecond : UInt8.ofNat ((a.toNat % 4 * 16 + b.toNat / 16) % 16 * 16 +
          b.toNat % 16 * 4 / 4) = b := ofNat_eq (by omega)
      simp only [encodeGroups, decodeGroups, value_digit (a.toNat / 4) (by omega),
        value_digit (a.toNat % 4 * 16 + b.toNat / 16) (by omega),
        value_digit (b.toNat % 16 * 4) (by omega), digit_ne_pad (b.toNat % 16 * 4) (by omega),
        Option.bind_eq_bind, Option.bind_some, false_and, and_false, if_false, and_self, if_true,
        hfirst, hsecond]
      rw [if_pos (by omega)]
  | case4 a b c rest ih =>
      have ha := a.toNat_lt
      have hb := b.toNat_lt
      have hc := c.toNat_lt
      have hfirst : UInt8.ofNat (a.toNat / 4 * 4 + (a.toNat % 4 * 16 + b.toNat / 16) / 16) = a :=
        ofNat_eq (by omega)
      have hsecond : UInt8.ofNat ((a.toNat % 4 * 16 + b.toNat / 16) % 16 * 16 +
          (b.toNat % 16 * 4 + c.toNat / 64) / 4) = b := ofNat_eq (by omega)
      have hthird : UInt8.ofNat ((b.toNat % 16 * 4 + c.toNat / 64) % 4 * 64 + c.toNat % 64) = c :=
        ofNat_eq (by omega)
      simp only [encodeGroups, decodeGroups, value_digit (a.toNat / 4) (by omega),
        value_digit (a.toNat % 4 * 16 + b.toNat / 16) (by omega),
        value_digit (b.toNat % 16 * 4 + c.toNat / 64) (by omega),
        value_digit (c.toNat % 64) (by omega), digit_ne_pad (c.toNat % 64) (by omega),
        Option.bind_eq_bind, Option.bind_some, and_false, if_false, ih, hfirst, hsecond, hthird]
      rfl

def urlSafe : Base64 where
  encode := fun bytes => String.ofList (encodeGroups bytes)
  decode := fun text => decodeGroups text.toList
  decode_encode := by
    intro bytes
    rw [String.toList_ofList, decodeGroups_encodeGroups]

example : encodeGroups [49, 57, 50, 46] = "MTkyLg==".toList := by decide

end Base64

end Framework
