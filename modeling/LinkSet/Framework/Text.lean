import Mathlib.Data.String.Basic

/-!
# Text and bytes

A string is its UTF-8 bytes together with the proof that they are valid, so decoding is
validation and undoes encoding in both directions. Splitting at the first occurrence of a
delimiter is characterised by the two parts.
-/

namespace Framework

def asBytes (s : String) : List UInt8 := s.toByteArray.data.toList

def fromUtf8 (bytes : List UInt8) : Option String := String.fromUTF8? ⟨bytes.toArray⟩

theorem fromUtf8_eq_some {bytes : List UInt8} {s : String} :
    fromUtf8 bytes = some s ↔ asBytes s = bytes := by
  unfold fromUtf8 String.fromUTF8? asBytes
  constructor
  · intro h
    split at h
    · obtain rfl := Option.some.inj h
      simp [String.fromUTF8]
    · cases h
  · intro h
    have harray : (⟨bytes.toArray⟩ : ByteArray) = s.toByteArray := by
      rw [← h, Array.toArray_toList]
    have hvalid : (⟨bytes.toArray⟩ : ByteArray).IsValidUTF8 := harray ▸ s.isValidUTF8
    rw [dif_pos hvalid, Option.some.injEq]
    apply String.toByteArray_inj.mp
    exact harray

@[simp] theorem fromUtf8_asBytes (s : String) : fromUtf8 (asBytes s) = some s :=
  fromUtf8_eq_some.mpr rfl

theorem asBytes_eq_flatMap (s : String) : asBytes s = s.toList.flatMap String.utf8EncodeChar := by
  rw [asBytes, ← String.utf8Encode_toList, List.utf8Encode]
  simp

private theorem mem_utf8EncodeChar {c x : Char} (hc : c.toNat < 128) :
    UInt8.ofNat c.toNat ∈ String.utf8EncodeChar x ↔ x = c := by
  have hx : x = c ↔ x.val.toNat = c.toNat := by
    rw [Char.ext_iff, ← UInt32.toNat_inj]
    rfl
  rw [hx]
  unfold String.utf8EncodeChar
  simp only
  split
  · simp only [List.mem_singleton, ← UInt8.toNat_inj, UInt8.toNat_ofNat']
    omega
  · split
    · simp only [List.mem_cons, List.not_mem_nil, or_false, ← UInt8.toNat_inj, UInt8.toNat_ofNat']
      omega
    · split
      · simp only [List.mem_cons, List.not_mem_nil, or_false, ← UInt8.toNat_inj,
          UInt8.toNat_ofNat']
        omega
      · simp only [List.mem_cons, List.not_mem_nil, or_false, ← UInt8.toNat_inj,
          UInt8.toNat_ofNat']
        omega

theorem mem_asBytes_iff {c : Char} (hc : c.toNat < 128) {s : String} :
    UInt8.ofNat c.toNat ∈ asBytes s ↔ c ∈ s.toList := by
  rw [asBytes_eq_flatMap, List.mem_flatMap]
  simp only [mem_utf8EncodeChar hc, exists_eq_right]

variable {α : Type} [DecidableEq α]

/-- The parts before and after the first delimiter. -/
def splitOnce (d : α) : List α → Option (List α × List α)
  | [] => none
  | x :: xs => if x = d then some ([], xs) else (splitOnce d xs).map fun p => (x :: p.1, p.2)

theorem splitOnce_eq_some {d : α} {l a b : List α} :
    splitOnce d l = some (a, b) ↔ d ∉ a ∧ l = a ++ d :: b := by
  induction l generalizing a with
  | nil => simp [splitOnce]
  | cons x l ih =>
      rw [splitOnce]
      by_cases hx : x = d
      · cases a with
        | nil => simp [hx]
        | cons y a =>
            simp only [hx, if_true, Option.some.injEq, Prod.mk.injEq, reduceCtorEq, false_and,
              List.mem_cons, not_or, List.cons_append, List.cons.injEq, false_iff, not_and]
            intro hy heq
            exact absurd heq hy.1
      · cases a with
        | nil => simp [hx]
        | cons y a =>
            simp only [hx, if_false, Option.map_eq_some_iff, Prod.exists, Prod.mk.injEq,
              List.cons.injEq, List.mem_cons, not_or, List.cons_append]
            constructor
            · rintro ⟨a', b', hsplit, ⟨rfl, rfl⟩, rfl⟩
              obtain ⟨hmem, hl⟩ := ih.mp hsplit
              exact ⟨⟨fun h => hx h.symm, hmem⟩, rfl, hl⟩
            · rintro ⟨⟨_, hmem⟩, rfl, hl⟩
              exact ⟨a, b, ih.mpr ⟨hmem, hl⟩, ⟨rfl, rfl⟩, rfl⟩

theorem splitOnce_eq_idxOf? (d : α) (l : List α) :
    splitOnce d l = (l.idxOf? d).map fun i => (l.take i, l.drop (i + 1)) := by
  induction l with
  | nil => rfl
  | cons x l ih =>
      rw [splitOnce, List.idxOf?_cons, ih]
      by_cases hx : x = d
      · simp [hx]
      · simp [hx, Function.comp_def]

theorem idxOf?_append_cons {d : α} {a b : List α} (h : d ∉ a) :
    (a ++ d :: b).idxOf? d = some a.length := by
  induction a with
  | nil => simp [List.idxOf?_cons]
  | cons x a ih =>
      simp only [List.mem_cons, not_or] at h
      simp [List.idxOf?_cons, Ne.symm h.1, ih h.2]

/-- `str::split_once`. -/
def splitText (d : Char) (s : String) : Option (String × String) :=
  (splitOnce d s.toList).map fun p => (String.ofList p.1, String.ofList p.2)

theorem splitText_eq_some {d : Char} {s a b : String} :
    splitText d s = some (a, b) ↔ d ∉ a.toList ∧ s.toList = a.toList ++ d :: b.toList := by
  unfold splitText
  rw [← splitOnce_eq_some]
  simp only [Option.map_eq_some_iff, Prod.exists, Prod.mk.injEq]
  constructor
  · rintro ⟨a', b', hsplit, rfl, rfl⟩
    simpa using hsplit
  · intro hsplit
    exact ⟨a.toList, b.toList, hsplit, by simp, by simp⟩

end Framework
