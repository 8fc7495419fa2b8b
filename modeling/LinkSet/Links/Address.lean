import LinkSet.Framework.Base64
import LinkSet.Framework.Text
import LinkSet.Links.Connector
import LinkSet.Protocol

/-!
# The encodings of an address

An address has a compact encoding in bytes and one as text. Both put the scheme before the first
colon, so they can be undone exactly for schemes without one; everything after that colon may
contain any number of them.
-/

namespace LinkSet

open Framework

def colon : UInt8 := 58

def stringSymbol : UInt8 := 0

def bytesSymbol : UInt8 := 1

/-- `&l[i..j]`, which fails unless the range is inside the slice. -/
def slice (l : List UInt8) (i j : Nat) : Option (List UInt8) :=
  if i ≤ j ∧ j ≤ l.length then some ((l.take j).drop i) else none

structure AddressParseError where
deriving DecidableEq

/-- The symbol of the representation and what follows it. -/
def AddressRepr.tagged : AddressRepr → List UInt8
  | .string s => stringSymbol :: asBytes s
  | .bytes b => bytesSymbol :: b

namespace Address

def toBytes (a : Address) : List UInt8 := asBytes a.scheme ++ colon :: a.addr.tagged

/-- `none` stands for an index out of range. -/
def fromBytes (bytes : List UInt8) : Option (Except DecodeError Address) :=
  match bytes.idxOf? colon with
  | none => some (.error .deserializeEOF)
  | some delim =>
      if bytes.length < delim + 2 then some (.error .deserializeEOF)
      else do
        match fromUtf8 (← slice bytes 0 delim) with
        | none => return .error (.deserializeInvalid (← bytes[delim]?))
        | some scheme =>
            let symbol ← bytes[delim + 1]?
            let addrBytes ← slice bytes (delim + 2) bytes.length
            if symbol = stringSymbol then
              match fromUtf8 addrBytes with
              | none => return .error (.deserializeInvalid (← bytes[delim + 1]?))
              | some string => return .ok ⟨scheme, .string string⟩
            else if symbol = bytesSymbol then return .ok ⟨scheme, .bytes addrBytes⟩
            else return .error (.deserializeInvalid symbol)

variable (b64 : Base64)

/-- `Display for Address`. -/
def toString (a : Address) : String :=
  match a.addr with
  | .string addr => a.scheme ++ ":txt:" ++ addr
  | .bytes bytes => a.scheme ++ ":b64:" ++ b64.encode bytes

/-- `FromStr for Address`. -/
def parse (s : String) : Except AddressParseError Address :=
  match splitText ':' s with
  | none => .error ⟨⟩
  | some (scheme, remainder) =>
      match splitText ':' remainder with
      | some (repr, addr) =>
          if repr = "txt" then .ok ⟨scheme, .string addr⟩
          else if repr = "b64" then
            match b64.decode addr with
            | none => .error ⟨⟩
            | some decoded => .ok ⟨scheme, .bytes decoded⟩
          -- an unknown tag belongs to the text
          else .ok ⟨scheme, .string remainder⟩
      | none => .ok ⟨scheme, .string remainder⟩

/-- The part of `from_bytes` after the delimiter and the symbol have been found. -/
def decodeParts (head : List UInt8) (symbol : UInt8) (rest : List UInt8) :
    Except DecodeError Address :=
  match fromUtf8 head with
  | none => .error (.deserializeInvalid colon)
  | some scheme =>
      if symbol = stringSymbol then
        match fromUtf8 rest with
        | none => .error (.deserializeInvalid symbol)
        | some string => .ok ⟨scheme, .string string⟩
      else if symbol = bytesSymbol then .ok ⟨scheme, .bytes rest⟩
      else .error (.deserializeInvalid symbol)

theorem fromBytes_append {head rest : List UInt8} {symbol : UInt8} (h : colon ∉ head) :
    fromBytes (head ++ colon :: symbol :: rest) = some (decodeParts head symbol rest) := by
  have hlen : (head ++ colon :: symbol :: rest).length = head.length + 2 + rest.length := by
    simp only [List.length_append, List.length_cons]
    omega
  have hhead : slice (head ++ colon :: symbol :: rest) 0 head.length = some head := by
    simp [slice]
  have hrest : slice (head ++ colon :: symbol :: rest) (head.length + 2)
      (head ++ colon :: symbol :: rest).length = some rest := by
    rw [slice, if_pos (by omega), List.take_length, List.drop_append]
    simp
  have hcolon : (head ++ colon :: symbol :: rest)[head.length]? = some colon := by simp
  have hsymbol : (head ++ colon :: symbol :: rest)[head.length + 1]? = some symbol := by
    rw [List.getElem?_append_right (by omega)]
    simp
  unfold fromBytes decodeParts
  rw [idxOf?_append_cons h]
  simp only [hlen, hhead, hcolon, hsymbol, Option.bind_eq_bind, Option.bind_some]
  rw [if_neg (by omega)]
  rw [hlen] at hrest
  cases fromUtf8 head with
  | none => rfl
  | some scheme =>
      simp only [hrest, Option.bind_some]
      by_cases hstring : symbol = stringSymbol
      · simp only [if_pos hstring]
        cases fromUtf8 rest <;> rfl
      · simp only [if_neg hstring]
        by_cases hbytes : symbol = bytesSymbol
        · simp only [if_pos hbytes]
          rfl
        · simp only [if_neg hbytes]
          rfl

/-- `from_bytes` returns on every input: it finds a delimiter and a symbol after it, or it reports
the end of the input. -/
private theorem fromBytes_cases (bytes : List UInt8) :
    (∃ head symbol rest, colon ∉ head ∧ bytes = head ++ colon :: symbol :: rest ∧
      fromBytes bytes = some (decodeParts head symbol rest)) ∨
    fromBytes bytes = some (.error .deserializeEOF) := by
  cases hidx : bytes.idxOf? colon with
  | none =>
      apply Or.inr
      rw [fromBytes, hidx]
  | some delim =>
      by_cases hshort : bytes.length < delim + 2
      · apply Or.inr
        rw [fromBytes, hidx]
        exact if_pos hshort
      · apply Or.inl
        have hsplit : splitOnce colon bytes = some (bytes.take delim, bytes.drop (delim + 1)) := by
          rw [splitOnce_eq_idxOf?, hidx]
          rfl
        obtain ⟨hmem, heq⟩ := splitOnce_eq_some.mp hsplit
        rw [List.drop_eq_getElem_cons (show delim + 1 < bytes.length by omega)] at heq
        refine ⟨_, _, _, hmem, heq, ?_⟩
        rw [← fromBytes_append hmem, ← heq]

theorem decodeParts_eq_ok_iff {head rest : List UInt8} {symbol : UInt8} {a : Address} :
    decodeParts head symbol rest = .ok a ↔
      head = asBytes a.scheme ∧ symbol :: rest = a.addr.tagged := by
  constructor
  · intro h
    unfold decodeParts at h
    split at h
    · cases h
    · next scheme hhead =>
        split at h
        · next hsymbol =>
            split at h
            · cases h
            · next string hrest =>
                cases h
                simp [AddressRepr.tagged, hsymbol, fromUtf8_eq_some.mp hhead,
                  fromUtf8_eq_some.mp hrest]
        · split at h
          · next hsymbol =>
              cases h
              simp [AddressRepr.tagged, hsymbol, fromUtf8_eq_some.mp hhead]
          · cases h
  · intro h
    obtain ⟨scheme, addr⟩ := a
    obtain ⟨rfl, htagged⟩ := h
    cases addr with
    | string s =>
        simp only [AddressRepr.tagged, List.cons.injEq] at htagged
        simp [decodeParts, htagged]
    | bytes b =>
        simp only [AddressRepr.tagged, List.cons.injEq] at htagged
        simp [decodeParts, htagged, stringSymbol, bytesSymbol]

/-- What is decoded is what was encoded, and its scheme has no colon. -/
theorem fromBytes_eq_ok_iff {bytes : List UInt8} {a : Address} :
    fromBytes bytes = some (.ok a) ↔ colon ∉ asBytes a.scheme ∧ bytes = a.toBytes := by
  constructor
  · intro h
    rcases fromBytes_cases bytes with ⟨head, symbol, rest, hmem, heq, hparts⟩ | heof
    · rw [hparts, Option.some.injEq, decodeParts_eq_ok_iff] at h
      rw [h.1] at hmem
      exact ⟨hmem, by rw [heq, toBytes, ← h.1, ← h.2]⟩
    · rw [heof] at h
      cases h
  · intro h
    obtain ⟨hmem, rfl⟩ := h
    have htagged : ∃ symbol rest, a.addr.tagged = symbol :: rest := by
      cases a.addr <;> exact ⟨_, _, rfl⟩
    obtain ⟨symbol, rest, htagged⟩ := htagged
    rw [toBytes, htagged, fromBytes_append hmem, Option.some.injEq, decodeParts_eq_ok_iff]
    exact ⟨rfl, htagged.symm⟩

theorem colon_mem_iff (s : String) : colon ∈ asBytes s ↔ ':' ∈ s.toList :=
  mem_asBytes_iff (c := ':') (by decide)

variable {b64}

private theorem scheme_of_parse {s : String} {a : Address} (h : parse b64 s = .ok a) :
    ':' ∉ a.scheme.toList := by
  unfold parse at h
  split at h
  · cases h
  · next scheme remainder hsplit =>
      have hscheme := (splitText_eq_some.mp hsplit).1
      have hall : ∀ repr, (.ok ⟨scheme, repr⟩ : Except AddressParseError Address) = .ok a →
          ':' ∉ a.scheme.toList := by
        intro repr heq
        cases heq
        exact hscheme
      split at h
      · split at h
        · exact hall _ h
        · split at h
          · split at h
            · cases h
            · exact hall _ h
          · exact hall _ h
      · exact hall _ h

private theorem splitText_tag (scheme tag rest : String) (hscheme : ':' ∉ scheme.toList)
    (htag : ':' ∉ tag.toList) :
    splitText ':' (scheme ++ (":" ++ tag ++ ":") ++ rest) = some (scheme, tag ++ ":" ++ rest) ∧
      splitText ':' (tag ++ ":" ++ rest) = some (tag, rest) := by
  have hcolon : ":".toList = [':'] := by decide
  constructor
  · apply splitText_eq_some.mpr
    simp [hscheme, hcolon]
  · apply splitText_eq_some.mpr
    simp [htag, hcolon]

variable (b64)

private theorem parse_toString {a : Address} (h : ':' ∉ a.scheme.toList) :
    parse b64 (a.toString b64) = .ok a := by
  obtain ⟨scheme, addr⟩ := a
  cases addr with
  | string s =>
      have hsplit := splitText_tag scheme "txt" s h (by decide)
      simp only [parse, toString, show ":txt:" = ":" ++ "txt" ++ ":" by decide, hsplit, if_true]
  | bytes b =>
      have hsplit := splitText_tag scheme "b64" (b64.encode b) h (by decide)
      simp only [parse, toString, show ":b64:" = ":" ++ "b64" ++ ":" by decide, hsplit,
        b64.decode_encode]
      rw [if_neg (by decide), if_pos trivial]

/-- An address survives its compact encoding, and its text, exactly when its scheme has no colon;
among these no two share an encoding. -/
theorem round_trips_iff (a : Address) :
    (fromBytes a.toBytes = some (.ok a) ↔ ':' ∉ a.scheme.toList) ∧
    (parse b64 (a.toString b64) = .ok a ↔ ':' ∉ a.scheme.toList) ∧
    ∀ a' : Address, ':' ∉ a.scheme.toList → ':' ∉ a'.scheme.toList →
      a.toBytes = a'.toBytes ∨ a.toString b64 = a'.toString b64 → a = a' := by
  have hbytes : ∀ a : Address, fromBytes a.toBytes = some (.ok a) ↔ ':' ∉ a.scheme.toList := by
    intro a
    rw [fromBytes_eq_ok_iff, colon_mem_iff]
    exact and_iff_left rfl
  refine ⟨hbytes a, ⟨scheme_of_parse, parse_toString b64⟩, ?_⟩
  intro a' h h' hsame
  rcases hsame with hsame | hsame
  · have hback := (hbytes a).mpr h
    rw [hsame, (hbytes a').mpr h'] at hback
    cases hback
    rfl
  · have hback := parse_toString b64 h
    rw [hsame, parse_toString b64 h'] at hback
    cases hback
    rfl

/-- With a colon in the scheme the bytes are refused and the text is read as another address, and
either encoding can be that of another address. -/
theorem round_trips_fail_on_colon :
    fromBytes (toBytes ⟨"a:b", .string "x"⟩) = some (.error (.deserializeInvalid 98)) ∧
    parse .urlSafe (toString .urlSafe ⟨"a:b", .string "x"⟩) = .ok ⟨"a", .string "b:txt:x"⟩ ∧
    toBytes ⟨"a:\x00x", .string "y"⟩ = toBytes ⟨"a", .string "x:\x00y"⟩ ∧
    toString .urlSafe ⟨"a:txt:b", .string "x"⟩ = toString .urlSafe ⟨"a", .string "b:txt:x"⟩ := by
  refine ⟨?_, ?_, ?_, ?_⟩
  · decide
  · decide
  · decide
  · decide

/-- What either decoder accepts is decoded again from its own encodings, and from the very bytes
in the compact one. No input makes the decoder of bytes index out of range. -/
theorem decoded_is_canonical :
    (∀ bytes a, fromBytes bytes = some (.ok a) → a.toBytes = bytes) ∧
    (∀ s a, parse b64 s = .ok a →
      parse b64 (a.toString b64) = .ok a ∧ fromBytes a.toBytes = some (.ok a)) ∧
    ∀ bytes, fromBytes bytes ≠ none := by
  refine ⟨?_, ?_, ?_⟩
  · intro bytes a h
    exact (fromBytes_eq_ok_iff.mp h).2.symm
  · intro s a h
    have hscheme := scheme_of_parse h
    refine ⟨parse_toString b64 hscheme, fromBytes_eq_ok_iff.mpr ⟨?_, rfl⟩⟩
    rwa [colon_mem_iff]
  · intro bytes
    rcases fromBytes_cases bytes with ⟨head, symbol, rest, _, _, h⟩ | h
    · rw [h]
      exact Option.some_ne_none _
    · rw [h]
      exact Option.some_ne_none _

theorem decoded_is_canonical_spellings :
    toBytes ⟨"a", .bytes [7]⟩ = [97, 58, 1, 7] ∧
    parse .urlSafe (toString .urlSafe ⟨"a", .bytes [7]⟩) = .ok ⟨"a", .bytes [7]⟩ ∧
    parse .urlSafe (toString .urlSafe ⟨"a", .string "b:c"⟩) = .ok ⟨"a", .string "b:c"⟩ := by
  have hbytes : fromBytes [97, 58, 1, 7] = some (.ok ⟨"a", .bytes [7]⟩) :=
    fromBytes_eq_ok_iff.mpr ⟨by decide, by decide⟩
  have hb64 : parse .urlSafe "a:b64:Bw==" = .ok ⟨"a", .bytes [7]⟩ := by decide
  have huntagged : parse .urlSafe "a:b:c" = .ok ⟨"a", .string "b:c"⟩ := by decide
  exact ⟨(decoded_is_canonical .urlSafe).1 _ _ hbytes,
    ((decoded_is_canonical .urlSafe).2.1 _ _ hb64).1,
    ((decoded_is_canonical .urlSafe).2.1 _ _ huntagged).1⟩

end Address

end LinkSet
