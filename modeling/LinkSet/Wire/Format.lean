import LinkSet.Framework.Codec
import LinkSet.Protocol

/-!
# The wire format

`deserialize` reads exactly the encodings of frames. `serialize` gives one encoding of each
frame; a reset that asks for a reply has more, because the decoder takes every flag byte but
zero for `true`. A slice without data has an encoding that the decoder refuses.
-/

namespace LinkSet

open Framework

private theorem reads_popFront : Reads popFront (fun b w => w = [b]) := by
  intro data b rest
  cases data with
  | nil => simp [popFront]
  | cons c data =>
      simp only [popFront, Except.ok.injEq, Prod.mk.injEq, exists_eq_left, List.cons_append,
        List.nil_append, List.cons.injEq]

private theorem reads_readU64 : Reads readU64 (fun n w => n < 2 ^ 64 ∧ w = toBeBytes 8 n) := by
  intro data n rest
  constructor
  · intro h
    have hlt : n < 2 ^ 64 := readU64_lt h
    obtain ⟨hlen, hn, hrest⟩ := readU64_eq_ok.mp h
    have hword := toBeBytes_fromBeBytes (data.take 8)
    rw [List.length_take_of_le hlen, ← hn] at hword
    refine ⟨toBeBytes 8 n, ⟨hlt, rfl⟩, ?_⟩
    rw [hword, hrest, List.take_append_drop]
  · rintro ⟨w, ⟨hlt, rfl⟩, rfl⟩
    have hlen : (toBeBytes 8 n).length = 8 := toBeBytes_length 8 n
    refine readU64_eq_ok.mpr ⟨by simp, ?_, ?_⟩
    · rw [List.take_left' hlen, fromBeBytes_toBeBytes (by simpa using hlt)]
    · rw [List.drop_left' hlen]

private theorem reads_data (dataLen : Nat) (slice : List UInt8 → LinkProtocol) :
    Reads (fun data =>
        if dataLen = 0 then .error DecodeError.deserializeInvalidLen
        else if data.length < dataLen then .error DecodeError.deserializeEOF
        else .ok (slice (data.take dataLen), data.drop dataLen))
      (fun msg w => w ≠ [] ∧ w.length = dataLen ∧ msg = slice w) := by
  intro data msg rest
  simp only
  constructor
  · intro h
    split at h
    · cases h
    split at h
    · cases h
    · next hpos hlen =>
        cases h
        have htake : (data.take dataLen).length = dataLen := List.length_take_of_le (by omega)
        refine ⟨data.take dataLen, ⟨?_, htake, rfl⟩, (List.take_append_drop dataLen data).symm⟩
        exact List.ne_nil_of_length_pos (by omega)
  · rintro ⟨w, ⟨hne, rfl, rfl⟩, rfl⟩
    have hpos := List.length_pos_iff.mpr hne
    rw [if_neg (by omega), if_neg (by simp), List.take_left, List.drop_left]

namespace LinkProtocol

/-- The bytes a decoder takes for the frame. -/
def Encodes (msg : LinkProtocol) (bytes : List UInt8) : Prop :=
  bytes = msg.serialize ∨
    ∃ epoch flag, msg = .reset epoch true ∧ flag ≠ 0 ∧
      bytes = 0 :: toBeBytes 8 (optEpochToInt epoch) ++ [flag]

/-- The frame is not a slice without data. -/
def HasData : LinkProtocol → Prop
  | .msgSlice _ _ _ _ data => data ≠ []
  | _ => True

private theorem reads_reset :
    Reads (fun data => do
        let (epoch, data) ← readU64 data
        let (reply, data) ← popFront data
        return (LinkProtocol.reset (Epoch.fromInt epoch) (reply ≠ 0), data))
      (fun msg w => ∃ epoch flag, msg = .reset epoch (flag ≠ 0) ∧
        w = toBeBytes 8 (optEpochToInt epoch) ++ [flag]) := by
  refine (reads_readU64.bind fun n _ _ => reads_popFront.bind fun flag _ _ =>
    Reads.pure (LinkProtocol.reset (Epoch.fromInt n) (flag ≠ 0))).congr ?_
  intro msg w
  constructor
  · rintro ⟨n, _, _, ⟨hn, rfl⟩, ⟨flag, _, _, rfl, ⟨rfl, rfl⟩, rfl⟩, rfl⟩
    exact ⟨Epoch.fromInt n, flag, rfl, by simp [optEpochToInt_fromInt hn]⟩
  · rintro ⟨epoch, flag, rfl, rfl⟩
    have hint := optEpochToInt_injective (optEpochToInt_fromInt (optEpochToInt_lt epoch))
    exact ⟨_, _, _, ⟨optEpochToInt_lt epoch, rfl⟩,
      ⟨flag, _, [], rfl, ⟨by rw [hint], rfl⟩, rfl⟩, by simp⟩

private theorem reads_ack :
    Reads (fun data => do
        let (epoch, data) ← readU64 data
        let (seq, data) ← readU64 data
        let (lastIndex, data) ← readU64 data
        return (LinkProtocol.ack epoch seq lastIndex, data))
      (fun msg w => ∃ epoch seq lastIndex, msg = .ack epoch seq lastIndex ∧ msg.Fits ∧
        w = toBeBytes 8 epoch ++ toBeBytes 8 seq ++ toBeBytes 8 lastIndex) := by
  refine (reads_readU64.bind fun epoch _ _ => reads_readU64.bind fun seq _ _ =>
    reads_readU64.bind fun lastIndex _ _ =>
      Reads.pure (LinkProtocol.ack epoch seq lastIndex)).congr ?_
  intro msg w
  constructor
  · rintro ⟨e, _, _, ⟨he, rfl⟩, ⟨s, _, _, ⟨hs, rfl⟩, ⟨l, _, _, ⟨hl, rfl⟩, ⟨rfl, rfl⟩, rfl⟩,
      rfl⟩, rfl⟩
    exact ⟨e, s, l, rfl, ⟨he, hs, hl⟩, by simp⟩
  · rintro ⟨e, s, l, rfl, ⟨he, hs, hl⟩, rfl⟩
    exact ⟨e, _, _, ⟨he, rfl⟩, ⟨s, _, _, ⟨hs, rfl⟩, ⟨l, _, [], ⟨hl, rfl⟩, ⟨rfl, rfl⟩, rfl⟩,
      rfl⟩, by simp⟩

private theorem reads_msgSlice :
    Reads (fun data => do
        let (epoch, data) ← readU64 data
        let (seq, data) ← readU64 data
        let (seqLen, data) ← readU64 data
        let (firstIndex, data) ← readU64 data
        let (dataLen, data) ← readU64 data
        if dataLen = 0 then .error .deserializeInvalidLen
        else if data.length < dataLen then .error .deserializeEOF
        else
          return (LinkProtocol.msgSlice epoch seq seqLen firstIndex (data.take dataLen),
            data.drop dataLen))
      (fun msg w => ∃ epoch seq seqLen firstIndex data,
        msg = .msgSlice epoch seq seqLen firstIndex data ∧ msg.Fits ∧ data ≠ [] ∧
        w = toBeBytes 8 epoch ++ toBeBytes 8 seq ++ toBeBytes 8 seqLen ++
          toBeBytes 8 firstIndex ++ toBeBytes 8 data.length ++ data) := by
  refine (reads_readU64.bind fun epoch _ _ => reads_readU64.bind fun seq _ _ =>
    reads_readU64.bind fun seqLen _ _ => reads_readU64.bind fun firstIndex _ _ =>
      reads_readU64.bind fun dataLen _ _ =>
        reads_data dataLen (LinkProtocol.msgSlice epoch seq seqLen firstIndex)).congr ?_
  intro msg w
  constructor
  · rintro ⟨e, _, _, ⟨he, rfl⟩, ⟨s, _, _, ⟨hs, rfl⟩, ⟨l, _, _, ⟨hl, rfl⟩, ⟨f, _, _, ⟨hf, rfl⟩,
      ⟨n, _, data, ⟨hn, rfl⟩, ⟨hne, rfl, rfl⟩, rfl⟩, rfl⟩, rfl⟩, rfl⟩, rfl⟩
    exact ⟨e, s, l, f, data, rfl, ⟨he, hs, hl, hf, hn⟩, hne, by simp⟩
  · rintro ⟨e, s, l, f, data, rfl, ⟨he, hs, hl, hf, hn⟩, hne, rfl⟩
    exact ⟨e, _, _, ⟨he, rfl⟩, ⟨s, _, _, ⟨hs, rfl⟩, ⟨l, _, _, ⟨hl, rfl⟩, ⟨f, _, _, ⟨hf, rfl⟩,
      ⟨data.length, _, data, ⟨hn, rfl⟩, ⟨hne, rfl, rfl⟩, rfl⟩, rfl⟩, rfl⟩, rfl⟩, by simp⟩

/-- The decoder reads exactly the encodings of the frames that are not empty slices. -/
theorem reads_deserialize :
    Reads deserialize (fun msg w => msg.Fits ∧ msg.HasData ∧ msg.Encodes w) := by
  refine (reads_popFront.bind fun variant _ _ =>
    Reads.ite (variant = 0) (fun _ => reads_reset) fun _ =>
      Reads.ite (variant = 1) (fun _ => reads_ack) fun _ =>
        Reads.ite (variant = 2) (fun _ => reads_msgSlice) fun _ =>
          Reads.ite (variant = 3) (fun _ => Reads.pure ping) fun _ =>
            Reads.ite (variant = 4) (fun _ => Reads.pure pong) fun _ =>
              Reads.fail (DecodeError.deserializeInvalid variant)).congr ?_
  intro msg w
  constructor
  · rintro ⟨variant, _, v, rfl, hbody, rfl⟩
    split at hbody
    · next h =>
        obtain ⟨epoch, flag, rfl, rfl⟩ := hbody
        refine ⟨trivial, trivial, ?_⟩
        by_cases hflag : flag = 0
        · exact Or.inl (by simp [serialize, h, hflag])
        · exact Or.inr ⟨epoch, flag, by simp [hflag], hflag, by simp [h]⟩
    split at hbody
    · next h =>
        obtain ⟨e, s, l, rfl, hfits, rfl⟩ := hbody
        exact ⟨hfits, trivial, Or.inl (by simp [serialize, h])⟩
    split at hbody
    · next h =>
        obtain ⟨e, s, l, f, data, rfl, hfits, hne, rfl⟩ := hbody
        exact ⟨hfits, hne, Or.inl (by simp [serialize, h])⟩
    split at hbody
    · next h =>
        obtain ⟨rfl, rfl⟩ := hbody
        exact ⟨trivial, trivial, Or.inl (by simp [serialize, h])⟩
    split at hbody
    · next h =>
        obtain ⟨rfl, rfl⟩ := hbody
        exact ⟨trivial, trivial, Or.inl (by simp [serialize, h])⟩
    · exact hbody.elim
  · rintro ⟨hfits, hdata, rfl | ⟨epoch, flag, rfl, hflag, rfl⟩⟩
    · cases msg with
      | reset epoch request =>
          refine ⟨0, _, _, rfl, ⟨epoch, if request then 1 else 0, ?_, rfl⟩, rfl⟩
          cases request <;> rfl
      | ack e s l => exact ⟨1, _, _, rfl, ⟨e, s, l, rfl, hfits, rfl⟩, by simp [serialize]⟩
      | msgSlice e s l f data =>
          exact ⟨2, _, _, rfl, ⟨e, s, l, f, data, rfl, hfits, hdata, rfl⟩, by simp [serialize]⟩
      | ping => exact ⟨3, _, [], rfl, ⟨rfl, rfl⟩, rfl⟩
      | pong => exact ⟨4, _, [], rfl, ⟨rfl, rfl⟩, rfl⟩
    · exact ⟨0, _, _, rfl, ⟨epoch, flag, by simp [hflag], rfl⟩, rfl⟩

theorem deserialize_data_ne_nil {bytes rest data : List UInt8}
    {epoch seq seqLen firstIndex : Nat}
    (h : deserialize bytes = .ok (.msgSlice epoch seq seqLen firstIndex data, rest)) :
    data ≠ [] := by
  obtain ⟨w, ⟨_, hdata, _⟩, _⟩ := (reads_deserialize _ _ _).mp h
  exact hdata

private theorem Encodes.header_lt {msg : LinkProtocol} {w tail rest : List UInt8}
    (h : msg.Encodes w) (hdata : msg.HasData) (hvariant : w ++ tail = 2 :: rest) :
    41 < w.length := by
  rcases h with rfl | ⟨epoch, flag, rfl, -, rfl⟩
  · cases msg with
    | msgSlice e s l f data =>
        have hpos : 0 < data.length := List.length_pos_iff.mpr hdata
        simp only [serialize, List.length_append, List.length_cons, toBeBytes_length]
        omega
    | _ => simp [serialize] at hvariant
  · simp at hvariant

/-- The encoding of an empty slice is a slice header alone, too short for a slice with data. -/
private theorem emptySlice_refused {epoch seq seqLen firstIndex : Nat} {p : List UInt8}
    (hp : p <+: serialize (.msgSlice epoch seq seqLen firstIndex []))
    (x : LinkProtocol × List UInt8) : deserialize p ≠ .ok x := by
  intro hx
  obtain ⟨tail, htail⟩ := hp
  obtain ⟨w, ⟨_, hdata, hw⟩, rfl⟩ := (reads_deserialize p x.1 x.2).mp hx
  have hlen := congrArg List.length htail
  rw [List.append_assoc] at htail
  have hlong := hw.header_lt hdata htail
  simp only [serialize, List.length_append, List.length_cons, toBeBytes_length,
    List.length_nil] at hlen
  omega

/-- The wire format is exact. The decoder returns `msg` and leaves `rest` on an encoding of
`msg` followed by `rest` and on nothing else; what `serialize` writes is read back; and the
start of an encoding, also of a slice without data, does not decode. -/
theorem deserialize_exact :
    (∀ bytes msg rest, deserialize bytes = .ok (msg, rest) ↔
      msg.Fits ∧ msg.HasData ∧ ∃ w, msg.Encodes w ∧ bytes = w ++ rest) ∧
    (∀ (msg : LinkProtocol) (rest : List UInt8), msg.Fits → msg.HasData →
      deserialize (msg.serialize ++ rest) = .ok (msg, rest)) ∧
    (∀ (msg : LinkProtocol) (w p : List UInt8), msg.Fits → msg.Encodes w → p <+: w → p ≠ w →
      ∀ x, deserialize p ≠ .ok x) := by
  refine ⟨?_, ?_, ?_⟩
  · intro bytes msg rest
    rw [reads_deserialize bytes msg rest]
    simp only [and_assoc, exists_and_left]
  · intro msg rest hfits hdata
    exact reads_deserialize.ok_append ⟨hfits, hdata, Or.inl rfl⟩ rest
  · intro msg w p hfits hw hp hne
    by_cases hdata : msg.HasData
    · exact reads_deserialize.refuses_proper_prefixes ⟨hfits, hdata, hw⟩ hp hne
    · cases msg with
      | msgSlice epoch seq seqLen firstIndex data =>
          have hnil : data = [] := not_not.mp hdata
          rcases hw with rfl | ⟨_, _, hmsg, _⟩
          · rw [hnil] at hp
            exact emptySlice_refused hp
          · cases hmsg
      | _ => exact (hdata trivial).elim

end LinkProtocol

end LinkSet
