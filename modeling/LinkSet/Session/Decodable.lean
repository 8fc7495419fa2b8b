import LinkSet.Messages.Healing
import LinkSet.Session.Exchange
import LinkSet.Wire.Format

/-!
# What a core sends is read back by its peer

The decoder refuses a slice without data, and the encoder cuts no number to its 64 bits only
because every number fits. A core whose frames were decoded sends nothing else: the numbers of its
slices come from its own messages, and those of its acknowledgements from the slices it took.
-/

namespace LinkSet

open Framework Relation

/-- The frame is read back from its encoding. -/
def LinkProtocol.Readable (f : LinkProtocol) : Prop := f.Fits ∧ f.HasData

private theorem LinkProtocol.decoded_iff_readable {f : LinkProtocol} : f.Decoded ↔ f.Readable := by
  constructor
  · rintro ⟨bytes, rest, hdec⟩
    obtain ⟨_, ⟨hfits, hdata, _⟩, _⟩ := (reads_deserialize bytes f rest).mp hdec
    exact ⟨hfits, hdata⟩
  · rintro ⟨hfits, hdata⟩
    exact ⟨_, [], reads_deserialize.ok_append ⟨hfits, hdata, Or.inl rfl⟩ []⟩

/-- Every number a manager may put into a frame has 64 bits. -/
structure MessageManager.Encodable (m : MessageManager) : Prop where
  outgoing : ∀ k sm, m.outgoingSlices.get k = some sm → sm.seq < 2 ^ 64 ∧ sm.data.length < 2 ^ 64
  receiving : ∃ n, Receiving m n
  incoming : ∀ s sm, m.incomingSlices.get s = some sm → sm.data.length < 2 ^ 64

namespace MessageManager.Encodable

variable {m m' : MessageManager} {seq firstIndex seqLen : Nat} {data : List UInt8} {b : Bool}

private theorem new (epoch : Epoch) : (MessageManager.new epoch).Encodable where
  outgoing := by simp [MessageManager.new]
  receiving := ⟨0, receiving_new epoch⟩
  incoming := by simp [MessageManager.new]

private theorem insertMsg (h : m.Encodable) (hdata : data.length ≤ isizeMax)
    (hi : m.insertMsg data = some (seq, m')) : m'.Encodable := by
  obtain ⟨hlt, _, hm'⟩ := insertMsg_eq_some.mp hi
  obtain ⟨n, hrec⟩ := h.receiving
  have hmax : isizeMax < 2 ^ 64 := by decide
  have hout := insertMsg_outgoing h.outgoing hi
    ⟨Nat.lt_of_succ_lt hlt, Nat.lt_of_le_of_lt hdata hmax⟩
  subst hm'
  exact ⟨hout, ⟨n, hrec.congr rfl rfl rfl⟩, h.incoming⟩

private theorem recvAck (h : m.Encodable) (ack : Nat × Nat) : (m.recvAck ack).Encodable := by
  obtain ⟨n, hrec⟩ := h.receiving
  refine ⟨recvAck_outgoing h.outgoing ?_ ack, ⟨n, hrec.recvAck ack⟩, ?_⟩
  · intro sm epoch seq lastIndex hsm
    rw [SliceManager.ack_seq, SliceManager.ack_data]
    exact hsm
  · rw [(m.recvAck_fields ack).2.2.1]
    exact h.incoming

private theorem entryFor_lt (h : m.Encodable) (hlen : seqLen < 2 ^ 64) :
    (m.entryFor seq seqLen).data.length < 2 ^ 64 := by
  unfold entryFor
  cases hg : m.incomingSlices.get seq with
  | none => simpa [SliceManager.new] using hlen
  | some sm => exact h.incoming seq sm hg

private theorem recv (h : m.Encodable) (hdata : data ≠ []) (hlen : seqLen < 2 ^ 64)
    (hrecv : m.recv seq firstIndex seqLen data = some (b, m')) : m'.Encodable := by
  obtain ⟨n, hrec⟩ := h.receiving
  have hstored := hrec.recv_stored hdata hrecv
  refine ⟨?_, ⟨n, hrec.recv hrecv⟩, ?_⟩
  · rw [hstored.outgoing]
    exact h.outgoing
  · intro s sm hs
    rcases hstored.entry s sm hs with hold | ⟨_, _, hreceived⟩
    · exact h.incoming s sm hold
    · rw [hreceived.length]
      exact h.entryFor_lt hlen

private theorem takeRecvd (h : m.Encodable) {out : List (List UInt8)}
    (htake : m.takeRecvd = some (out, m')) : m'.Encodable := by
  obtain ⟨n, hrec⟩ := h.receiving
  have hreceiving := hrec.of_takeRecvd htake
  obtain ⟨_, rfl⟩ := takeRecvd_eq_some.mp htake
  refine ⟨h.outgoing, hreceiving, ?_⟩
  intro s sm hs
  rw [SortedMap.get_splitOff_snd, Option.ite_none_right_eq_some] at hs
  exact h.incoming s sm hs.2

private theorem lastAck_lt (h : m.Encodable) : m.lastAck.1 < 2 ^ 64 ∧ m.lastAck.2 < 2 ^ 64 := by
  obtain ⟨n, hrec⟩ := h.receiving
  refine ⟨hrec.fits, ?_⟩
  cases hs : m.incomingSlices.get m.lastAck.1 with
  | none =>
      rw [hrec.absent hs]
      exact Nat.two_pow_pos 64
  | some sm =>
      have hvalid := (hrec.entry _ sm hs).1
      have hhead : m.lastAck.2 < sm.data.length := by
        apply hrec.head_lt _ hvalid.nonempty
        intro sm' hsm'
        rw [Option.some.inj (hs.symm.trans hsm')]
      exact hhead.trans (h.incoming _ sm hs)

end MessageManager.Encodable

theorem guards_encodable : Guards LinkProtocol.Readable LinkProtocol.Readable (fun _ => True)
    MessageManager.Encodable where
  control := by
    intro id f hf
    cases f with
    | msgSlice _ _ _ _ _ => cases hf
    | ack _ _ _ => cases hf
    | _ => exact ⟨trivial, trivial⟩
  new := MessageManager.Encodable.new
  insertMsg := by
    intro m m' seq data _ hi h
    exact h.insertMsg data.small hi
  recvAck := by
    intro m ack h
    exact h.recvAck ack
  slices := by
    intro m k sm size protos h hget hslices f hf
    obtain ⟨firstIndex, piece, rfl, hpiece, _⟩ := SliceManager.getSlices_pieces hslices f hf
    obtain ⟨hseq, hlen⟩ := h.outgoing k sm hget
    have hle := hpiece.length_le
    exact ⟨⟨sm.epoch.lt, hseq, hlen, by omega, by omega⟩, hpiece.1⟩
  recv := by
    intro m m1 m2 seq seqLen firstIndex data b out e h hslice hrecv htake
    obtain ⟨⟨_, _, hlen, _, _⟩, hdata⟩ := hslice
    have hstored := h.recv hdata hlen hrecv
    exact ⟨⟨⟨e.lt, hstored.lastAck_lt⟩, trivial⟩, hstored.takeRecvd htake⟩

namespace Core

/-- Whatever is decoded from the links and whatever the user asks for, every frame that a core
sends is decoded by the peer to itself, and what follows it on the wire is left unread. -/
theorem sent_read_back (inputs : List (Nat × Event)) (core : Core)
    (hdec : ∀ now id msg, (now, .frame id msg) ∈ inputs → msg.Decoded)
    (hrun : run step start inputs = some core) (f : LinkProtocol)
    (hf : f ∈ sentFrames core.common.record) (rest : List UInt8) :
    LinkProtocol.deserialize (f.serialize ++ rest) = .ok (f, rest) := by
  have hkeep : ∀ (s : Core) i s',
      s.Orderly ∧ s.books.Guarded LinkProtocol.Readable MessageManager.Encodable →
      (∀ id f, i.2 = .frame id f → f.Readable) → s.step i = some s' →
      s'.Orderly ∧ s'.books.Guarded LinkProtocol.Readable MessageManager.Encodable := by
    intro s i s' hs hi hstep
    exact ⟨hs.1.step hstep, hs.2.chain guards_encodable hi (fun _ _ => trivial) (hs.1.dealt hstep).2⟩
  have hinputs : ∀ i ∈ inputs, ∀ id f, i.2 = .frame id f → f.Readable := by
    rintro ⟨now, _⟩ hmem id f rfl
    exact LinkProtocol.decoded_iff_readable.mp (hdec now id f hmem)
  have hall := run_invariant_of hkeep ⟨orderly_start, guarded_start _ _⟩
    (.of_forall_mem hinputs start) hrun
  obtain ⟨hfits, hdata⟩ := hall.2.sent f hf
  exact LinkProtocol.reads_deserialize.ok_append ⟨hfits, hdata, Or.inl rfl⟩ rest

/-- A message is sent, and half of one is taken twice, which acknowledges it. -/
private def sentAndHeard : List (Nat × Event) :=
  [(0, .command (.addLink steadyLink)), (0, .frame 0 (.reset (some Epoch.one) false)),
    (0, .command (.message ⟨[5, 9, 4], by decide⟩ none)), (0, .frame 0 (.msgSlice 1 0 4 0 [7, 7])),
    (0, .frame 0 (.msgSlice 1 0 4 0 [7, 7]))]

theorem sent_read_back_acknowledged :
    ∃ core, run step start sentAndHeard = some core ∧
      .ack 1 0 1 ∈ sentFrames core.common.record ∧
      ∀ rest, LinkProtocol.deserialize ((LinkProtocol.ack 1 0 1).serialize ++ rest) =
        .ok (.ack 1 0 1, rest) := by
  refine ⟨_, rfl, by decide, ?_⟩
  apply sent_read_back sentAndHeard _ _ rfl _ (by decide)
  intro now id msg hmem
  apply LinkProtocol.decoded_iff_readable.mpr
  simp only [sentAndHeard, List.mem_cons, Prod.mk.injEq, reduceCtorEq, and_false, false_or,
    Event.frame.injEq, List.not_mem_nil, or_false] at hmem
  have hslice : (LinkProtocol.msgSlice 1 0 4 0 [7, 7]).Readable :=
    ⟨⟨by decide, by decide, by decide, by decide, by decide⟩, List.cons_ne_nil _ _⟩
  rcases hmem with ⟨_, _, rfl⟩ | ⟨_, _, rfl⟩ | ⟨_, _, rfl⟩
  · exact ⟨trivial, trivial⟩
  · exact hslice
  · exact hslice

end Core

end LinkSet
