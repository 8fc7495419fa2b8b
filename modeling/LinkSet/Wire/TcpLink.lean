import LinkSet.Framework.Machine
import LinkSet.Framework.Run

/-!
# Chunks over a byte stream

A TCP link sends each chunk behind its length in four bytes. The receiver keeps the length it
has read and the bytes left over in a state that outlives a call, so a call may be dropped at
a read and made again. The receiver compares the chunk's length with the low 32 bits of the
buffer's length; the results below say when that matters.
-/

namespace LinkSet

open Framework

namespace TcpLink

def u32Max : Nat := 2 ^ 32 - 1

/-- The limit leaves room for the length of the chunk. -/
def maxSize : Nat := u32Max - 4

def writeChunk (data : List UInt8) : List UInt8 := toBeBytes 4 (data.length % 2 ^ 32) ++ data

/-- The `length` and `buffer` that calls of `recv_chunk` share. -/
structure Receiver where
  length : Option Nat
  buffer : List UInt8

/-- The two reads at which a call of `recv_chunk` waits; the second one has the chunk's
length in a local variable. -/
inductive Await where
  | length
  | data (len : Nat)
deriving DecidableEq

/-- How far a call of `recv_chunk` gets before it waits. -/
inductive Progress where
  | ready (data : List UInt8)
  | waits (wait : Await)
  | closed

/-- One round of the loop that waits for the data. -/
def takeData (len : Nat) (r : Receiver) : Progress × Receiver :=
  if len ≤ r.buffer.length % 2 ^ 32 then
    (.ready (r.buffer.take len), { length := none, buffer := r.buffer.drop len })
  else (.waits (.data len), r)

/-- One round of the loop that waits for the length. -/
def takeLength (r : Receiver) : Progress × Receiver :=
  if 4 ≤ r.buffer.length then
    let len := fromBeBytes (r.buffer.take 4)
    takeData len { length := some len, buffer := r.buffer.drop 4 }
  else (.waits .length, r)

/-- A call of `recv_chunk` up to its first read. -/
def recvChunk (r : Receiver) : Progress × Receiver :=
  match r.length with
  | some len => takeData len r
  | none => takeLength r

/-- A call goes on when its read returns `bytes`; none at all means that the peer closed. -/
def resume (wait : Await) (bytes : List UInt8) (r : Receiver) : Progress × Receiver :=
  if bytes.length = 0 then (.closed, r)
  else
    let r := { r with buffer := r.buffer ++ bytes }
    match wait with
    | .length => takeLength r
    | .data len => takeData len r

/-- A receiver with its socket: the bytes not read yet, the call that is waiting, and what
the calls have returned. -/
structure Socket where
  receiver : Receiver
  stream : List UInt8
  call : Option Await
  returned : List (List UInt8)

/-- A call is made, a read returns, or the waiting call is dropped. -/
inductive Event where
  | call
  | read (count : Nat)
  | abandon

namespace Socket

/-- The peer has written the chunks. -/
def start (chunks : List (List UInt8)) : Socket :=
  { receiver := { length := none, buffer := [] }, stream := chunks.flatMap writeChunk,
    call := none, returned := [] }

def progress (s : Socket) (p : Progress × Receiver) : Socket :=
  match p.1 with
  | .ready data => { s with receiver := p.2, call := none, returned := s.returned ++ [data] }
  | .waits wait => { s with receiver := p.2, call := some wait }
  | .closed => { s with receiver := p.2, call := none }

/-- A read of the 1024-byte array returns some of the bytes that are there, and nothing only
at the end of the stream. -/
def Readable (s : Socket) (count : Nat) : Prop :=
  count ≤ 1024 ∧ count ≤ s.stream.length ∧ (count = 0 → s.stream = [])

instance (s : Socket) (count : Nat) : Decidable (s.Readable count) := by
  unfold Readable
  infer_instance

def step (s : Socket) : Event → Option Socket
  | .call => if s.call = none then some (s.progress (recvChunk s.receiver)) else none
  | .read count =>
      match s.call with
      | none => none
      | some wait =>
          if s.Readable count then
            some ({ s with stream := s.stream.drop count }.progress
              (resume wait (s.stream.take count) s.receiver))
          else none
  | .abandon => if s.call = none then none else some { s with call := none }

/-- How many bytes of the chunks' encoding have been read. -/
def readSoFar (chunks : List (List UInt8)) (s : Socket) : Nat :=
  (chunks.flatMap writeChunk).length - s.stream.length

end Socket

/-- The chunks that lie completely in the first `count` bytes. -/
def arrived : List (List UInt8) → Nat → List (List UInt8)
  | [], _ => []
  | chunk :: chunks, count =>
      if (writeChunk chunk).length ≤ count then
        chunk :: arrived chunks (count - (writeChunk chunk).length)
      else []

@[simp]
theorem writeChunk_length (data : List UInt8) : (writeChunk data).length = 4 + data.length := by
  simp [writeChunk]

theorem arrived_append (sent rest : List (List UInt8)) (count : Nat) :
    arrived (sent ++ rest) ((sent.flatMap writeChunk).length + count) =
      sent ++ arrived rest count := by
  induction sent with
  | nil => simp
  | cons chunk sent ih =>
      have hle : (writeChunk chunk).length ≤
          ((chunk :: sent).flatMap writeChunk).length + count := by
        simp only [List.flatMap_cons, List.length_append]
        omega
      have hrest : ((chunk :: sent).flatMap writeChunk).length + count -
          (writeChunk chunk).length = (sent.flatMap writeChunk).length + count := by
        simp only [List.flatMap_cons, List.length_append]
        omega
      rw [List.cons_append, arrived, if_pos hle, hrest, ih, List.cons_append]

private theorem arrived_all (chunks : List (List UInt8)) :
    arrived chunks (chunks.flatMap writeChunk).length = chunks := by
  have h := arrived_append chunks [] 0
  simpa [arrived] using h

/-- The bytes from which the chunks of `rest` are still to be cut, given the length read so
far. -/
def Owed : Option Nat → List (List UInt8) → List UInt8 → Prop
  | none, rest, bytes => bytes = rest.flatMap writeChunk
  | some _, [], _ => False
  | some len, chunk :: rest, bytes =>
      len = chunk.length ∧ bytes = chunk ++ rest.flatMap writeChunk

/-- A call that waits for a length has fewer than four bytes; one that waits for data knows
the length that the receiver keeps. -/
def Await.Agrees (r : Receiver) : Await → Prop
  | .length => r.length = none ∧ r.buffer.length < 4
  | .data len => r.length = some len

/-- The calls have returned the chunks before `rest`, and the rest is still to come. -/
structure Cuts (chunks rest : List (List UInt8)) (s : Socket) : Prop where
  chunks_eq : chunks = s.returned ++ rest
  owed : Owed s.receiver.length rest (s.receiver.buffer ++ s.stream)
  agrees : ∀ wait, s.call = some wait → wait.Agrees s.receiver

section cuts

variable {chunks : List (List UInt8)} {s : Socket} {r : Receiver}

private theorem takeData_cuts {chunk : List UInt8} {rest : List (List UInt8)}
    (hchunks : chunks = s.returned ++ chunk :: rest) (hlength : r.length = some chunk.length)
    (hbytes : r.buffer ++ s.stream = chunk ++ rest.flatMap writeChunk) :
    ∃ rest', Cuts chunks rest' (s.progress (takeData chunk.length r)) := by
  unfold takeData
  split
  · next h =>
      have hle : chunk.length ≤ r.buffer.length := le_trans h (Nat.mod_le _ _)
      have htake : r.buffer.take chunk.length = chunk := by
        rw [← List.take_append_of_le_length hle, hbytes, List.take_left]
      have hdrop : r.buffer.drop chunk.length ++ s.stream = rest.flatMap writeChunk := by
        rw [← List.drop_append_of_le_length hle, hbytes, List.drop_left]
      refine ⟨rest, ?_, hdrop, ?_⟩
      · simp [Socket.progress, hchunks, htake]
      · simp [Socket.progress]
  · refine ⟨chunk :: rest, hchunks, ?_, ?_⟩
    · simp [Socket.progress, hlength, Owed, hbytes]
    · intro wait hwait
      cases hwait
      exact hlength

private theorem takeLength_cuts {rest : List (List UInt8)}
    (hsize : ∀ chunk ∈ chunks, chunk.length ≤ maxSize) (hchunks : chunks = s.returned ++ rest)
    (hlength : r.length = none) (hbytes : r.buffer ++ s.stream = rest.flatMap writeChunk) :
    ∃ rest', Cuts chunks rest' (s.progress (takeLength r)) := by
  unfold takeLength
  split
  · next h =>
      cases rest with
      | nil =>
          have := congrArg List.length hbytes
          simp only [List.length_append, List.flatMap_nil, List.length_nil] at this
          omega
      | cons chunk rest =>
          have hlt : chunk.length < 2 ^ 32 := by
            have := hsize chunk (by simp [hchunks])
            unfold maxSize u32Max at this
            omega
          simp only [List.flatMap_cons, writeChunk, List.append_assoc] at hbytes
          rw [Nat.mod_eq_of_lt hlt] at hbytes
          have hword : (toBeBytes 4 chunk.length).length = 4 := toBeBytes_length 4 _
          have htake : r.buffer.take 4 = toBeBytes 4 chunk.length := by
            rw [← List.take_append_of_le_length h, hbytes, List.take_left' hword]
          have hdrop : r.buffer.drop 4 ++ s.stream = chunk ++ rest.flatMap writeChunk := by
            rw [← List.drop_append_of_le_length h, hbytes, List.drop_left' hword]
          have hlen : fromBeBytes (r.buffer.take 4) = chunk.length := by
            rw [htake, fromBeBytes_toBeBytes (by simpa using hlt)]
          rw [hlen]
          exact takeData_cuts hchunks rfl hdrop
  · next h =>
      refine ⟨rest, hchunks, ?_, ?_⟩
      · simp [Socket.progress, hlength, Owed, hbytes]
      · intro wait hwait
        cases hwait
        exact ⟨hlength, not_le.mp h⟩

private theorem recvChunk_cuts {rest : List (List UInt8)}
    (hsize : ∀ chunk ∈ chunks, chunk.length ≤ maxSize) (h : Cuts chunks rest s) :
    ∃ rest', Cuts chunks rest' (s.progress (recvChunk s.receiver)) := by
  have howed := h.owed
  unfold recvChunk
  cases hlength : s.receiver.length with
  | none =>
      rw [hlength] at howed
      exact takeLength_cuts hsize h.chunks_eq hlength howed
  | some len =>
      rw [hlength] at howed
      cases rest with
      | nil => exact howed.elim
      | cons chunk rest =>
          obtain ⟨rfl, hbytes⟩ := howed
          exact takeData_cuts h.chunks_eq hlength hbytes

private theorem resume_cuts {rest : List (List UInt8)} {wait : Await} {count : Nat}
    (hsize : ∀ chunk ∈ chunks, chunk.length ≤ maxSize) (h : Cuts chunks rest s)
    (hcall : s.call = some wait) :
    ∃ rest', Cuts chunks rest' ({ s with stream := s.stream.drop count }.progress
      (resume wait (s.stream.take count) s.receiver)) := by
  have howed := h.owed
  have hagrees := h.agrees wait hcall
  have hjoin : s.receiver.buffer ++ s.stream.take count ++ s.stream.drop count =
      s.receiver.buffer ++ s.stream := by
    rw [List.append_assoc, List.take_append_drop]
  unfold resume
  split
  · next hnil =>
      have hstream := List.take_append_drop count s.stream
      rw [List.eq_nil_of_length_eq_zero hnil, List.nil_append] at hstream
      refine ⟨rest, h.chunks_eq, ?_, ?_⟩
      · simpa only [Socket.progress, hstream] using howed
      · simp [Socket.progress]
  · cases wait with
    | length =>
        rw [hagrees.1] at howed
        exact takeLength_cuts hsize h.chunks_eq hagrees.1 (hjoin.trans howed)
    | data len =>
        rw [show s.receiver.length = some len from hagrees] at howed
        cases rest with
        | nil => exact howed.elim
        | cons chunk rest =>
            obtain ⟨rfl, hbytes⟩ := howed
            exact takeData_cuts h.chunks_eq hagrees (hjoin.trans hbytes)

private theorem step_cuts {rest : List (List UInt8)} {event : Event} {s' : Socket}
    (hsize : ∀ chunk ∈ chunks, chunk.length ≤ maxSize) (h : Cuts chunks rest s)
    (hstep : s.step event = some s') : ∃ rest', Cuts chunks rest' s' := by
  cases event with
  | call =>
      simp only [Socket.step, Option.ite_none_right_eq_some, Option.some.injEq] at hstep
      rw [← hstep.2]
      exact recvChunk_cuts hsize h
  | read count =>
      cases hcall : s.call with
      | none => simp [Socket.step, hcall] at hstep
      | some wait =>
          simp only [Socket.step, hcall, Option.ite_none_right_eq_some, Option.some.injEq] at hstep
          rw [← hstep.2]
          exact resume_cuts hsize h hcall
  | abandon =>
      simp only [Socket.step, Option.ite_none_left_eq_some, Option.some.injEq] at hstep
      rw [← hstep.2]
      exact ⟨rest, h.chunks_eq, h.owed, by simp⟩

theorem start_cuts (chunks : List (List UInt8)) : Cuts chunks chunks (Socket.start chunks) :=
  ⟨rfl, rfl, by simp [Socket.start]⟩

end cuts

/-- The calls return the chunks in order, and a call waits only for a chunk that has not
arrived. -/
def Exact (chunks : List (List UInt8)) (s : Socket) : Prop :=
  s.returned <+: chunks ∧
    (s.call ≠ none → s.returned = arrived chunks (s.readSoFar chunks))

/-- In terms of the receiver: a call that waits for data lacks some of it. -/
theorem exact_iff {chunks rest : List (List UInt8)} {s : Socket} (h : Cuts chunks rest s) :
    Exact chunks s ↔
      ∀ len, s.call = some (.data len) → s.receiver.buffer.length < len := by
  have htotal : (chunks.flatMap writeChunk).length =
      (s.returned.flatMap writeChunk).length + (rest.flatMap writeChunk).length := by
    rw [h.chunks_eq, List.flatMap_append, List.length_append]
  have hprefix : s.returned <+: chunks := ⟨rest, h.chunks_eq.symm⟩
  have howed := h.owed
  cases hcall : s.call with
  | none => simp [Exact, hcall, hprefix]
  | some wait =>
      have hagrees := h.agrees wait hcall
      have hcut : ∀ count, s.readSoFar chunks = (s.returned.flatMap writeChunk).length + count →
          (Exact chunks s ↔ arrived rest count = []) := by
        intro count hcount
        have happ := arrived_append s.returned rest count
        rw [← h.chunks_eq, ← hcount] at happ
        simp [Exact, hcall, hprefix, happ]
      cases wait with
      | length =>
          rw [hagrees.1] at howed
          have hlen := congrArg List.length howed
          rw [List.length_append] at hlen
          rw [hcut s.receiver.buffer.length (by unfold Socket.readSoFar; omega)]
          have hfew := hagrees.2
          cases rest with
          | nil => simp [arrived]
          | cons chunk rest =>
              rw [arrived, writeChunk_length, if_neg (by omega)]
              simp
      | data len =>
          rw [show s.receiver.length = some len from hagrees] at howed
          cases rest with
          | nil => exact howed.elim
          | cons chunk rest =>
              obtain ⟨rfl, hbytes⟩ := howed
              have hlen := congrArg List.length hbytes
              simp only [List.length_append] at hlen
              simp only [List.flatMap_cons, List.length_append, writeChunk_length] at htotal
              rw [hcut (4 + s.receiver.buffer.length) (by unfold Socket.readSoFar; omega)]
              rw [arrived, writeChunk_length]
              simp

/-- A call that waits for data lacks some of it. -/
def Lacking (p : Progress × Receiver) : Prop :=
  ∀ len, p.1 = .waits (.data len) → p.2.buffer.length < len

/-- Below 2^32 bytes the comparison of the receiver is the one of the lengths. -/
private theorem takeData_lacking {len : Nat} {r : Receiver} (h : r.buffer.length < 2 ^ 32) :
    Lacking (takeData len r) := by
  intro len' hwaits
  unfold takeData at hwaits ⊢
  rw [Nat.mod_eq_of_lt h] at hwaits ⊢
  split at hwaits
  · cases hwaits
  · next hlt =>
      cases hwaits
      simpa only [hlt, if_false] using not_le.mp hlt

private theorem takeLength_lacking {r : Receiver} (h : r.buffer.length < 2 ^ 32) :
    Lacking (takeLength r) := by
  unfold takeLength
  split
  · apply takeData_lacking
    simp only [List.length_drop]
    omega
  · intro len hwaits
    cases hwaits

private theorem recvChunk_lacking {r : Receiver} (h : r.buffer.length < 2 ^ 32) :
    Lacking (recvChunk r) := by
  unfold recvChunk
  split
  · exact takeData_lacking h
  · exact takeLength_lacking h

/-- The read that fills the buffer beyond 2^32 bytes hides the chunk it completes. -/
theorem resume_lacking_iff {wait : Await} {bytes : List UInt8} {r : Receiver}
    (hagrees : wait.Agrees r) (hbytes : bytes.length ≤ 1024)
    (hlacks : ∀ len, wait = .data len → r.buffer.length < len ∧ len ≤ maxSize) :
    Lacking (resume wait bytes r) ↔ r.buffer.length + bytes.length < 2 ^ 32 := by
  have hmax : maxSize < 2 ^ 32 := by decide
  have hlen : (r.buffer ++ bytes).length = r.buffer.length + bytes.length := List.length_append
  unfold resume
  cases wait with
  | length =>
      have hfew := hagrees.2
      refine iff_of_true ?_ (by omega)
      split
      · intro len hwaits
        cases hwaits
      · exact takeLength_lacking (by rw [hlen]; omega)
  | data len =>
      obtain ⟨hlt, hle⟩ := hlacks len rfl
      split
      · refine iff_of_true ?_ (by omega)
        intro len' hwaits
        cases hwaits
      · constructor
        · intro hlacking
          by_contra hlong
          have hmod : ¬len ≤ (r.buffer ++ bytes).length % 2 ^ 32 := by
            rw [hlen]
            omega
          have := hlacking len (by simp only [takeData, hmod, if_false])
          simp only [takeData, hmod, if_false] at this
          omega
        · intro hshort
          exact takeData_lacking (by rw [hlen]; exact hshort)

private theorem takeData_shrinks (len : Nat) (r : Receiver) :
    (takeData len r).2.buffer.length ≤ r.buffer.length := by
  unfold takeData
  split <;> simp

private theorem takeLength_shrinks (r : Receiver) :
    (takeLength r).2.buffer.length ≤ r.buffer.length := by
  unfold takeLength
  split
  · exact le_trans (takeData_shrinks _ _) (by simp)
  · simp

private theorem recvChunk_shrinks (r : Receiver) :
    (recvChunk r).2.buffer.length ≤ r.buffer.length := by
  unfold recvChunk
  split
  · exact takeData_shrinks _ r
  · exact takeLength_shrinks r

private theorem resume_grows (wait : Await) (bytes : List UInt8) (r : Receiver) :
    (resume wait bytes r).2.buffer.length ≤ r.buffer.length + bytes.length := by
  unfold resume
  split
  · simp
  · rw [← List.length_append]
    cases wait with
    | length => exact takeLength_shrinks _
    | data len => exact takeData_shrinks len _

@[simp]
theorem progress_receiver (s : Socket) (p : Progress × Receiver) :
    (s.progress p).receiver = p.2 := by
  unfold Socket.progress
  split <;> rfl

private theorem progress_lacking (s : Socket) (p : Progress × Receiver) :
    (∀ len, (s.progress p).call = some (.data len) →
      (s.progress p).receiver.buffer.length < len) ↔ Lacking p := by
  rw [progress_receiver]
  unfold Lacking Socket.progress
  split <;> next h => simp [h]

/-- A read that happens leaves the buffer below 2^32 bytes. -/
def Bounded (s : Socket) : Event → Prop
  | .read count => s.call ≠ none → s.Readable count →
      s.receiver.buffer.length + count < 2 ^ 32
  | _ => True

instance (s : Socket) (event : Event) : Decidable (Bounded s event) := by
  cases event <;> unfold Bounded <;> infer_instance

/-- What holds as long as every read is bounded. -/
def Regular (chunks : List (List UInt8)) (s : Socket) : Prop :=
  (∃ rest, Cuts chunks rest s) ∧ s.receiver.buffer.length < 2 ^ 32

section steps

variable {chunks : List (List UInt8)} (hsize : ∀ chunk ∈ chunks, chunk.length ≤ maxSize)
include hsize

private theorem Cuts.len_le {rest : List (List UInt8)} {s : Socket} (h : Cuts chunks rest s)
    {len : Nat} (hlength : s.receiver.length = some len) : len ≤ maxSize := by
  have howed := h.owed
  rw [hlength] at howed
  cases rest with
  | nil => exact howed.elim
  | cons chunk rest =>
      rw [howed.1]
      exact hsize chunk (by simp [h.chunks_eq])

theorem exact_step_iff (s : Socket) (event : Event) (s' : Socket) (h : Regular chunks s)
    (hexact : Exact chunks s) (hstep : s.step event = some s') :
    Exact chunks s' ↔ Bounded s event := by
  obtain ⟨⟨rest, hcuts⟩, hbuffer⟩ := h
  obtain ⟨rest', hcuts'⟩ := step_cuts hsize hcuts hstep
  rw [exact_iff hcuts']
  cases event with
  | call =>
      simp only [Socket.step, Option.ite_none_right_eq_some, Option.some.injEq] at hstep
      rw [← hstep.2, progress_lacking]
      exact iff_of_true (recvChunk_lacking hbuffer) trivial
  | read count =>
      cases hcall : s.call with
      | none => simp [Socket.step, hcall] at hstep
      | some wait =>
          simp only [Socket.step, hcall, Option.ite_none_right_eq_some, Option.some.injEq] at hstep
          have hagrees := hcuts.agrees wait hcall
          have hcount : (s.stream.take count).length = count :=
            List.length_take_of_le hstep.1.2.1
          rw [← hstep.2, progress_lacking,
            resume_lacking_iff hagrees (by rw [hcount]; exact hstep.1.1), hcount]
          · simp [Bounded, hcall, hstep.1]
          · rintro len rfl
            exact ⟨(exact_iff hcuts).mp hexact len hcall, hcuts.len_le hsize hagrees⟩
  | abandon =>
      simp only [Socket.step, Option.ite_none_left_eq_some, Option.some.injEq] at hstep
      simp [← hstep.2, Bounded]

theorem regular_step (s : Socket) (event : Event) (s' : Socket) (h : Regular chunks s)
    (hbounded : Bounded s event) (hstep : s.step event = some s') : Regular chunks s' := by
  obtain ⟨⟨rest, hcuts⟩, hbuffer⟩ := h
  refine ⟨step_cuts hsize hcuts hstep, ?_⟩
  cases event with
  | call =>
      simp only [Socket.step, Option.ite_none_right_eq_some, Option.some.injEq] at hstep
      rw [← hstep.2, progress_receiver]
      exact lt_of_le_of_lt (recvChunk_shrinks s.receiver) hbuffer
  | read count =>
      cases hcall : s.call with
      | none => simp [Socket.step, hcall] at hstep
      | some wait =>
          simp only [Socket.step, hcall, Option.ite_none_right_eq_some, Option.some.injEq] at hstep
          have hcount : (s.stream.take count).length = count :=
            List.length_take_of_le hstep.1.2.1
          rw [← hstep.2, progress_receiver]
          refine lt_of_le_of_lt (resume_grows wait _ s.receiver) ?_
          rw [hcount]
          exact hbounded (by simp [hcall]) hstep.1
  | abandon =>
      simp only [Socket.step, Option.ite_none_left_eq_some, Option.some.injEq] at hstep
      rw [← hstep.2]
      exact hbuffer

end steps

private theorem bounded_of_stuck (s : Socket) (event : Event) (hstuck : s.step event = none) :
    Bounded s event := by
  cases event with
  | call => trivial
  | read count =>
      intro hcall hread
      obtain ⟨wait, hwait⟩ := Option.ne_none_iff_exists'.mp hcall
      simp [Socket.step, hwait, hread] at hstuck
  | abandon => trivial

theorem Exact.returned_eq {chunks : List (List UInt8)} {s : Socket} (h : Exact chunks s)
    (hcall : s.call ≠ none) (hstream : s.stream = []) : s.returned = chunks := by
  have harrived := h.2 hcall
  rw [Socket.readSoFar, hstream, List.length_nil, Nat.sub_zero, arrived_all] at harrived
  exact harrived

/-- For all chunks that fit, and all sequences of calls, reads and dropped calls: the calls
return the chunks in order, none later than the read that completes it, exactly when every
read leaves the receiver with fewer than 2^32 bytes. The calls have then returned all chunks
when the stream is read to its end. -/
theorem returns_chunks_iff_bounded (chunks : List (List UInt8))
    (hsize : ∀ chunk ∈ chunks, chunk.length ≤ maxSize) (events : List Event) :
    (AllReached Socket.step (Exact chunks) (Socket.start chunks) events ↔
      AllSteps Socket.step Bounded (Socket.start chunks) events) ∧
    (AllSteps Socket.step Bounded (Socket.start chunks) events →
      ∀ s, run Socket.step (Socket.start chunks) events = some s →
        s.call ≠ none → s.stream = [] → s.returned = chunks) := by
  have hregular : Regular chunks (Socket.start chunks) :=
    ⟨⟨chunks, start_cuts chunks⟩, by simp [Socket.start]⟩
  have hexact : Exact chunks (Socket.start chunks) :=
    (exact_iff (start_cuts chunks)).mpr (by simp [Socket.start])
  constructor
  · refine allReached_iff_allSteps (exact_step_iff hsize) ?_ ?_ events hregular hexact
    · intro s event s' h _ hbounded hstep
      exact regular_step hsize s event s' h hbounded hstep
    · intro s event _ _ hstuck
      exact bounded_of_stuck s event hstuck
  · intro hbounded s hrun hcall hstream
    have hstep : ∀ s event s', (Regular chunks s ∧ Exact chunks s) → Bounded s event →
        s.step event = some s' → Regular chunks s' ∧ Exact chunks s' := by
      intro s event s' h hb hs'
      exact ⟨regular_step hsize s event s' h.1 hb hs',
        (exact_step_iff hsize s event s' h.1 h.2 hs').mpr hb⟩
    have hfinal := run_invariant_of hstep ⟨hregular, hexact⟩ hbounded hrun
    exact hfinal.2.returned_eq hcall hstream

/-- The first chunk comes in two reads with a dropped call between them, and the second read
brings the start of the next chunk along. -/
theorem returns_chunks_iff_bounded_split :
    ∃ s, run Socket.step (Socket.start [[1, 2], [3]])
        [.call, .read 3, .abandon, .call, .read 5, .call, .read 3, .call] = some s ∧
      s.call ≠ none ∧ s.stream = [] ∧ s.returned = [[1, 2], [3]] := by
  have h := (returns_chunks_iff_bounded [[1, 2], [3]] (by decide)
    [.call, .read 3, .abandon, .call, .read 5, .call, .read 3, .call]).2 (by decide)
  refine ⟨_, rfl, by decide, rfl, h _ rfl (by decide) rfl⟩

/-- A call waits for the first chunk, of which it knows the length. -/
private def awaitingData (len : Nat) (buffer stream : List UInt8) : Socket :=
  { receiver := { length := some len, buffer := buffer }, stream := stream,
    call := some (.data len), returned := [] }

private theorem run_header (chunk : List UInt8) (chunks : List (List UInt8)) (events : List Event)
    (hpos : 0 < chunk.length) (hlt : chunk.length < 2 ^ 32) :
    run Socket.step (Socket.start (chunk :: chunks)) (.call :: .read 4 :: events) =
      run Socket.step (awaitingData chunk.length [] (chunk ++ chunks.flatMap writeChunk))
        events := by
  have hword : (toBeBytes 4 chunk.length).length = 4 := toBeBytes_length 4 _
  have hlen : fromBeBytes (toBeBytes 4 chunk.length) = chunk.length :=
    fromBeBytes_toBeBytes (by simpa using hlt)
  have hstream : (chunk :: chunks).flatMap writeChunk =
      toBeBytes 4 chunk.length ++ (chunk ++ chunks.flatMap writeChunk) := by
    rw [List.flatMap_cons, writeChunk, Nat.mod_eq_of_lt hlt, List.append_assoc]
  have hcall : (Socket.start (chunk :: chunks)).step .call =
      some { receiver := { length := none, buffer := [] },
             stream := toBeBytes 4 chunk.length ++ (chunk ++ chunks.flatMap writeChunk),
             call := some .length, returned := [] } := by
    rw [← hstream]
    rfl
  rw [run, hcall, Option.bind_some, run, Socket.step]
  simp only
  rw [if_pos ⟨by decide, by simp, by simp⟩, List.take_left' hword, List.drop_left' hword]
  simp only [resume, hword, takeLength, List.nil_append, le_refl, if_true, Nat.reduceEqDiff,
    if_false, List.take_of_length_le hword.le, List.drop_of_length_le hword.le, hlen, takeData,
    List.length_nil, Nat.zero_mod, Nat.not_le.mpr hpos, Socket.progress, Option.bind_some,
    awaitingData]

private theorem run_reads {len : Nat} (count : Nat) (buffer stream : List UInt8)
    (hstream : 1024 * count ≤ stream.length)
    (hfails : ∀ j ≤ count, 0 < j → (buffer.length + 1024 * j) % 2 ^ 32 < len) :
    run Socket.step (awaitingData len buffer stream) (List.replicate count (.read 1024)) =
      some (awaitingData len (buffer ++ stream.take (1024 * count))
        (stream.drop (1024 * count))) := by
  induction count generalizing buffer stream with
  | zero => simp [run]
  | succ count ih =>
      have htake : (stream.take 1024).length = 1024 := List.length_take_of_le (by omega)
      have hmod : ¬len ≤ (buffer.length + 1024) % 2 ^ 32 :=
        not_le.mpr (hfails 1 (by omega) (by omega))
      have hstep : (awaitingData len buffer stream).step (.read 1024) =
          some (awaitingData len (buffer ++ stream.take 1024) (stream.drop 1024)) := by
        have hread : (awaitingData len buffer stream).Readable 1024 :=
          ⟨le_refl _, le_trans (by omega) hstream, by omega⟩
        have hresume : resume (.data len) (stream.take 1024) { length := some len, buffer := buffer }
            = (.waits (.data len),
                { length := some len, buffer := buffer ++ stream.take 1024 }) := by
          simp only [resume, htake, takeData, List.length_append, Nat.reduceEqDiff, if_false, hmod]
        change (if (awaitingData len buffer stream).Readable 1024 then
          some (({ awaitingData len buffer stream with stream := stream.drop 1024 } : Socket).progress
            (resume (.data len) (stream.take 1024) { length := some len, buffer := buffer }))
          else none) = _
        rw [if_pos hread, hresume]
        rfl
      have hnext := ih (buffer ++ stream.take 1024) (stream.drop 1024)
        (by rw [List.length_drop]; omega) (by
          intro j hj hpos
          have hlater := hfails (j + 1) (by omega) (by omega)
          rw [List.length_append, htake]
          rw [show buffer.length + 1024 + 1024 * j = buffer.length + 1024 * (j + 1) by omega]
          exact hlater)
      have hsplit : 1024 * (count + 1) = 1024 + 1024 * count := by omega
      rw [List.replicate_succ, run, hstep, Option.bind_some, hnext, hsplit, List.take_add,
        List.drop_drop, List.append_assoc]

/-- The last read of a chunk of the largest size brings the next chunk along and the buffer to
2^32 bytes. All is read, and the call goes on waiting for the first chunk. -/
theorem largest_chunk_stalls :
    (∀ chunk ∈ [List.replicate maxSize (0 : UInt8), [0]], chunk.length ≤ maxSize) ∧
    ∃ s, run Socket.step (Socket.start [List.replicate maxSize 0, [0]])
        (.call :: .read 4 :: List.replicate (2 ^ 22) (.read 1024)) = some s ∧
      s.call ≠ none ∧ s.stream = [] ∧ s.returned = [] := by
  have hmax : maxSize = 2 ^ 32 - 5 := by decide
  have hlen : (List.replicate maxSize (0 : UInt8)).length = 2 ^ 32 - 5 := by
    rw [List.length_replicate, hmax]
  generalize List.replicate maxSize (0 : UInt8) = chunk at hlen ⊢
  have htotal : (chunk ++ [[0]].flatMap writeChunk).length = 1024 * 2 ^ 22 := by
    rw [List.length_append, hlen]
    rfl
  rw [run_header chunk [[0]] _ (by omega) (by omega), run_reads _ _ _ htotal.ge]
  · refine ⟨?_, _, rfl, by simp [awaitingData], List.drop_of_length_le htotal.le, rfl⟩
    simp [hlen, hmax]
  · intro j hj hpos
    simp only [List.length_nil, hlen]
    omega

end TcpLink

end LinkSet
