import LinkSet.Wire.Format
import LinkSet.Wire.TcpLink

/-!
# Frames over a TCP link

A frame is written to the socket as one chunk. At the other end the link may be read directly at
first; once its reader is taken, one task cuts the stream into chunks, going on from the state the
direct calls have left, and another one decodes them for the core. The core gets the frames that
were sent, in order and whole, however the stream is cut, whenever the reader is taken and also when
an operation on the socket fails; then some of the frames do not arrive.
-/

namespace LinkSet

open Framework

namespace TcpLink

/-- The read that finds the end of the stream. -/
def Event.atEnd : Event → Bool
  | .read count => count = 0
  | _ => false

/-- The way of frames from `send` on one side to the core on the other. -/
structure Carriage where
  sent : List LinkProtocol
  /-- The sending side has closed the stream, or has failed to write to it. -/
  ended : Bool
  /-- An operation on the socket has failed at one of its ends. -/
  failed : Bool
  /-- The socket, with all chunks that calls of `recv_chunk` have returned. -/
  socket : Socket
  /-- How many chunks there were when the reader was taken. -/
  reader : Option Nat
  isClosed : Bool
  /-- The task that cuts chunks goes on. -/
  cutting : Bool
  /-- The task that decodes goes on, and how many chunks it has read. -/
  decoding : Bool
  decoded : Nat
  /-- The core holds the stream of frames. -/
  listening : Bool
  frames : List LinkProtocol

namespace Carriage

inductive Action where
  | send (msg : LinkProtocol)
  /-- `write_chunk` fails after `count` bytes of the frame's chunk. -/
  | sendFails (msg : LinkProtocol) (count : Nat)
  | finish
  | socket (event : Event)
  /-- The `read` of a call of `recv_chunk` fails. -/
  | readFails
  /-- The receiving side fails to send a frame of its own. -/
  | writeFails
  | takeReader
  | decode
  | dropStream

/-- The frame that an action sends, if only in part. -/
def Action.msg : Action → Option LinkProtocol
  | .send msg => some msg
  | .sendFails msg _ => some msg
  | _ => none

def start : Carriage where
  sent := []
  ended := false
  failed := false
  socket := Socket.start []
  reader := none
  isClosed := false
  cutting := true
  decoding := true
  decoded := 0
  listening := true
  frames := []

/-- The chunks in the channel between the two tasks. -/
def waiting (c : Carriage) (first : Nat) : List (List UInt8) :=
  c.socket.returned.drop (first + c.decoded)

/-- Direct calls may be dropped, those of the task are not. The task calls again when its last chunk
has found a place in the channel of ten. A read returns nothing only at the end of the stream. -/
def Permits (c : Carriage) : Event → Prop
  | .call => ∀ first ∈ c.reader, c.cutting = true ∧ (c.waiting first).length ≤ 10
  | .read count => count = 0 → c.ended = true
  | .abandon => c.reader = none

instance (c : Carriage) : ∀ event, Decidable (c.Permits event)
  | .call => inferInstanceAs (Decidable (∀ first ∈ c.reader, _))
  | .read count => inferInstanceAs (Decidable (count = 0 → c.ended = true))
  | .abandon => inferInstanceAs (Decidable (c.reader = none))

/-- What becomes of a call. An error marks the link as closed and ends the task; so does a chunk that
nobody takes any more. -/
def called (c : Carriage) (event : Event) (socket : Socket) : Carriage :=
  let unheard := c.reader.isSome && !c.decoding &&
    decide (c.socket.returned.length < socket.returned.length)
  { c with
    socket
    isClosed := c.isClosed || event.atEnd || unheard
    cutting := c.cutting && !(c.reader.isSome && event.atEnd) && !unheard }

/-- One round of the decoding task: it ends at a chunk that is no frame, and when the core has dropped
the stream. -/
def decode (c : Carriage) : Option Carriage := do
  let first ← c.reader
  if c.decoding then
    let chunk ← c.socket.returned[first + c.decoded]?
    match LinkProtocol.deserialize chunk with
    | .error _ => return { c with decoded := c.decoded + 1, decoding := false }
    | .ok (msg, _) =>
        if c.listening then
          return { c with decoded := c.decoded + 1, frames := c.frames ++ [msg] }
        else return { c with decoded := c.decoded + 1, decoding := false }
  else none

/-- The bytes of a frame are written. -/
def write (c : Carriage) (msg : LinkProtocol) (bytes : List UInt8) : Carriage :=
  { c with
    sent := c.sent ++ [msg]
    socket := { c.socket with stream := c.socket.stream ++ bytes } }

def step (c : Carriage) : Action → Option Carriage
  | .send msg => if c.ended then none else some (c.write msg (writeChunk msg.serialize))
  | .sendFails msg count =>
      if c.ended then none
      else some { c.write msg ((writeChunk msg.serialize).take count) with
        ended := true
        failed := true }
  | .finish => some { c with ended := true }
  | .socket event => if c.Permits event then (c.socket.step event).map (c.called event) else none
  | .readFails =>
      if c.socket.call = none then none
      else some { c with
        socket := { c.socket with call := none }
        failed := true
        isClosed := true
        cutting := c.cutting && !c.reader.isSome }
  | .writeFails => some { c with failed := true, isClosed := true }
  | .takeReader =>
      if c.reader = none ∧ c.socket.call = none then
        some { c with reader := some c.socket.returned.length }
      else none
  | .decode => c.decode
  | .dropStream => some { c with listening := false }

/-- The chunks of the frames sent. -/
def chunks (c : Carriage) : List (List UInt8) := c.sent.map LinkProtocol.serialize

end Carriage

/-- A frame that a chunk can carry and the decoder takes. -/
structure Carried (msg : LinkProtocol) : Prop where
  fits : msg.Fits
  hasData : msg.HasData
  short : msg.serialize.length ≤ 2 ^ 32 - 1024

private theorem Carried.deserialize {msg : LinkProtocol} (h : Carried msg) :
    LinkProtocol.deserialize msg.serialize = .ok (msg, []) := by
  have hread := LinkProtocol.reads_deserialize.ok_append ⟨h.fits, h.hasData, Or.inl rfl⟩ []
  rwa [List.append_nil] at hread

section socket

variable {chunks rest : List (List UInt8)} {s s' : Socket} {event : Event}

private theorem Cuts.write (h : Cuts chunks rest s) (chunk : List UInt8) :
    Cuts (chunks ++ [chunk]) (rest ++ [chunk])
      { s with stream := s.stream ++ writeChunk chunk } := by
  refine ⟨by rw [h.chunks_eq, List.append_assoc], ?_, h.agrees⟩
  have howed := h.owed
  simp only
  rw [← List.append_assoc]
  cases hlen : s.receiver.length with
  | none =>
      rw [hlen] at howed
      simp only [Owed] at howed ⊢
      rw [howed, List.flatMap_append, List.flatMap_singleton]
  | some len =>
      rw [hlen] at howed
      cases rest with
      | nil => exact howed.elim
      | cons first rest =>
          simp only [Owed, List.cons_append] at howed ⊢
          rw [howed.2, List.flatMap_append, List.flatMap_singleton, List.append_assoc]
          exact ⟨howed.1, rfl⟩

private theorem progress_returned (s : Socket) (p : Progress × Receiver) :
    s.returned <+: (s.progress p).returned := by
  unfold Socket.progress
  split
  · exact List.prefix_append _ _
  · exact List.prefix_rfl
  · exact List.prefix_rfl

private theorem step_returned (hstep : s.step event = some s') : s.returned <+: s'.returned := by
  cases event with
  | call =>
      simp only [Socket.step, Option.ite_none_right_eq_some, Option.some.injEq] at hstep
      rw [← hstep.2]
      exact progress_returned s _
  | read count =>
      cases hcall : s.call with
      | none => simp [Socket.step, hcall] at hstep
      | some wait =>
          simp only [Socket.step, hcall, Option.ite_none_right_eq_some, Option.some.injEq] at hstep
          rw [← hstep.2]
          exact progress_returned { s with stream := s.stream.drop count } _
  | abandon =>
      simp only [Socket.step, Option.ite_none_left_eq_some, Option.some.injEq] at hstep
      rw [← hstep.2]

private theorem step_read_end (hstep : s.step (.read 0) = some s') :
    s.call ≠ none ∧ s.stream = [] ∧ s'.returned = s.returned := by
  cases hcall : s.call with
  | none => simp [Socket.step, hcall] at hstep
  | some wait =>
      simp only [Socket.step, hcall, Option.ite_none_right_eq_some, Option.some.injEq] at hstep
      obtain ⟨hread, rfl⟩ := hstep
      exact ⟨by simp, hread.2.2 rfl, rfl⟩

private theorem bounded_of_short (h : Cuts chunks rest s)
    (hshort : ∀ chunk ∈ chunks, chunk.length ≤ 2 ^ 32 - 1024)
    (hlacks : ∀ len, s.call = some (.data len) → s.receiver.buffer.length < len) (event : Event) :
    Bounded s event := by
  cases event with
  | read count =>
      intro hcall hread
      have hcount := hread.1
      obtain ⟨wait, hwait⟩ := Option.ne_none_iff_exists'.mp hcall
      have hagrees := h.agrees wait hwait
      cases wait with
      | length =>
          have hfew := hagrees.2
          omega
      | data len =>
          have hlt := hlacks len hwait
          have howed := h.owed
          rw [show s.receiver.length = some len from hagrees] at howed
          cases rest with
          | nil => exact howed.elim
          | cons chunk rest =>
              have hle := hshort chunk (by simp [h.chunks_eq])
              rw [← howed.1] at hle
              omega
  | _ => trivial

/-- The socket as it would be with more bytes to come. -/
def Socket.extend (s : Socket) (tail : List UInt8) : Socket :=
  { s with stream := s.stream ++ tail }

theorem Socket.extend_nil (s : Socket) : s.extend [] = s := by
  simp only [extend, List.append_nil]

private theorem Socket.progress_extend (s : Socket) (tail : List UInt8) (p : Progress × Receiver) :
    (s.extend tail).progress p = (s.progress p).extend tail := by
  unfold Socket.progress
  split <;> rfl

/-- What happens could have happened with more bytes to come. The end of the stream is then as if
the call had been dropped. -/
private theorem step_extend (hstep : s.step event = some s') (tail : List UInt8) :
    ∃ event', (s.extend tail).step event' = some (s'.extend tail) := by
  cases event with
  | call =>
      simp only [Socket.step, Option.ite_none_right_eq_some, Option.some.injEq] at hstep
      obtain ⟨hcall, rfl⟩ := hstep
      exact ⟨.call, (if_pos hcall).trans (congrArg some (s.progress_extend tail _))⟩
  | abandon =>
      simp only [Socket.step, Option.ite_none_left_eq_some, Option.some.injEq] at hstep
      obtain ⟨hcall, rfl⟩ := hstep
      exact ⟨.abandon, if_neg hcall⟩
  | read count =>
      cases hcall : s.call with
      | none => simp [Socket.step, hcall] at hstep
      | some wait =>
          simp only [Socket.step, hcall, Option.ite_none_right_eq_some, Option.some.injEq] at hstep
          obtain ⟨⟨hcount, hle, hend⟩, rfl⟩ := hstep
          by_cases hzero : count = 0
          · subst hzero
            exact ⟨.abandon, if_neg (by simp [Socket.extend, hcall])⟩
          · refine ⟨.read count, ?_⟩
            have hcall' : (s.extend tail).call = some wait := hcall
            have hread : (s.extend tail).Readable count :=
              ⟨hcount, by simp only [Socket.extend, List.length_append]; omega,
                fun h => absurd h hzero⟩
            have htake : (s.extend tail).stream.take count = s.stream.take count :=
              List.take_append_of_le_length hle
            have hdrop : (s.extend tail).stream.drop count = s.stream.drop count ++ tail :=
              List.drop_append_of_le_length hle
            simp only [Socket.step, hcall', if_pos hread, htake, hdrop]
            rw [← hcall, ← Socket.progress_extend]
            rfl

end socket

namespace Carriage

/-- What holds along every run, as long as the frames can be carried, where `tail` are the bytes of
the last frame that were not written. -/
structure Inv (tail : List UInt8) (c : Carriage) : Prop where
  regular : Regular c.chunks (c.socket.extend tail)
  exact : Exact c.chunks (c.socket.extend tail)
  written : c.failed = false ∨ c.ended = false → tail = []
  frames : c.frames <+: c.sent.drop (c.reader.getD 0)
  untaken : c.reader = none → c.decoded = 0 ∧ c.frames = []
  counted : c.listening = true → c.frames.length = c.decoded ∧ c.decoding = true
  complete : c.isClosed = true → c.listening = true → c.failed = false →
    c.ended = true ∧ c.socket.returned = c.chunks

theorem inv_start : Inv [] start where
  regular := ⟨⟨[], start_cuts []⟩, by simp [start, Socket.start, Socket.extend]⟩
  exact := (exact_iff (start_cuts [])).mpr (by simp [Socket.start])
  written := fun _ => rfl
  frames := List.prefix_rfl
  untaken := fun _ => ⟨rfl, rfl⟩
  counted := fun _ => ⟨rfl, rfl⟩
  complete := nofun

section steps

variable {tail : List UInt8} {c c' : Carriage}

private theorem Inv.extend_write (h : c.Inv []) (msg : LinkProtocol) {bytes tail : List UInt8}
    (hbytes : bytes ++ tail = writeChunk msg.serialize) :
    Regular (c.write msg bytes).chunks ((c.write msg bytes).socket.extend tail) ∧
      Exact (c.write msg bytes).chunks ((c.write msg bytes).socket.extend tail) := by
  obtain ⟨⟨rest, hcuts⟩, hbuffer⟩ := h.regular
  have hexact := (exact_iff hcuts).mp h.exact
  rw [Socket.extend_nil] at hcuts hbuffer hexact
  have hcuts' := hcuts.write msg.serialize
  have hchunks : (c.write msg bytes).chunks = c.chunks ++ [msg.serialize] := by
    simp [chunks, write]
  have hsocket : (c.write msg bytes).socket.extend tail =
      { c.socket with stream := c.socket.stream ++ writeChunk msg.serialize } := by
    simp only [write, Socket.extend, List.append_assoc, hbytes]
  rw [hchunks, hsocket]
  exact ⟨⟨⟨_, hcuts'⟩, hbuffer⟩, (exact_iff hcuts').mpr hexact⟩

private theorem Inv.frames_write (h : c.Inv tail) (msg : LinkProtocol) :
    c.frames <+: (c.sent ++ [msg]).drop (c.reader.getD 0) := by
  refine h.frames.trans ?_
  rw [List.drop_append]
  exact List.prefix_append _ _

private theorem Inv.send (h : c.Inv tail) (hopen : c.ended = false) (msg : LinkProtocol) :
    Inv [] (c.write msg (writeChunk msg.serialize)) := by
  obtain rfl := h.written (Or.inr hopen)
  obtain ⟨hregular, hexact⟩ := h.extend_write msg (List.append_nil _)
  refine ⟨hregular, hexact, fun _ => rfl, h.frames_write msg, h.untaken, h.counted, ?_⟩
  intro hclosed hlistening hwhole
  rw [(h.complete hclosed hlistening hwhole).1] at hopen
  cases hopen

private theorem Inv.sendFails (h : c.Inv tail) (hopen : c.ended = false) (msg : LinkProtocol)
    (count : Nat) :
    Inv ((writeChunk msg.serialize).drop count)
      { c.write msg ((writeChunk msg.serialize).take count) with ended := true, failed := true } := by
  obtain rfl := h.written (Or.inr hopen)
  obtain ⟨hregular, hexact⟩ := h.extend_write msg (List.take_append_drop count _)
  refine ⟨hregular, hexact, ?_, h.frames_write msg, h.untaken, h.counted, nofun⟩
  rintro (hfailed | hended)
  · cases hfailed
  · cases hended

private theorem Inv.extend_step (h : c.Inv tail) (hsent : ∀ msg ∈ c.sent, Carried msg)
    {event : Event} {socket : Socket} (hstep : c.socket.step event = some socket) :
    Regular c.chunks (socket.extend tail) ∧ Exact c.chunks (socket.extend tail) := by
  obtain ⟨⟨rest, hcuts⟩, _⟩ := h.regular
  have hshort : ∀ chunk ∈ c.chunks, chunk.length ≤ 2 ^ 32 - 1024 := by
    intro chunk hchunk
    obtain ⟨msg, hmsg, rfl⟩ := List.mem_map.mp hchunk
    exact (hsent msg hmsg).short
  have hsize : ∀ chunk ∈ c.chunks, chunk.length ≤ maxSize := by
    intro chunk hchunk
    exact (hshort chunk hchunk).trans (by decide)
  obtain ⟨event', hstep'⟩ := step_extend hstep tail
  have hbounded := bounded_of_short hcuts hshort ((exact_iff hcuts).mp h.exact) event'
  exact ⟨regular_step hsize _ event' _ h.regular hbounded hstep',
    (exact_step_iff hsize _ event' _ h.regular h.exact hstep').mpr hbounded⟩

private theorem Inv.call (h : c.Inv tail) (hsent : ∀ msg ∈ c.sent, Carried msg) {event : Event}
    {socket : Socket} (hpermits : c.Permits event) (hstep : c.socket.step event = some socket) :
    Inv tail (c.called event socket) := by
  obtain ⟨hregular, hexact⟩ := h.extend_step hsent hstep
  refine ⟨hregular, hexact, h.written, h.frames, h.untaken, h.counted, ?_⟩
  intro hclosed hlistening hwhole
  obtain rfl := h.written (Or.inl hwhole)
  have hdecoding := (h.counted hlistening).2
  simp only [called, hdecoding, Bool.not_true, Bool.and_false, Bool.false_and, Bool.or_false,
    Bool.or_eq_true] at hclosed
  rcases hclosed with hclosed | hend
  · obtain ⟨hended, hall⟩ := h.complete hclosed hlistening hwhole
    have hpre := step_returned hstep
    rw [hall] at hpre
    exact ⟨hended, (hpre.eq_of_length_le hexact.1.length_le).symm⟩
  · cases event with
    | read count =>
        obtain rfl : count = 0 := by simpa [Event.atEnd] using hend
        obtain ⟨hcall, hstream, hreturned⟩ := step_read_end hstep
        have hexact := h.exact
        rw [Socket.extend_nil] at hexact
        exact ⟨hpermits rfl, hreturned.trans (hexact.returned_eq hcall hstream)⟩
    | _ => cases hend

private theorem Inv.decode (h : c.Inv tail) (hsent : ∀ msg ∈ c.sent, Carried msg)
    (hdecode : c.decode = some c') : c'.Inv tail := by
  obtain ⟨first, hreader, hdecode⟩ := Option.bind_eq_some_iff.mp hdecode
  obtain ⟨hdecoding, hdecode⟩ := Option.ite_none_right_eq_some.mp hdecode
  obtain ⟨chunk, hchunk, hdecode⟩ := Option.bind_eq_some_iff.mp hdecode
  obtain ⟨rest, hcuts⟩ := h.regular.1
  have hchunks : c.chunks = c.socket.returned ++ rest := hcuts.chunks_eq
  have hmsg : c.chunks[first + c.decoded]? = some chunk := by
    rw [hchunks, List.getElem?_append_left (List.getElem?_eq_some_iff.mp hchunk).1, hchunk]
  rw [chunks, List.getElem?_map] at hmsg
  obtain ⟨msg, hget, rfl⟩ := Option.map_eq_some_iff.mp hmsg
  rw [(hsent msg (List.mem_of_getElem? hget)).deserialize] at hdecode
  simp only at hdecode
  by_cases hlistening : c.listening = true
  · obtain ⟨hcount, _⟩ := h.counted hlistening
    rw [if_pos hlistening] at hdecode
    obtain rfl := Option.some.inj hdecode
    refine ⟨h.regular, h.exact, h.written, ?_, (by simp [hreader]), ?_, h.complete⟩
    · obtain ⟨rest, hrest⟩ := h.frames
      simp only [hreader, Option.getD_some] at hrest ⊢
      have hnext : (c.sent.drop first)[c.frames.length]? = some msg := by
        rw [List.getElem?_drop, hcount, hget]
      rw [← hrest, List.getElem?_append_right (Nat.le_refl _), Nat.sub_self] at hnext
      cases rest with
      | nil => cases hnext
      | cons x rest =>
          obtain rfl := Option.some.inj hnext
          exact ⟨rest, by rw [← hrest, List.append_assoc]; rfl⟩
    · intro _
      exact ⟨by simp [hcount], hdecoding⟩
  · rw [if_neg hlistening] at hdecode
    obtain rfl := Option.some.inj hdecode
    exact ⟨h.regular, h.exact, h.written, h.frames, (by simp [hreader]),
      fun hlist => absurd hlist hlistening, h.complete⟩

theorem step_keeps {a : Action} (hstep : c.step a = some c') :
    c'.sent = c.sent ++ a.msg.toList ∧
      (c'.reader = c.reader ∨ (a = .takeReader ∧ c.reader = none)) := by
  have hsame : ∀ c₁ : Carriage, c₁.sent = c.sent → c₁.reader = c.reader →
      c₁.sent = c.sent ++ [] ∧ (c₁.reader = c.reader ∨ (a = .takeReader ∧ c.reader = none)) := by
    intro c₁ hsent hreader
    exact ⟨by rw [hsent, List.append_nil], Or.inl hreader⟩
  cases a with
  | send msg =>
      obtain ⟨_, hstep⟩ := Option.ite_none_left_eq_some.mp hstep
      cases hstep
      exact ⟨rfl, Or.inl rfl⟩
  | sendFails msg count =>
      obtain ⟨_, hstep⟩ := Option.ite_none_left_eq_some.mp hstep
      cases hstep
      exact ⟨rfl, Or.inl rfl⟩
  | finish =>
      cases hstep
      exact hsame _ rfl rfl
  | socket event =>
      obtain ⟨_, hstep⟩ := Option.ite_none_right_eq_some.mp hstep
      obtain ⟨s, _, rfl⟩ := Option.map_eq_some_iff.mp hstep
      exact hsame _ rfl rfl
  | readFails =>
      obtain ⟨_, hstep⟩ := Option.ite_none_left_eq_some.mp hstep
      cases hstep
      exact hsame _ rfl rfl
  | writeFails =>
      cases hstep
      exact hsame _ rfl rfl
  | takeReader =>
      obtain ⟨⟨hnone, _⟩, hstep⟩ := Option.ite_none_right_eq_some.mp hstep
      cases hstep
      exact ⟨(List.append_nil _).symm, Or.inr ⟨rfl, hnone⟩⟩
  | decode =>
      obtain ⟨first, _, hstep⟩ := Option.bind_eq_some_iff.mp hstep
      obtain ⟨_, hstep⟩ := Option.ite_none_right_eq_some.mp hstep
      obtain ⟨chunk, _, hstep⟩ := Option.bind_eq_some_iff.mp hstep
      split at hstep
      · cases hstep
        exact hsame _ rfl rfl
      · split at hstep <;> cases hstep <;> exact hsame _ rfl rfl
  | dropStream =>
      cases hstep
      exact hsame _ rfl rfl

theorem reader_kept {a : Action} {first : Nat} (h : c.reader = some first)
    (hstep : c.step a = some c') : c'.reader = some first := by
  rcases (step_keeps hstep).2 with hreader | ⟨_, hnone⟩
  · exact hreader.trans h
  · rw [h] at hnone
    cases hnone

theorem inv_step (c : Carriage) (a : Action) (c' : Carriage)
    (h : (∀ msg ∈ c.sent, Carried msg) → ∃ tail, c.Inv tail) (hstep : c.step a = some c')
    (hsent' : ∀ msg ∈ c'.sent, Carried msg) : ∃ tail, c'.Inv tail := by
  have hsent : ∀ msg ∈ c.sent, Carried msg := by
    intro msg hmsg
    apply hsent'
    rw [(step_keeps hstep).1]
    exact List.mem_append_left _ hmsg
  obtain ⟨tail, h⟩ := h hsent
  cases a with
  | send msg =>
      obtain ⟨hopen, hstep⟩ := Option.ite_none_left_eq_some.mp hstep
      cases hstep
      exact ⟨_, h.send (Bool.not_eq_true _ ▸ hopen) msg⟩
  | sendFails msg count =>
      obtain ⟨hopen, hstep⟩ := Option.ite_none_left_eq_some.mp hstep
      cases hstep
      exact ⟨_, h.sendFails (Bool.not_eq_true _ ▸ hopen) msg count⟩
  | finish =>
      cases hstep
      refine ⟨tail, h.regular, h.exact, ?_, h.frames, h.untaken, h.counted,
        fun hclosed hlistening hwhole => ⟨rfl, (h.complete hclosed hlistening hwhole).2⟩⟩
      rintro (hwhole | hended)
      · exact h.written (Or.inl hwhole)
      · cases hended
  | socket event =>
      obtain ⟨hpermits, hstep⟩ := Option.ite_none_right_eq_some.mp hstep
      obtain ⟨socket, hsocket, rfl⟩ := Option.map_eq_some_iff.mp hstep
      exact ⟨tail, h.call hsent hpermits hsocket⟩
  | readFails =>
      obtain ⟨hcall, hstep⟩ := Option.ite_none_left_eq_some.mp hstep
      cases hstep
      -- the socket is left as by a call that is dropped
      have habandon : c.socket.step .abandon = some { c.socket with call := none } := if_neg hcall
      obtain ⟨hregular, hexact⟩ := h.extend_step hsent habandon
      refine ⟨tail, hregular, hexact, ?_, h.frames, h.untaken, h.counted, nofun⟩
      rintro (hwhole | hended)
      · cases hwhole
      · exact h.written (Or.inr hended)
  | writeFails =>
      cases hstep
      refine ⟨tail, h.regular, h.exact, ?_, h.frames, h.untaken, h.counted, nofun⟩
      rintro (hwhole | hended)
      · cases hwhole
      · exact h.written (Or.inr hended)
  | takeReader =>
      obtain ⟨⟨hreader, _⟩, hstep⟩ := Option.ite_none_right_eq_some.mp hstep
      cases hstep
      obtain ⟨_, hframes⟩ := h.untaken hreader
      refine ⟨tail, h.regular, h.exact, h.written, ?_, nofun, h.counted, h.complete⟩
      rw [show c.frames = [] from hframes]
      exact List.nil_prefix
  | decode => exact ⟨tail, h.decode hsent hstep⟩
  | dropStream =>
      cases hstep
      exact ⟨tail, h.regular, h.exact, h.written, h.frames, h.untaken, nofun, fun _ => nofun⟩

end steps

/-- In every run, the core is given frames in the order they were sent, each whole, from the first
one whose chunk was not read directly. If no operation on the socket has failed, and the link is
marked as closed while the core listens, or all bytes have been read and a call waits for more,
then every frame that was sent is there as soon as the tasks have done what they can. -/
theorem frames_arrive (actions : List Action) (c : Carriage)
    (hrun : run step start actions = some c) (hsent : ∀ msg ∈ c.sent, Carried msg) :
    c.frames <+: c.sent.drop (c.reader.getD 0) ∧
    ∀ first, c.reader = some first → c.listening = true → c.failed = false →
      (c.isClosed = true ∨ (c.socket.call ≠ none ∧ c.socket.stream = [])) →
      c.waiting first = [] → c.frames = c.sent.drop first := by
  obtain ⟨tail, hinv⟩ := run_invariant inv_step (fun _ => ⟨[], inv_start⟩) hrun hsent
  refine ⟨hinv.frames, ?_⟩
  intro first hreader hlistening hwhole hread hwaiting
  have hreturned : c.socket.returned = c.chunks := by
    rcases hread with hclosed | ⟨hcall, hstream⟩
    · exact (hinv.complete hclosed hlistening hwhole).2
    · obtain rfl := hinv.written (Or.inl hwhole)
      have hexact := hinv.exact
      rw [Socket.extend_nil] at hexact
      exact hexact.returned_eq hcall hstream
  have hpre := hinv.frames
  rw [hreader] at hpre
  apply hpre.eq_of_length_le
  have hle := List.drop_eq_nil_iff.mp hwaiting
  rw [hreturned, chunks, List.length_map] at hle
  rw [Option.getD_some, List.length_drop, (hinv.counted hlistening).1]
  omega

/-- The first frame is read directly, and the length of the second one; then the reader is taken. -/
private def handover : List Action :=
  [.send .ping, .socket .call, .socket (.read 5), .send (.ack 1 2 3), .send .pong, .socket .call,
    .socket (.read 4), .socket .abandon, .takeReader, .socket .call, .finish, .socket (.read 30),
    .decode, .socket .call, .socket .call, .socket (.read 0), .decode]

theorem frames_arrive_handover :
    ∃ c, run step start handover = some c ∧ c.isClosed = true ∧ c.reader = some 1 ∧
      c.frames = c.sent.drop 1 := by
  refine ⟨_, rfl, rfl, rfl, (frames_arrive handover _ rfl ?_).2 1 rfl rfl rfl (Or.inl rfl) rfl⟩
  intro msg hmsg
  have hmem : msg ∈ [LinkProtocol.ping, .ack 1 2 3, .pong] := hmsg
  simp only [List.mem_cons, List.not_mem_nil, or_false] at hmem
  rcases hmem with rfl | rfl | rfl
  · exact ⟨trivial, trivial, by decide⟩
  · exact ⟨⟨by decide, by decide, by decide⟩, trivial, by decide⟩
  · exact ⟨trivial, trivial, by decide⟩

end Carriage

end TcpLink

end LinkSet
