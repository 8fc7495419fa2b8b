import LinkSet.Core.Common
import LinkSet.Framework.Run

/-!
# Chunks over a channel

A pipe link sends its chunks through a channel, each with the time it was sent at; the reader
returns a chunk after the latency of the link. A read keeps the chunk in the reader while it
sleeps, so that the next read finds it if this one is dropped. That next read takes the chunk out
before it sleeps itself, and loses it when it is dropped in turn. Both links of a pipe hold the
sending ends of the channel that cancels its readers; when they are gone a reader takes this for a
cancelation, whatever is still in its own channel.
-/

namespace LinkSet

open Framework

def Deadline.isElapsed (d : Deadline) (now : Nat) : Bool := d.deadline.any (· ≤ now)

/-- The error of `read`. -/
inductive PipeLinkError where
  | closed
deriving DecidableEq

structure PipeLinkReader where
  /-- The chunks in the channel. -/
  rx : List (List UInt8 × Nat)
  /-- No chunk can be sent any more. -/
  closed : Bool
  peeked : Option (List UInt8 × Nat)
  expiration : Deadline
  latency : Option Nat
  /-- `cancel_rx.recv()` returns `None`: neither of the two links nor a canceler is left. -/
  canceled : Bool

/-- The points at which a `read` waits, with its local variables. -/
inductive PipeAwait where
  /-- In the sleep of the first branch. -/
  | resumed (msg : List UInt8) (timestamp : Nat)
  | select
  /-- In the sleep of the `select`'s last branch. -/
  | received (msg : List UInt8) (timestamp : Nat)
deriving DecidableEq

/-- How far a `read` gets before it waits. -/
inductive PipeProgress where
  | ready (result : Except PipeLinkError (List UInt8))
  | waits (wait : PipeAwait)

namespace PipeLinkReader

/-- `sleep_until(timestamp + latency)`, where there is a latency, does not return yet. The sum is
taken to be one that an `Instant` can hold. -/
def sleeps (r : PipeLinkReader) (timestamp now : Nat) : Bool :=
  r.latency.any (now < timestamp + ·)

/-- The first branch, with the chunk taken from `peeked`. -/
def resume (r : PipeLinkReader) (msg : List UInt8) (timestamp now : Nat) :
    PipeProgress × PipeLinkReader :=
  if r.sleeps timestamp now then (.waits (.resumed msg timestamp), r)
  else
    let r := { r with peeked := none }
    if r.expiration.isElapsed now then (.ready (.error .closed), { r with closed := true })
    else (.ready (.ok msg), r)

/-- The last branch of the `select`, with the chunk kept in `peeked`. -/
def receive (r : PipeLinkReader) (msg : List UInt8) (timestamp now : Nat) :
    PipeProgress × PipeLinkReader :=
  if r.sleeps timestamp now then (.waits (.received msg timestamp), r)
  else (.ready (.ok msg), { r with peeked := none })

/-- The branches of the `select` in their order. -/
def select (r : PipeLinkReader) (now : Nat) : PipeProgress × PipeLinkReader :=
  if r.canceled then (.ready (.error .closed), { r with closed := true })
  else
    match r.expiration.poll now with
    | some expiration => (.ready (.error .closed), { r with expiration, closed := true })
    | none =>
        match r.rx with
        | (msg, timestamp) :: rx =>
            receive { r with rx, peeked := some (msg, timestamp) } msg timestamp now
        | [] => if r.closed then (.ready (.error .closed), r) else (.waits .select, r)

/-- A call of `read` up to the first point where it waits. -/
def read (r : PipeLinkReader) (now : Nat) : PipeProgress × PipeLinkReader :=
  match r.peeked with
  | some (msg, timestamp) => resume { r with peeked := none } msg timestamp now
  | none => r.select now

/-- A waiting call is polled. -/
def poll (r : PipeLinkReader) (wait : PipeAwait) (now : Nat) : PipeProgress × PipeLinkReader :=
  match wait with
  | .resumed msg timestamp => r.resume msg timestamp now
  | .select => r.select now
  | .received msg timestamp => r.receive msg timestamp now

end PipeLinkReader

/-- A reader with the call that is waiting, the chunks sent to it and those that its calls have
returned. -/
structure Pipe where
  reader : PipeLinkReader
  call : Option PipeAwait
  sent : List (List UInt8)
  returned : List (List UInt8)

inductive PipeEvent where
  /-- A chunk gets a place in the channel. -/
  | send (msg : List UInt8) (now : Nat)
  /-- The other end is dropped. -/
  | close
  /-- Both links of the pipe are dropped, and with them the channel of the cancelers. -/
  | release
  | read (now : Nat)
  | poll (now : Nat)
  /-- The waiting call is dropped. -/
  | drop

namespace Pipe

/-- A new pipe that does not expire. -/
def start (latency : Option Nat) : Pipe where
  reader := ⟨[], false, none, .new, latency, false⟩
  call := none
  sent := []
  returned := []

def progress (p : Pipe) (out : PipeProgress × PipeLinkReader) : Pipe :=
  match out.1 with
  | .ready result =>
      { p with reader := out.2, call := none, returned := p.returned ++ result.toOption.toList }
  | .waits wait => { p with reader := out.2, call := some wait }

def step (p : Pipe) : PipeEvent → Option Pipe
  | .send msg now =>
      if p.reader.closed then none
      else some { p with
        reader := { p.reader with rx := p.reader.rx ++ [(msg, now)] }
        sent := p.sent ++ [msg] }
  | .close => some { p with reader := { p.reader with closed := true } }
  | .release =>
      if p.reader.canceled then none
      else some { p with reader := { p.reader with closed := true, canceled := true } }
  | .read now => if p.call = none then some (p.progress (p.reader.read now)) else none
  | .poll now => p.call.map fun wait => p.progress (p.reader.poll wait now)
  | .drop => if p.call = none then none else some { p with call := none }

end Pipe

/-- The chunk that only the call itself has. -/
def PipeAwait.held : PipeAwait → List (List UInt8)
  | .resumed msg _ => [msg]
  | _ => []

/-- The chunk that a call returns, or that only it has. -/
def PipeProgress.chunk : PipeProgress → List (List UInt8)
  | .ready result => result.toOption.toList
  | .waits wait => wait.held

/-- The chunks that further reads can return. -/
def PipeLinkReader.stored (r : PipeLinkReader) : List (List UInt8) :=
  (r.peeked.toList ++ if r.canceled then [] else r.rx).map Prod.fst

namespace Pipe

/-- The chunks that have not been returned yet and can be. -/
def unread (p : Pipe) : List (List UInt8) :=
  p.call.toList.flatMap PipeAwait.held ++ p.reader.stored

/-- The chunks returned so far and the unread ones are those that were sent. -/
def Intact (p : Pipe) : Prop := p.returned ++ p.unread = p.sent

/-- The event does not drop a call that has taken over the chunk of another one and sleeps, nor
both links while there are chunks in the channel. -/
def Keeps (p : Pipe) : PipeEvent → Prop
  | .drop => ∀ msg timestamp, p.call ≠ some (.resumed msg timestamp)
  | .release => p.reader.canceled = false → p.reader.rx = []
  | _ => True

end Pipe

/-- Where the chunk of a sleeping call is. -/
def PipeAwait.Agrees (r : PipeLinkReader) : PipeAwait → Prop
  | .resumed _ _ => r.peeked = none
  | .select => r.peeked = none
  | .received msg timestamp => r.peeked = some (msg, timestamp)

/-- The reader does not expire, and nothing is sent to it once its links are gone. -/
structure PipeLinkReader.Quiet (r : PipeLinkReader) : Prop where
  expiration : r.expiration = .new
  closed : r.canceled = true → r.closed = true

/-- A call goes on from a reader that, with the call itself, has the chunks `before`. -/
structure PipeLinkReader.GoesOn (before : List (List UInt8)) (out : PipeProgress × PipeLinkReader) :
    Prop where
  chunks : out.1.chunk ++ out.2.stored = before
  quiet : out.2.Quiet
  agrees : ∀ wait, out.1 = .waits wait → wait.Agrees out.2

namespace PipeLinkReader

variable {r : PipeLinkReader}

private theorem Quiet.poll (h : r.Quiet) (now : Nat) : r.expiration.poll now = none := by
  rw [h.expiration]
  rfl

private theorem resume_goesOn {msg : List UInt8} {timestamp now : Nat} (h : r.Quiet)
    (hpeeked : r.peeked = none) : GoesOn (msg :: r.stored) (r.resume msg timestamp now) := by
  unfold resume
  split
  · refine ⟨rfl, h, ?_⟩
    intro wait hwait
    cases hwait
    exact hpeeked
  · rw [if_neg (by simp [h.expiration, Deadline.isElapsed, Deadline.new])]
    refine ⟨?_, ⟨h.expiration, h.closed⟩, ?_⟩
    · simp [PipeProgress.chunk, Except.toOption, stored, hpeeked]
    · intro wait hwait
      cases hwait

private theorem receive_goesOn {msg : List UInt8} {timestamp now : Nat} (h : r.Quiet)
    (hpeeked : r.peeked = some (msg, timestamp)) :
    GoesOn r.stored (r.receive msg timestamp now) := by
  unfold receive
  split
  · refine ⟨rfl, h, ?_⟩
    intro wait hwait
    cases hwait
    exact hpeeked
  · refine ⟨?_, ⟨h.expiration, h.closed⟩, ?_⟩
    · simp [PipeProgress.chunk, Except.toOption, stored, hpeeked]
    · intro wait hwait
      cases hwait

/-- As long as there are links only the last branch of the `select` counts. -/
private theorem select_eq (h : r.Quiet) (hopen : r.canceled = false) {msg : List UInt8}
    {timestamp : Nat} {rx : List (List UInt8 × Nat)} (hrx : r.rx = (msg, timestamp) :: rx)
    (now : Nat) :
    r.select now = receive { r with rx, peeked := some (msg, timestamp) } msg timestamp now := by
  unfold select
  rw [if_neg (by simp [hopen]), h.poll, hrx]

private theorem select_canceled {now : Nat} (h : r.Quiet) (hpeeked : r.peeked = none)
    (hcanceled : r.canceled = true) : GoesOn r.stored (r.select now) := by
  unfold select
  rw [if_pos hcanceled]
  refine ⟨?_, ⟨h.expiration, fun _ => rfl⟩, nofun⟩
  simp [PipeProgress.chunk, Except.toOption, stored, hpeeked, hcanceled]

private theorem select_goesOn {now : Nat} (h : r.Quiet) (hpeeked : r.peeked = none) :
    GoesOn r.stored (r.select now) := by
  by_cases hcanceled : r.canceled = true
  · exact select_canceled h hpeeked hcanceled
  have hopen : r.canceled = false := by simpa using hcanceled
  cases hrx : r.rx with
  | cons first rx =>
      obtain ⟨msg, timestamp⟩ := first
      have hstored : r.stored = stored { r with rx, peeked := some (msg, timestamp) } := by
        simp [stored, hpeeked, hrx, hopen]
      rw [select_eq h hopen hrx, hstored]
      exact receive_goesOn ⟨h.expiration, h.closed⟩ rfl
  | nil =>
      unfold select
      rw [if_neg hcanceled, h.poll, hrx]
      simp only
      split
      · refine ⟨rfl, h, ?_⟩
        intro wait hwait
        cases hwait
      · refine ⟨rfl, h, ?_⟩
        intro wait hwait
        cases hwait
        exact hpeeked

private theorem read_goesOn {now : Nat} (h : r.Quiet) : GoesOn r.stored (r.read now) := by
  unfold read
  cases hpeeked : r.peeked with
  | none => exact select_goesOn h hpeeked
  | some kept =>
      obtain ⟨msg, timestamp⟩ := kept
      have hstored : r.stored = msg :: stored { r with peeked := none } := by
        simp [stored, hpeeked]
      rw [hstored]
      exact resume_goesOn ⟨h.expiration, h.closed⟩ rfl

private theorem poll_goesOn {wait : PipeAwait} {now : Nat} (h : r.Quiet) (hagrees : wait.Agrees r) :
    GoesOn (wait.held ++ r.stored) (r.poll wait now) := by
  cases wait with
  | resumed msg timestamp => exact resume_goesOn h hagrees
  | select => exact select_goesOn h hagrees
  | received msg timestamp => exact receive_goesOn h hagrees

private theorem sleeps_eq_false {timestamp now : Nat} (h : timestamp + r.latency.getD 0 ≤ now) :
    r.sleeps timestamp now = false := by
  unfold sleeps
  cases hlatency : r.latency with
  | none => rfl
  | some latency =>
      rw [hlatency] at h
      simpa using h

private theorem resume_ready {msg : List UInt8} {timestamp now : Nat} (h : r.Quiet)
    (hlate : timestamp + r.latency.getD 0 ≤ now) :
    (r.resume msg timestamp now).1 = .ready (.ok msg) := by
  unfold resume
  rw [if_neg (by simp [sleeps_eq_false hlate]),
    if_neg (by simp [h.expiration, Deadline.isElapsed, Deadline.new])]

private theorem receive_ready {msg : List UInt8} {timestamp now : Nat}
    (hlate : timestamp + r.latency.getD 0 ≤ now) :
    (r.receive msg timestamp now).1 = .ready (.ok msg) := by
  unfold receive
  rw [if_neg (by simp [sleeps_eq_false hlate])]

private theorem read_ready {msg : List UInt8} {rest : List (List UInt8)} (h : r.Quiet)
    (hstored : r.stored = msg :: rest) :
    ∃ time, ∀ now, time ≤ now → (r.read now).1 = .ready (.ok msg) := by
  unfold read
  cases hpeeked : r.peeked with
  | some kept =>
      obtain ⟨data, timestamp⟩ := kept
      have hmsg : data = msg := by simpa [stored, hpeeked] using congrArg List.head? hstored
      refine ⟨timestamp + r.latency.getD 0, ?_⟩
      intro now hlate
      rw [← hmsg]
      exact resume_ready ⟨h.expiration, h.closed⟩ hlate
  | none =>
      have hopen : r.canceled = false := by
        cases hcanceled : r.canceled with
        | false => rfl
        | true => simp [stored, hpeeked, hcanceled] at hstored
      cases hrx : r.rx with
      | nil => simp [stored, hpeeked, hrx] at hstored
      | cons first rx =>
          obtain ⟨data, timestamp⟩ := first
          have hmsg : data = msg := by
            simpa [stored, hpeeked, hrx, hopen] using congrArg List.head? hstored
          refine ⟨timestamp + r.latency.getD 0, ?_⟩
          intro now hlate
          rw [← hmsg, select_eq h hopen hrx]
          exact receive_ready hlate

end PipeLinkReader

namespace Pipe

/-- The reader is quiet, and a waiting call has its chunk where the point at which it waits
says. -/
structure Calm (p : Pipe) : Prop where
  quiet : p.reader.Quiet
  agrees : ∀ wait, p.call = some wait → wait.Agrees p.reader

variable {p p' : Pipe}

private theorem start_calm (latency : Option Nat) : Calm (start latency) where
  quiet := ⟨rfl, nofun⟩
  agrees := by
    intro wait hcall
    cases hcall

private theorem progress_spec {out : PipeProgress × PipeLinkReader}
    (h : PipeLinkReader.GoesOn p.unread out) :
    Calm (p.progress out) ∧
      (p.progress out).returned ++ (p.progress out).unread = p.returned ++ p.unread := by
  obtain ⟨state, reader⟩ := out
  have hchunks := h.chunks
  cases state with
  | ready result =>
      refine ⟨⟨h.quiet, ?_⟩, ?_⟩
      · intro wait hcall
        cases hcall
      · rw [← hchunks]
        exact List.append_assoc _ _ _
  | waits wait =>
      refine ⟨⟨h.quiet, ?_⟩, ?_⟩
      · intro wait' hcall
        exact h.agrees wait' (congrArg PipeProgress.waits (Option.some.inj hcall))
      · rw [← hchunks]
        simp [progress, unread, PipeProgress.chunk]

private theorem progress_sent (p : Pipe) (out : PipeProgress × PipeLinkReader) :
    (p.progress out).sent = p.sent := by
  unfold progress
  split <;> rfl

private theorem read_goesOn (h : Calm p) (hcall : p.call = none) (now : Nat) :
    PipeLinkReader.GoesOn p.unread (p.reader.read now) := by
  have hunread : p.unread = p.reader.stored := by simp [unread, hcall]
  rw [hunread]
  exact PipeLinkReader.read_goesOn h.quiet

private theorem poll_goesOn {wait : PipeAwait} (h : Calm p) (hcall : p.call = some wait)
    (now : Nat) : PipeLinkReader.GoesOn p.unread (p.reader.poll wait now) := by
  have hunread : p.unread = wait.held ++ p.reader.stored := by simp [unread, hcall]
  rw [hunread]
  exact PipeLinkReader.poll_goesOn h.quiet (h.agrees wait hcall)

/-- Every chunk stays returned or unread exactly when no call is dropped that has one to itself. -/
theorem step_intact_iff (p : Pipe) (event : PipeEvent) (p' : Pipe) (h : Calm p)
    (hintact : Intact p) (hstep : p.step event = some p') :
    Intact p' ↔ p.Keeps event := by
  cases event with
  | send msg now =>
      simp only [step, Option.ite_none_left_eq_some, Option.some.injEq] at hstep
      obtain ⟨hclosed, rfl⟩ := hstep
      have hopen : p.reader.canceled = false := by
        by_contra hcanceled
        exact hclosed (h.quiet.closed (by simpa using hcanceled))
      refine iff_of_true ?_ trivial
      rw [Intact, ← hintact]
      simp [unread, PipeLinkReader.stored, hopen]
  | close =>
      cases hstep
      exact iff_of_true hintact trivial
  | release =>
      simp only [step, Option.ite_none_left_eq_some, Option.some.injEq] at hstep
      obtain ⟨hopen, rfl⟩ := hstep
      rw [Intact, ← hintact]
      simp [unread, PipeLinkReader.stored, Keeps, hopen]
  | read now =>
      simp only [step, Option.ite_none_right_eq_some, Option.some.injEq] at hstep
      obtain ⟨hcall, rfl⟩ := hstep
      refine iff_of_true ?_ trivial
      rw [Intact, progress_sent, (progress_spec (read_goesOn h hcall now)).2]
      exact hintact
  | poll now =>
      obtain ⟨wait, hcall, rfl⟩ := Option.map_eq_some_iff.mp hstep
      refine iff_of_true ?_ trivial
      rw [Intact, progress_sent, (progress_spec (poll_goesOn h hcall now)).2]
      exact hintact
  | drop =>
      simp only [step, Option.ite_none_left_eq_some, Option.some.injEq] at hstep
      obtain ⟨hcall, rfl⟩ := hstep
      obtain ⟨wait, hcall⟩ := Option.ne_none_iff_exists'.mp hcall
      -- what was sent is unchanged, so the call must not have had a chunk of its own
      have hheld : Intact { p with call := none } ↔ wait.held = [] := by
        rw [Intact, ← hintact]
        simp [unread, hcall]
      rw [hheld]
      cases wait <;> simp [PipeAwait.held, Keeps, hcall]

private theorem step_calm (p : Pipe) (event : PipeEvent) (p' : Pipe) (h : Calm p)
    (hstep : p.step event = some p') : Calm p' := by
  cases event with
  | send msg now =>
      simp only [step, Option.ite_none_left_eq_some, Option.some.injEq] at hstep
      obtain ⟨_, rfl⟩ := hstep
      refine ⟨⟨h.quiet.expiration, h.quiet.closed⟩, ?_⟩
      intro wait hcall
      have hagrees := h.agrees wait hcall
      cases wait <;> exact hagrees
  | close =>
      cases hstep
      refine ⟨⟨h.quiet.expiration, fun _ => rfl⟩, ?_⟩
      intro wait hcall
      have hagrees := h.agrees wait hcall
      cases wait <;> exact hagrees
  | release =>
      simp only [step, Option.ite_none_left_eq_some, Option.some.injEq] at hstep
      obtain ⟨_, rfl⟩ := hstep
      refine ⟨⟨h.quiet.expiration, fun _ => rfl⟩, ?_⟩
      intro wait hcall
      have hagrees := h.agrees wait hcall
      cases wait <;> exact hagrees
  | read now =>
      simp only [step, Option.ite_none_right_eq_some, Option.some.injEq] at hstep
      obtain ⟨hcall, rfl⟩ := hstep
      exact (progress_spec (read_goesOn h hcall now)).1
  | poll now =>
      obtain ⟨wait, hcall, rfl⟩ := Option.map_eq_some_iff.mp hstep
      exact (progress_spec (poll_goesOn h hcall now)).1
  | drop =>
      simp only [step, Option.ite_none_left_eq_some, Option.some.injEq] at hstep
      obtain ⟨_, rfl⟩ := hstep
      refine ⟨h.quiet, ?_⟩
      intro wait hcall
      cases hcall

private theorem keeps_of_stuck {event : PipeEvent} (h : p.step event = none) : p.Keeps event := by
  cases event with
  | drop =>
      intro msg timestamp hcall
      simp [step, hcall] at h
  | send msg now => trivial
  | close => trivial
  | release =>
      intro hopen
      simp [step, hopen] at h
  | read now => trivial
  | poll now => trivial

private theorem read_returns {msg : List UInt8} {rest : List (List UInt8)} (h : Calm p)
    (hcall : p.call = none) (hunread : p.unread = msg :: rest) :
    ∃ time, ∀ now, time ≤ now → ∃ p', p.step (.read now) = some p' ∧ p'.call = none ∧
      p'.returned = p.returned ++ [msg] ∧ p'.unread = rest := by
  have hstored : p.reader.stored = msg :: rest := by simpa [unread, hcall] using hunread
  obtain ⟨time, hready⟩ := PipeLinkReader.read_ready h.quiet hstored
  refine ⟨time, ?_⟩
  intro now hnow
  have hout := hready now hnow
  have hchunks := (read_goesOn h hcall now).chunks
  rw [hout, hunread] at hchunks
  refine ⟨p.progress (p.reader.read now), if_pos hcall, ?_, ?_, ?_⟩
  · simp only [progress, hout]
  · simp only [progress, hout]
    rfl
  · simp only [progress, hout, unread]
    exact List.tail_eq_of_cons_eq hchunks

/-- Without expiration and cancelation no chunk is lost exactly as long as no call is dropped that
has taken over the chunk of a dropped call and sleeps, and the links are not both dropped while
there are chunks in the channel. Then what has been returned is how the chunks sent begin. In any
case a read that is late enough returns the next unread chunk. -/
theorem dropped_reads_lose_nothing_iff (latency : Option Nat) (events : List PipeEvent) :
    (AllReached step Intact (start latency) events ↔ AllSteps step Keeps (start latency) events) ∧
    ∀ p, run step (start latency) events = some p →
      (AllSteps step Keeps (start latency) events → p.returned <+: p.sent) ∧
      ∀ msg rest, p.call = none → p.unread = msg :: rest →
        ∃ time, ∀ now, time ≤ now → ∃ p', p.step (.read now) = some p' ∧ p'.call = none ∧
          p'.returned = p.returned ++ [msg] ∧ p'.unread = rest := by
  have hcalm := start_calm latency
  have hiff : AllReached step Intact (start latency) events ↔
      AllSteps step Keeps (start latency) events := by
    apply allReached_iff_allSteps step_intact_iff _ _ events hcalm rfl
    · intro p event p' hcalm _ _ hstep
      exact step_calm p event p' hcalm hstep
    · intro p event _ _ hstuck
      exact keeps_of_stuck hstuck
  refine ⟨hiff, ?_⟩
  intro p hrun
  constructor
  · intro hkeeps
    have hintact : Intact p := (hiff.mpr hkeeps).final hrun
    rw [← hintact]
    exact List.prefix_append _ _
  · intro msg rest hcall hunread
    exact read_returns (run_invariant step_calm hcalm hrun) hcall hunread

/-- The first chunk is received by a read and taken over by the next one; both are dropped in
their sleep, and the third read returns the second chunk. -/
theorem dropped_twice_loses_chunk :
    (run step (start (some 5))
      [.send [0] 0, .send [1] 0, .read 1, .drop, .read 2, .drop, .read 9, .read 10]).map
      (fun p => (p.sent, p.returned, p.call)) = some ([[0], [1]], [[1]], some .select) := by
  decide

-- both links are dropped while a chunk is in the channel, and the read returns `Closed`
example : (run step (start none) [.send [0] 0, .release, .read 1]).map
    (fun p => (p.sent, p.returned, p.call)) = some ([[0]], [], none) := by
  decide

end Pipe

end LinkSet
