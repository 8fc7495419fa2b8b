import LinkSet.Links.Connector
import LinkSet.Links.Manager
import LinkSet.Messages.Manager

/-!
# The state all states share

Besides the fields of `CommonState` the model keeps the record of a run: what the core sent to
its controller and to its links, which managers it made and which messages it inserted, in the
order it did so.
-/

namespace LinkSet

open Framework

/-- `Deadline`: the armed deadline and the interval to arm it again with. -/
structure Deadline where
  deadline : Option Nat
  interval : Option Nat

namespace Deadline

def new : Deadline := ⟨none, none⟩

/-- The sum panics when no `Instant` can hold it, which `Core.round` adds. -/
def modifyDeadlineFromNow (d : Deadline) (now timeout : Nat) : Deadline :=
  { d with deadline := some (now + timeout) }

/-- An armed deadline stays as it is. -/
def modifyRepeat (d : Deadline) (now interval : Nat) : Deadline :=
  ⟨some (d.deadline.getD (now + interval)), some interval⟩

def clearRepeat (d : Deadline) : Deadline := { d with interval := none }

def clear (_ : Deadline) : Deadline := ⟨none, none⟩

/-- The deadline after it has fired, if it is due. -/
def poll (d : Deadline) (now : Nat) : Option Deadline :=
  match d.deadline with
  | none => none
  | some due =>
      if due ≤ now then some { d with deadline := d.interval.map (now + ·) } else none

end Deadline

/-- A message of the user with its number among the messages submitted. -/
structure Submission where
  tag : Nat
  payload : Payload

/-- `LinkSetMessageInner`. -/
inductive LinkSetMessage where
  | disconnected
  | connected (epoch : Epoch)
  | attemptingConnection (active : Bool)
  | message (data : List UInt8) (epoch : Epoch)
deriving DecidableEq

/-- An entry of the record of a run. -/
inductive Effect where
  | toCtrl (msg : LinkSetMessage)
  | toLink (id : Nat) (frame : LinkProtocol)
  | newManager (epoch : Epoch)
  | inserted (tag : Nat) (epoch : Epoch) (seq : Nat)
deriving DecidableEq

/-- The record of frames handed to links. -/
def wire (frames : List Sent) : List Effect := frames.map fun f => .toLink f.1 f.2

structure CommonState where
  /-- The messages submitted so far and the epochs they were submitted for. -/
  submitted : List (Payload × Option Epoch)
  record : List Effect
  nextLinkId : Nat
  readers : List Nat
  isActive : Bool
  timer : Deadline
  autoConnect : Bool
  connectingTimeout : Option Nat
  reconnectingTimeout : Option Nat
  gracePeriodTimeout : Option Nat

namespace CommonState

def new : CommonState where
  submitted := []
  record := []
  nextLinkId := 0
  readers := []
  isActive := false
  timer := Deadline.new
  autoConnect := true
  connectingTimeout := some (seconds 60)
  reconnectingTimeout := some 0
  gracePeriodTimeout := some 0

def log (c : CommonState) (effects : List Effect) : CommonState :=
  { c with record := c.record ++ effects }

/-- `get_to_ctrl().send(msg)`. It waits while the channel is full, in the middle of the round, and
its result is ignored: what is sent after the reader is dropped is lost. -/
def send (c : CommonState) (msg : LinkSetMessage) : CommonState := c.log [.toCtrl msg]

/-- Record frames handed to links. -/
def sent (c : CommonState) (frames : List Sent) : CommonState := c.log (wire frames)

/-- Send the messages that a `take_recvd` returned to the controller, as `send` does. An
acknowledgement of them has left earlier in the round. -/
def deliver (c : CommonState) (epoch : Epoch) (msgs : List (List UInt8)) : CommonState :=
  c.log (msgs.map fun msg => .toCtrl (.message msg epoch))

/-- `get_timer().f()`. -/
def modifyTimer (c : CommonState) (f : Deadline → Deadline) : CommonState :=
  { c with timer := f c.timer }

def setActive (c : CommonState) (active : Bool) : CommonState := { c with isActive := active }

/-- A link too small for a slice or without a reader is refused, and its id is used up. -/
def wrapLink (c : CommonState) (link : Link) : Option (Option LinkEntry × CommonState) := do
  let id := c.nextLinkId
  let nextLinkId ← checkedAdd c.nextLinkId 1
  let c := { c with nextLinkId }
  if link.maxSize ≤ LinkEntry.overhead then return (none, c)
  else if link.takeReader then
    return (some (LinkEntry.new link id), { c with readers := c.readers ++ [id] })
  else return (none, c)

@[simp] theorem log_record (c : CommonState) (effects : List Effect) :
    (c.log effects).record = c.record ++ effects := rfl

@[simp] theorem send_record (c : CommonState) (msg : LinkSetMessage) :
    (c.send msg).record = c.record ++ [.toCtrl msg] := rfl

@[simp] theorem sent_record (c : CommonState) (frames : List Sent) :
    (c.sent frames).record = c.record ++ wire frames := rfl

@[simp] theorem deliver_record (c : CommonState) (epoch : Epoch) (msgs : List (List UInt8)) :
    (c.deliver epoch msgs).record = c.record ++ msgs.map fun msg => .toCtrl (.message msg epoch) :=
  rfl

@[simp] theorem modifyTimer_record (c : CommonState) (f : Deadline → Deadline) :
    (c.modifyTimer f).record = c.record := rfl

@[simp] theorem setActive_record (c : CommonState) (active : Bool) :
    (c.setActive active).record = c.record := rfl

theorem wrapLink_record {c c' : CommonState} {link : Link} {entry : Option LinkEntry}
    (h : c.wrapLink link = some (entry, c')) : c'.record = c.record := by
  obtain ⟨next, _, h⟩ := Option.bind_eq_some_iff.mp h
  simp only at h
  split at h
  · obtain ⟨_, rfl⟩ := Prod.mk.inj (Option.some.inj h)
    rfl
  · split at h
    · obtain ⟨_, rfl⟩ := Prod.mk.inj (Option.some.inj h)
      rfl
    · obtain ⟨_, rfl⟩ := Prod.mk.inj (Option.some.inj h)
      rfl

end CommonState

end LinkSet
