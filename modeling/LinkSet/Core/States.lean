import LinkSet.Core.Common

/-!
# The six states and the transitions between them

One function for every `transition_from` of the source. A transition returns the new state and
the common state; it fails only where the source panics.
-/

namespace LinkSet

open Framework

structure Disconnected where
  conns : ConnectorSet
  addrs : AddressSet
  epoch : Option Epoch

structure Connecting where
  connector : ConnectorManager
  queuedMsgs : List Submission
  epoch : Option Epoch

structure EpochMismatch where
  conns : ConnectorSet
  addrs : AddressSet
  links : LinkManager
  queuedMsgs : List Submission
  epoch : Option Epoch
  lastPing : Nat

structure Connected where
  conns : ConnectorSet
  addrs : AddressSet
  links : LinkManager
  msgMgr : MessageManager
  epoch : Epoch
  lastPing : Nat

structure Reconnecting where
  msgMgr : MessageManager
  epoch : Epoch
  connector : ConnectorManager

structure GracePeriod where
  conns : ConnectorSet
  addrs : AddressSet
  msgMgr : MessageManager
  epoch : Epoch

inductive States where
  | disconnected (s : Disconnected)
  | connecting (s : Connecting)
  | epochMismatch (s : EpochMismatch)
  | connected (s : Connected)
  | reconnecting (s : Reconnecting)
  | gracePeriod (s : GracePeriod)

def States.new : States := .disconnected ⟨SortedMap.empty, [], none⟩

def epochMismatchTimerInterval : Nat := seconds 2

def connectedTimerInterval : Nat := seconds 5

def pingInterval : Nat := seconds 30

namespace Disconnected

def fromConnecting (old : Connecting) (c : CommonState) : Disconnected × CommonState :=
  let (conns, addrs) := old.connector.cancel
  (⟨conns, addrs, old.epoch⟩,
    (c.modifyTimer Deadline.clear).send (.attemptingConnection false))

def fromEpochMismatch (old : EpochMismatch) (c : CommonState) : Disconnected × CommonState :=
  (⟨old.conns, old.addrs, optEpochIncrement old.epoch⟩, c.modifyTimer Deadline.clear)

def fromConnected (old : Connected) (c : CommonState) : Disconnected × CommonState :=
  (⟨old.conns, old.addrs, some old.epoch.increment⟩,
    ((c.send .disconnected).modifyTimer Deadline.clear).setActive false)

def fromReconnecting (old : Reconnecting) (c : CommonState) : Disconnected × CommonState :=
  let (conns, addrs) := old.connector.cancel
  (⟨conns, addrs, some old.epoch.increment⟩,
    ((c.send (.attemptingConnection false)).send .disconnected).modifyTimer Deadline.clear)

def fromGracePeriod (old : GracePeriod) (c : CommonState) : Disconnected × CommonState :=
  (⟨old.conns, old.addrs, some old.epoch.increment⟩,
    (c.modifyTimer Deadline.clear).send .disconnected)

end Disconnected

namespace Connecting

def determineTimer (c : CommonState) (now : Nat) : CommonState :=
  match c.connectingTimeout with
  | some timeout =>
      (c.modifyTimer Deadline.clearRepeat).modifyTimer fun d => d.modifyDeadlineFromNow now timeout
  | none => c.modifyTimer Deadline.clear

@[simp] theorem determineTimer_record (c : CommonState) (now : Nat) :
    (determineTimer c now).record = c.record := by
  unfold determineTimer
  split <;> rfl

def fromDisconnected (old : Disconnected) (c : CommonState) (now : Nat) :
    Connecting × CommonState :=
  (⟨ConnectorManager.start old.addrs old.conns, [], old.epoch⟩,
    determineTimer (c.send (.attemptingConnection true)) now)

def fromDisconnectedWith (old : Disconnected) (c : CommonState) (now : Nat) (msg : Submission) :
    Connecting × CommonState :=
  (⟨ConnectorManager.start old.addrs old.conns, [msg], old.epoch⟩,
    determineTimer (c.send (.attemptingConnection true)) now)

/-- The queued messages are dropped, and the epoch stays although it was transmitted. -/
def fromEpochMismatch (old : EpochMismatch) (c : CommonState) (now : Nat) :
    Connecting × CommonState :=
  (⟨ConnectorManager.start old.addrs old.conns, [], old.epoch⟩,
    determineTimer (c.send (.attemptingConnection true)) now)

def fromReconnecting (old : Reconnecting) (c : CommonState) (now : Nat) :
    Connecting × CommonState :=
  (⟨old.connector, [], some old.epoch.increment⟩, (determineTimer c now).send .disconnected)

def fromGracePeriod (old : GracePeriod) (c : CommonState) (now : Nat) : Connecting × CommonState :=
  (⟨ConnectorManager.start old.addrs old.conns, [], some old.epoch.increment⟩,
    determineTimer ((c.send .disconnected).send (.attemptingConnection true)) now)

end Connecting

namespace EpochMismatch

def fromDisconnected (old : Disconnected) (c : CommonState) (now : Nat) (link : LinkEntry) :
    EpochMismatch × CommonState :=
  let (links, pings) := (LinkManager.new.addLink link).pingAll now
  let out := links.reset old.epoch true
  (⟨old.conns, old.addrs, out.links, [], old.epoch, now⟩,
    ((c.sent pings).sent out.frames).modifyTimer fun d =>
      d.modifyRepeat now epochMismatchTimerInterval)

def fromConnecting (old : Connecting) (c : CommonState) (now : Nat) (link : LinkEntry) :
    EpochMismatch × CommonState :=
  let (conns, addrs) := old.connector.cancel
  let (links, pings) := (LinkManager.new.addLink link).pingAll now
  let out := links.reset old.epoch true
  (⟨conns, addrs, out.links, old.queuedMsgs, old.epoch, now⟩,
    (((c.sent pings).sent out.frames).send (.attemptingConnection false)).modifyTimer fun d =>
      d.modifyRepeat now epochMismatchTimerInterval)

/-- The user is not told that the session ended. -/
def fromConnected (old : Connected) (c : CommonState) (now : Nat) : EpochMismatch × CommonState :=
  let epoch := some old.epoch.increment
  let out := old.links.reset epoch true
  (⟨old.conns, old.addrs, out.links, [], epoch, old.lastPing⟩,
    ((c.sent out.frames).modifyTimer fun d =>
      d.modifyRepeat now epochMismatchTimerInterval).setActive false)

end EpochMismatch

namespace Connected

/-- One round of the loop over the queued messages. -/
def sendQueued (mgr : MessageManager) (links : LinkManager) (c : CommonState) (msg : Submission) :
    Option (MessageManager × LinkManager × CommonState) := do
  let (seq, mgr) ← mgr.insertMsg msg.payload.bytes
  let c := c.log [.inserted msg.tag mgr.epoch seq]
  let sliceMgr ← mgr.getOutgoingSlice seq
  let out ← links.sendSlices sliceMgr
  return (mgr, out.links, c.sent out.frames)

def sendAllQueued : MessageManager → LinkManager → CommonState → List Submission →
    Option (MessageManager × LinkManager × CommonState)
  | mgr, links, c, [] => some (mgr, links, c)
  | mgr, links, c, msg :: msgs =>
      (sendQueued mgr links c msg).bind fun r => sendAllQueued r.1 r.2.1 r.2.2 msgs

def fromEpochMismatch (old : EpochMismatch) (c : CommonState) (now : Nat) (epoch : Epoch) :
    Option (Connected × CommonState) := do
  let c := (c.send (.connected epoch)).log [.newManager epoch]
  let (msgMgr, links, c) ← sendAllQueued (MessageManager.new epoch) old.links c old.queuedMsgs
  return (⟨old.conns, old.addrs, links, msgMgr, epoch, old.lastPing⟩,
    ((c.modifyTimer Deadline.clear).modifyTimer fun d =>
      d.modifyRepeat now connectedTimerInterval).setActive true)

def fromReconnecting (old : Reconnecting) (c : CommonState) (now : Nat) (link : LinkEntry) :
    Connected × CommonState :=
  let (conns, addrs) := old.connector.cancel
  let (links, pings) := (LinkManager.withLink link).pingAll now
  (⟨conns, addrs, links, old.msgMgr, old.epoch, now⟩,
    ((((c.sent pings).send (.attemptingConnection false)).modifyTimer Deadline.clear).modifyTimer
      fun d => d.modifyRepeat now connectedTimerInterval).setActive true)

def fromGracePeriod (old : GracePeriod) (c : CommonState) (now : Nat) (link : LinkEntry) :
    Connected × CommonState :=
  let (links, pings) := (LinkManager.withLink link).pingAll now
  (⟨old.conns, old.addrs, links, old.msgMgr, old.epoch, now⟩,
    (((c.sent pings).modifyTimer Deadline.clear).modifyTimer fun d =>
      d.modifyRepeat now connectedTimerInterval).setActive true)

end Connected

def Reconnecting.fromConnected (old : Connected) (c : CommonState) (now : Nat) :
    Reconnecting × CommonState :=
  let c := c.send (.attemptingConnection true)
  let c := match c.reconnectingTimeout with
    | some timeout => c.modifyTimer fun d => d.modifyDeadlineFromNow now timeout
    | none => c.modifyTimer Deadline.clear
  (⟨old.msgMgr, old.epoch, ConnectorManager.start old.addrs old.conns⟩, c.setActive false)

theorem Reconnecting.fromConnected_record (old : Connected) (c : CommonState) (now : Nat) :
    (Reconnecting.fromConnected old c now).2.record =
      c.record ++ [.toCtrl (.attemptingConnection true)] := by
  unfold Reconnecting.fromConnected
  simp only
  split <;> rfl

def GracePeriod.fromConnected (old : Connected) (c : CommonState) (now : Nat) :
    GracePeriod × CommonState :=
  let c := match c.gracePeriodTimeout with
    | some timeout => c.modifyTimer fun d => d.modifyDeadlineFromNow now timeout
    | none => c.modifyTimer Deadline.clear
  (⟨old.conns, old.addrs, old.msgMgr, old.epoch⟩, c.setActive false)

theorem GracePeriod.fromConnected_record (old : Connected) (c : CommonState) (now : Nat) :
    (GracePeriod.fromConnected old c now).2.record = c.record := by
  unfold GracePeriod.fromConnected
  simp only
  split <;> rfl

end LinkSet
