import LinkSet.Core.States

/-!
# The event loop of the core

Each state handles control commands, link frames, the timer and debug commands in its own way;
the core passes every event to its current state and replaces the state by what comes back.
-/

namespace LinkSet

open Framework

/-- `LinkSetControlCommand`, over the type of the messages it carries. -/
inductive LinkSetControlCommand (μ : Type) where
  | connect
  | disconnect
  | addConnector (conn : Connector)
  | addAddress (addr : ConnectorManagerAddress)
  | addLink (link : Link)
  | message (data : μ) (epoch : Option Epoch)

inductive LinkSetControlConfig where
  | autoConnect (connect : Bool)
  | connectTimeout (timeout : Option Nat)
  | reconnectTimeout (timeout : Option Nat)
  | gracePeriod (timeout : Option Nat)

/-- `DebugCommand` without the channel of its reply. -/
inductive DebugCommand where
  | snapshot
  | evictLink (id : Nat)

/-- What a handler returns. -/
abbrev Handled := Option (States × CommonState)

namespace Disconnected

def ctrlMsg (s : Disconnected) (c : CommonState) (now : Nat) :
    LinkSetControlCommand Submission → Handled
  | .connect =>
      let (s, c) := Connecting.fromDisconnected s c now
      some (.connecting s, c)
  | .disconnect => some (.disconnected s, c)
  | .addConnector conn => some (.disconnected { s with conns := ConnectorSet.add s.conns conn }, c)
  | .addAddress addr => some (.disconnected { s with addrs := AddressSet.add s.addrs addr }, c)
  | .addLink link => do
      let (entry, c) ← c.wrapLink link
      match entry with
      | some link =>
          let (s, c) := EpochMismatch.fromDisconnected s c now link
          return (.epochMismatch s, c)
      | none => return (.disconnected s, c)
  | .message data epoch =>
      if c.autoConnect ∧ epoch = none then
        let (s, c) := Connecting.fromDisconnectedWith s c now data
        some (.connecting s, c)
      else some (.disconnected s, c)

def linkMsg (s : Disconnected) (c : CommonState) : Handled :=
  some (.disconnected s, { c with readers := [] })

def timer (s : Disconnected) (c : CommonState) : Handled :=
  some (.disconnected s, c.modifyTimer Deadline.clear)

end Disconnected

namespace Connecting

def ctrlMsg (s : Connecting) (c : CommonState) (now : Nat) :
    LinkSetControlCommand Submission → Handled
  | .connect => some (.connecting s, c)
  | .disconnect =>
      let (s, c) := Disconnected.fromConnecting s c
      some (.disconnected s, c)
  | .addConnector conn => do
      let connector ← s.connector.addConnector conn
      return (.connecting { s with connector }, c)
  | .addAddress addr => some (.connecting { s with connector := s.connector.addAddr addr }, c)
  | .addLink link => do
      let (entry, c) ← c.wrapLink link
      match entry with
      | some link =>
          let (s, c) := EpochMismatch.fromConnecting s c now link
          return (.epochMismatch s, c)
      | none => return (.connecting s, c)
  | .message data epoch =>
      if epoch = none then some (.connecting { s with queuedMsgs := s.queuedMsgs ++ [data] }, c)
      else some (.connecting s, c)

def linkMsg (s : Connecting) (c : CommonState) : Handled := some (.connecting s, c)

def timer (s : Connecting) (c : CommonState) : Handled :=
  let (s, c) := Disconnected.fromConnecting s (c.modifyTimer Deadline.clear)
  some (.disconnected s, c)

end Connecting

namespace EpochMismatch

def ctrlMsg (s : EpochMismatch) (c : CommonState) : LinkSetControlCommand Submission → Handled
  | .connect => some (.epochMismatch s, c)
  | .disconnect =>
      let (s, c) := Disconnected.fromEpochMismatch s c
      some (.disconnected s, c)
  | .addConnector conn => some (.epochMismatch { s with conns := ConnectorSet.add s.conns conn }, c)
  | .addAddress addr => some (.epochMismatch { s with addrs := AddressSet.add s.addrs addr }, c)
  | .addLink link => do
      let (entry, c) ← c.wrapLink link
      match entry with
      | some link => return (.epochMismatch { s with links := s.links.addLink link }, c)
      | none => return (.epochMismatch s, c)
  | .message data epoch =>
      if epoch = none then some (.epochMismatch { s with queuedMsgs := s.queuedMsgs ++ [data] }, c)
      else some (.epochMismatch s, c)

/-- `link_msg` on a `Reset`. -/
def linkReset (s : EpochMismatch) (c : CommonState) (now : Nat) (epoch : Option Epoch)
    (request : Bool) : Handled :=
  match compareEpochs s.epoch epoch with
  | .gt =>
      let out := s.links.reset s.epoch false
      some (.epochMismatch { s with links := out.links }, c.sent out.frames)
  | .eq => do
      let (links, c) :=
        if request then
          let out := s.links.reset s.epoch false
          (out.links, c.sent out.frames)
        else (s.links, c)
      let epoch ← s.epoch
      let (s, c) ← Connected.fromEpochMismatch { s with links } c now epoch
      return (.connected s, c)
  | .lt => do
      let s := { s with epoch := epoch }
      let epoch := s.epoch.getD Epoch.one
      let out := s.links.reset (some epoch) false
      let (s, c) ← Connected.fromEpochMismatch { s with links := out.links } (c.sent out.frames)
        now epoch
      return (.connected s, c)

def linkMsg (s : EpochMismatch) (c : CommonState) (now id : Nat) : LinkProtocol → Handled
  | .reset epoch request => s.linkReset c now epoch request
  | .ack _ _ _ => some (.epochMismatch s, c)
  | .msgSlice _ _ _ _ _ => some (.epochMismatch s, c)
  | .ping =>
      let (links, pongs) := s.links.pong id
      some (.epochMismatch { s with links }, c.sent pongs)
  | .pong => some (.epochMismatch { s with links := s.links.endPing id now }, c)

def timer (s : EpochMismatch) (c : CommonState) (now : Nat) : Handled :=
  let (links, pings) := s.links.upkeep.pingAll now
  let s := { s with links }
  let c := c.sent pings
  if s.links.isEmpty then
    if c.autoConnect then
      let (s, c) := Connecting.fromEpochMismatch s c now
      some (.connecting s, c)
    else
      let (s, c) := Disconnected.fromEpochMismatch s c
      some (.disconnected s, c)
  else
    let out := s.links.reset s.epoch true
    some (.epochMismatch { s with links := out.links }, c.sent out.frames)

end EpochMismatch

namespace Connected

def determineState (s : Connected) (c : CommonState) (now : Nat) : Handled :=
  if s.links.isEmpty then
    if c.reconnectingTimeout ≠ some 0 then
      let (s, c) := Reconnecting.fromConnected s c now
      some (.reconnecting s, c)
    else if c.gracePeriodTimeout ≠ some 0 then
      let (s, c) := GracePeriod.fromConnected s c now
      some (.gracePeriod s, c)
    else
      let (s, c) := Disconnected.fromConnected s c
      some (.disconnected s, c)
  else some (.connected s, c)

/-- `if let Some(slice_mgr) = .. { links.send_slices(slice_mgr) }`. -/
def sendIfSome (links : LinkManager) (c : CommonState) :
    Option SliceManager → Option (LinkManager × CommonState)
  | some sliceMgr => (links.sendSlices sliceMgr).map fun out => (out.links, c.sent out.frames)
  | none => some (links, c)

def ctrlMsg (s : Connected) (c : CommonState) (now : Nat) :
    LinkSetControlCommand Submission → Handled
  | .connect => some (.connected s, c)
  | .disconnect =>
      let (s, c) := Disconnected.fromConnected s c
      some (.disconnected s, c)
  | .addConnector conn => some (.connected { s with conns := ConnectorSet.add s.conns conn }, c)
  | .addAddress addr => some (.connected { s with addrs := AddressSet.add s.addrs addr }, c)
  | .addLink link => do
      let (entry, c) ← c.wrapLink link
      match entry with
      | some link => return (.connected { s with links := s.links.addLink link }, c)
      | none => return (.connected s, c)
  | .message data epoch =>
      if epoch ≠ none ∧ epoch ≠ some s.epoch then some (.connected s, c)
      else do
        let (seq, msgMgr) ← s.msgMgr.insertMsg data.payload.bytes
        let c := c.log [.inserted data.tag msgMgr.epoch seq]
        let (links, c) ← sendIfSome s.links c (msgMgr.getOutgoingSlice seq)
        determineState { s with msgMgr, links } c now

/-- `link_msg` on a `Reset`. -/
def linkReset (s : Connected) (c : CommonState) (now : Nat) (epoch : Option Epoch)
    (request : Bool) : Handled :=
  if request then
    if epoch = some s.epoch then
      let out := s.links.reset (some s.epoch) false
      determineState { s with links := out.links } (c.sent out.frames) now
    else
      let (s, c) := EpochMismatch.fromConnected s c now
      some (.epochMismatch s, c)
  else some (.connected s, c)

/-- `link_msg` on a `MsgSlice`. -/
def linkSlice (s : Connected) (c : CommonState) (now epoch seq seqLen firstIndex : Nat)
    (data : List UInt8) : Handled :=
  if epoch = s.epoch.toInt then do
    let (shouldAck, msgMgr) ← s.msgMgr.recv seq firstIndex seqLen data
    let (links, c) :=
      if shouldAck then
        let out := s.links.ack s.epoch msgMgr.lastAck
        (out.links, c.sent out.frames)
      else (s.links, c)
    let (msgs, msgMgr) ← msgMgr.takeRecvd
    determineState { s with msgMgr, links } (c.deliver s.epoch msgs) now
  else some (.connected s, c)

def linkMsg (s : Connected) (c : CommonState) (now id : Nat) : LinkProtocol → Handled
  | .reset epoch request => s.linkReset c now epoch request
  | .ack epoch seq lastIndex =>
      if epoch = s.epoch.toInt then
        some (.connected { s with msgMgr := s.msgMgr.recvAck (seq, lastIndex) }, c)
      else some (.connected s, c)
  | .msgSlice epoch seq seqLen firstIndex data => s.linkSlice c now epoch seq seqLen firstIndex data
  | .ping =>
      let (links, pongs) := s.links.pong id
      some (.connected { s with links }, c.sent pongs)
  | .pong => some (.connected { s with links := s.links.endPing id now }, c)

/-- `last_ping` is never renewed, so once it is due every timer pings. -/
def pingIfDue (s : Connected) (now : Nat) : LinkManager × List Sent :=
  if pingInterval < now - s.lastPing then s.links.pingAll now else (s.links, [])

def timer (s : Connected) (c : CommonState) (now : Nat) : Handled := do
  let (links, pings) := s.pingIfDue now
  let c := c.sent pings
  let links := links.upkeep
  -- the earliest sequence only
  let (links, c) ← sendIfSome links c
    (if links.isEmpty then none else s.msgMgr.getOutgoingSlices.head?)
  determineState { s with links } c now

end Connected

/-- `link_msg` on a `MsgSlice` in the two states without links: what arrives is taken, but
cannot be acknowledged. -/
def recvDetached (mgr : MessageManager) (epoch : Epoch) (c : CommonState)
    (seq seqLen firstIndex : Nat) (data : List UInt8) : Option (MessageManager × CommonState) := do
  let (_, mgr) ← mgr.recv seq firstIndex seqLen data
  let (msgs, mgr) ← mgr.takeRecvd
  return (mgr, c.deliver epoch msgs)

/-- `link_msg` of the two states without links, where `stay` puts the manager back into the
state. -/
def linkDetached (mgr : MessageManager) (epoch : Epoch) (c : CommonState)
    (stay : MessageManager → States) (leave : States × CommonState) : LinkProtocol → Handled
  | .reset ep request =>
      -- the comments speak of a mismatched epoch, the code leaves on the matching one
      if request ∧ ep = some epoch then some leave else some (stay mgr, c)
  | .ack ep seq lastIndex =>
      if ep = epoch.toInt then some (stay (mgr.recvAck (seq, lastIndex)), c)
      else some (stay mgr, c)
  | .msgSlice ep seq seqLen firstIndex data =>
      if ep = epoch.toInt then do
        let (mgr, c) ← recvDetached mgr epoch c seq seqLen firstIndex data
        return (stay mgr, c)
      else some (stay mgr, c)
  | .ping => some (stay mgr, c)
  | .pong => some (stay mgr, c)

namespace Reconnecting

def ctrlMsg (s : Reconnecting) (c : CommonState) (now : Nat) :
    LinkSetControlCommand Submission → Handled
  | .connect => some (.reconnecting s, c)
  | .disconnect =>
      let (s, c) := Disconnected.fromReconnecting s c
      some (.disconnected s, c)
  | .addConnector conn => do
      let connector ← s.connector.addConnector conn
      return (.reconnecting { s with connector }, c)
  | .addAddress addr => some (.reconnecting { s with connector := s.connector.addAddr addr }, c)
  | .addLink link => do
      let (entry, c) ← c.wrapLink link
      match entry with
      | some link =>
          let (s, c) := Connected.fromReconnecting s c now link
          return (.connected s, c)
      | none => return (.reconnecting s, c)
  | .message data epoch =>
      if epoch ≠ none ∧ epoch ≠ some s.epoch then some (.reconnecting s, c)
      else do
        let (seq, msgMgr) ← s.msgMgr.insertMsg data.payload.bytes
        return (.reconnecting { s with msgMgr }, c.log [.inserted data.tag msgMgr.epoch seq])

def linkMsg (s : Reconnecting) (c : CommonState) (now : Nat) : LinkProtocol → Handled :=
  let (next, c') := Connecting.fromReconnecting s c now
  linkDetached s.msgMgr s.epoch c (fun msgMgr => .reconnecting { s with msgMgr })
    (.connecting next, c')

def timer (s : Reconnecting) (c : CommonState) (now : Nat) : Handled :=
  if c.autoConnect then
    let (s, c) := Connecting.fromReconnecting s c now
    some (.connecting s, c)
  else
    let (s, c) := Disconnected.fromReconnecting s c
    some (.disconnected s, c)

end Reconnecting

namespace GracePeriod

def ctrlMsg (s : GracePeriod) (c : CommonState) (now : Nat) :
    LinkSetControlCommand Submission → Handled
  | .connect => some (.gracePeriod s, c)
  | .disconnect =>
      let (s, c) := Disconnected.fromGracePeriod s c
      some (.disconnected s, c)
  | .addConnector conn => some (.gracePeriod { s with conns := ConnectorSet.add s.conns conn }, c)
  | .addAddress addr => some (.gracePeriod { s with addrs := AddressSet.add s.addrs addr }, c)
  | .addLink link => do
      let (entry, c) ← c.wrapLink link
      match entry with
      | some link =>
          let (s, c) := Connected.fromGracePeriod s c now link
          return (.connected s, c)
      | none => return (.gracePeriod s, c)
  | .message data epoch =>
      if epoch ≠ none ∧ epoch ≠ some s.epoch then some (.gracePeriod s, c)
      else do
        let (seq, msgMgr) ← s.msgMgr.insertMsg data.payload.bytes
        return (.gracePeriod { s with msgMgr }, c.log [.inserted data.tag msgMgr.epoch seq])

def linkMsg (s : GracePeriod) (c : CommonState) : LinkProtocol → Handled :=
  let (next, c') := Disconnected.fromGracePeriod s c
  linkDetached s.msgMgr s.epoch c (fun msgMgr => .gracePeriod { s with msgMgr })
    (.disconnected next, c')

def timer (s : GracePeriod) (c : CommonState) (now : Nat) : Handled :=
  if c.autoConnect then
    let (s, c) := Connecting.fromGracePeriod s c now
    some (.connecting s, c)
  else
    let (s, c) := Disconnected.fromGracePeriod s c
    some (.disconnected s, c)

end GracePeriod

namespace States

def ctrlMsg (s : States) (c : CommonState) (now : Nat) (cmd : LinkSetControlCommand Submission) :
    Handled :=
  match s with
  | .disconnected s => s.ctrlMsg c now cmd
  | .connecting s => s.ctrlMsg c now cmd
  | .epochMismatch s => s.ctrlMsg c cmd
  | .connected s => s.ctrlMsg c now cmd
  | .reconnecting s => s.ctrlMsg c now cmd
  | .gracePeriod s => s.ctrlMsg c now cmd

def linkMsg (s : States) (c : CommonState) (now id : Nat) (msg : LinkProtocol) : Handled :=
  match s with
  | .disconnected s => s.linkMsg c
  | .connecting s => s.linkMsg c
  | .epochMismatch s => s.linkMsg c now id msg
  | .connected s => s.linkMsg c now id msg
  | .reconnecting s => s.linkMsg c now msg
  | .gracePeriod s => s.linkMsg c msg

def timer (s : States) (c : CommonState) (now : Nat) : Handled :=
  match s with
  | .disconnected s => s.timer c
  | .connecting s => s.timer c
  | .epochMismatch s => s.timer c now
  | .connected s => s.timer c now
  | .reconnecting s => s.timer c now
  | .gracePeriod s => s.timer c now

/-- `debug`: only the two states with links have something to evict. -/
def debug (s : States) (cmd : DebugCommand) : States :=
  match s, cmd with
  | .epochMismatch s, .evictLink id => .epochMismatch { s with links := s.links.evictLink id }
  | .connected s, .evictLink id => .connected { s with links := s.links.evictLink id }
  | s, _ => s

end States

/-- The permits of an address after its connection task has taken or returned some; only a
state with a `ConnectorManager` has tasks. -/
def States.permits (s : States) (addr : Address) (count : Nat) : States :=
  match s with
  | .connecting s => .connecting { s with connector := s.connector.setPermits addr count }
  | .reconnecting s => .reconnecting { s with connector := s.connector.setPermits addr count }
  | s => s

/-- One event of the loop, or of a connection task that runs beside it. -/
inductive Event where
  | command (cmd : LinkSetControlCommand Payload)
  | config (conf : LinkSetControlConfig)
  | frame (id : Nat) (msg : LinkProtocol)
  | timer
  | debug (cmd : DebugCommand)
  | permits (addr : Address) (count : Nat)

/-- A frame as it arrives: the time, the reader and what was decoded. -/
structure Arrival where
  now : Nat
  id : Nat
  msg : LinkProtocol

structure Core where
  state : States
  common : CommonState

namespace Core

def start : Core := ⟨States.new, CommonState.new⟩

/-- Number a submitted message and pass the command on. -/
def tagged (c : CommonState) :
    LinkSetControlCommand Payload → LinkSetControlCommand Submission × CommonState
  | .connect => (.connect, c)
  | .disconnect => (.disconnect, c)
  | .addConnector conn => (.addConnector conn, c)
  | .addAddress addr => (.addAddress addr, c)
  | .addLink link => (.addLink link, c)
  | .message data epoch =>
      (.message ⟨c.submitted.length, data⟩ epoch,
        { c with submitted := c.submitted ++ [(data, epoch)] })

def configure (c : CommonState) : LinkSetControlConfig → CommonState
  | .autoConnect connect => { c with autoConnect := connect }
  | .connectTimeout timeout => { c with connectingTimeout := timeout }
  | .reconnectTimeout timeout => { c with reconnectingTimeout := timeout }
  | .gracePeriod timeout => { c with gracePeriodTimeout := timeout }

/-- One round of the loop. There is no round for a frame that no reader yields and none for a
timer that is not due; the others fail only where the source panics. -/
def handle (core : Core) (now : Nat) : Event → Handled
  | .command cmd => core.state.ctrlMsg (tagged core.common cmd).2 now (tagged core.common cmd).1
  | .config conf => some (core.state, configure core.common conf)
  | .frame id msg =>
      if id ∈ core.common.readers then core.state.linkMsg core.common now id msg else none
  | .timer => do
      let timer ← core.common.timer.poll now
      core.state.timer { core.common with timer } now
  | .debug cmd => some (core.state.debug cmd, core.common)
  | .permits addr count => some (core.state.permits addr count, core.common)

/-- An input is an event with the time it is handled at. -/
def step (core : Core) (input : Nat × Event) : Option Core :=
  (core.handle input.1 input.2).map fun r => ⟨r.1, r.2⟩

/-- A frame arrives while no command is given and no timer fires. -/
def arrive (core : Core) (a : Arrival) : Option Core := core.step (a.now, .frame a.id a.msg)

theorem arrive_eq {core : Core} {a : Arrival} (hid : a.id ∈ core.common.readers) :
    core.arrive a =
      (core.state.linkMsg core.common a.now a.id a.msg).map fun r => ⟨r.1, r.2⟩ := by
  simp only [arrive, step, handle, if_pos hid]

end Core

end LinkSet
