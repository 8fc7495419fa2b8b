import LinkSet.Core.Handlers

/-!
# What a round of the loop can do

A handler changes what its state keeps for the session and may then leave the state by one of
the transitions. Everything that outlives a session is changed in few places: connectors and
addresses by the two commands that add them, the queue by a message, the settings by a
configuration, the timer when it fires, and all of it by transitions. `Core.step_round` says
so once, for the properties of whole runs that follow from it.
-/

namespace LinkSet

open Framework

inductive Kind where
  | disconnected
  | connecting
  | epochMismatch
  | connected
  | reconnecting
  | gracePeriod
deriving DecidableEq

/-- The part of a state that does not belong to a session: the connectors, the addresses with
the connectors that their tasks use, and the messages without an epoch. -/
structure Holding where
  kind : Kind
  conns : ConnectorSet
  handles : List (Address × Option Connector)
  queue : List Submission

/-- Addresses without tasks. -/
def AddressSet.handles (addrs : AddressSet) : List (Address × Option Connector) :=
  addrs.map fun a => (a.addr, none)

def ConnectorManager.tasks (m : ConnectorManager) : List (Address × Option Connector) :=
  m.handles.map fun h => (h.1.addr, h.2)

namespace States

def holding : States → Holding
  | .disconnected s => ⟨.disconnected, s.conns, AddressSet.handles s.addrs, []⟩
  | .connecting s => ⟨.connecting, s.connector.conns, s.connector.tasks, s.queuedMsgs⟩
  | .epochMismatch s => ⟨.epochMismatch, s.conns, AddressSet.handles s.addrs, s.queuedMsgs⟩
  | .connected s => ⟨.connected, s.conns, AddressSet.handles s.addrs, []⟩
  | .reconnecting s => ⟨.reconnecting, s.connector.conns, s.connector.tasks, []⟩
  | .gracePeriod s => ⟨.gracePeriod, s.conns, AddressSet.handles s.addrs, []⟩

def kind (s : States) : Kind := s.holding.kind

/-- The two states that keep messages for a session to come. -/
def Negotiating (s : States) : Prop := s.kind = .connecting ∨ s.kind = .epochMismatch

instance (s : States) : Decidable s.Negotiating := by
  unfold Negotiating
  infer_instance

/-- The states that a timer need not end. -/
def Waits (s : States) : Prop :=
  s.kind = .disconnected ∨ s.kind = .epochMismatch ∨ s.kind = .connected

/-- `AddConnector` in every state. -/
def addConnector (s : States) (conn : Connector) : Option States :=
  match s with
  | .disconnected s => some (.disconnected { s with conns := ConnectorSet.add s.conns conn })
  | .connecting s => (s.connector.addConnector conn).map fun connector =>
      .connecting { s with connector }
  | .epochMismatch s => some (.epochMismatch { s with conns := ConnectorSet.add s.conns conn })
  | .connected s => some (.connected { s with conns := ConnectorSet.add s.conns conn })
  | .reconnecting s => (s.connector.addConnector conn).map fun connector =>
      .reconnecting { s with connector }
  | .gracePeriod s => some (.gracePeriod { s with conns := ConnectorSet.add s.conns conn })

/-- `AddAddress` in every state. -/
def addAddress (s : States) (addr : ConnectorManagerAddress) : States :=
  match s with
  | .disconnected s => .disconnected { s with addrs := AddressSet.add s.addrs addr }
  | .connecting s => .connecting { s with connector := s.connector.addAddr addr }
  | .epochMismatch s => .epochMismatch { s with addrs := AddressSet.add s.addrs addr }
  | .connected s => .connected { s with addrs := AddressSet.add s.addrs addr }
  | .reconnecting s => .reconnecting { s with connector := s.connector.addAddr addr }
  | .gracePeriod s => .gracePeriod { s with addrs := AddressSet.add s.addrs addr }

/-- A message without an epoch in the two states that queue it. -/
def enqueue (s : States) (msg : Submission) : States :=
  match s with
  | .connecting s => .connecting { s with queuedMsgs := s.queuedMsgs ++ [msg] }
  | .epochMismatch s => .epochMismatch { s with queuedMsgs := s.queuedMsgs ++ [msg] }
  | s => s

theorem addConnector_keeps {s s' : States} {conn : Connector} (h : s.addConnector conn = some s') :
    s'.kind = s.kind ∧ s'.holding.queue = s.holding.queue := by
  cases s with
  | connecting s =>
      obtain ⟨connector, _, rfl⟩ := Option.map_eq_some_iff.mp h
      exact ⟨rfl, rfl⟩
  | reconnecting s =>
      obtain ⟨connector, _, rfl⟩ := Option.map_eq_some_iff.mp h
      exact ⟨rfl, rfl⟩
  | _ =>
      cases h
      exact ⟨rfl, rfl⟩

theorem addAddress_keeps (s : States) (addr : ConnectorManagerAddress) :
    (s.addAddress addr).kind = s.kind ∧ (s.addAddress addr).holding.queue = s.holding.queue := by
  cases s <;> exact ⟨rfl, rfl⟩

theorem enqueue_kind (s : States) (msg : Submission) : (s.enqueue msg).kind = s.kind := by
  cases s <;> rfl

end States

/-- The common states have the same flag, timer and settings. -/
structure CommonState.SameSettings (c c' : CommonState) : Prop where
  isActive : c'.isActive = c.isActive
  timer : c'.timer = c.timer
  autoConnect : c'.autoConnect = c.autoConnect
  connectingTimeout : c'.connectingTimeout = c.connectingTimeout
  reconnectingTimeout : c'.reconnectingTimeout = c.reconnectingTimeout
  gracePeriodTimeout : c'.gracePeriodTimeout = c.gracePeriodTimeout

theorem CommonState.SameSettings.refl (c : CommonState) : c.SameSettings c := by
  constructor <;> rfl

theorem CommonState.SameSettings.trans {c c' c'' : CommonState} (h : c.SameSettings c')
    (h' : c'.SameSettings c'') : c.SameSettings c'' :=
  ⟨h'.isActive.trans h.isActive, h'.timer.trans h.timer, h'.autoConnect.trans h.autoConnect,
    h'.connectingTimeout.trans h.connectingTimeout,
    h'.reconnectingTimeout.trans h.reconnectingTimeout,
    h'.gracePeriodTimeout.trans h.gracePeriodTimeout⟩

private theorem CommonState.SameSettings.log (c : CommonState) (effects : List Effect) :
    c.SameSettings (c.log effects) := by
  constructor <;> rfl

theorem Core.tagged_sameSettings (c : CommonState) (cmd : LinkSetControlCommand Payload) :
    c.SameSettings (Core.tagged c cmd).2 := by
  cases cmd <;> constructor <;> rfl

private theorem CommonState.wrapLink_sameSettings {c c' : CommonState} {link : Link}
    {entry : Option LinkEntry} (h : c.wrapLink link = some (entry, c')) : c.SameSettings c' := by
  obtain ⟨next, _, h⟩ := Option.bind_eq_some_iff.mp h
  simp only at h
  split at h
  · cases h
    constructor <;> rfl
  · split at h
    · cases h
      constructor <;> rfl
    · cases h
      constructor <;> rfl

/-- Only what belongs to a session, or is recorded, may have changed. -/
structure Alike (s : States) (c : CommonState) (r : States × CommonState) : Prop where
  holding : r.1.holding = s.holding
  settings : c.SameSettings r.2

theorem Alike.kind {s : States} {c : CommonState} {r : States × CommonState} (h : Alike s c r) :
    r.1.kind = s.kind :=
  congrArg Holding.kind h.holding

/-- The transitions that are in use, but for the one that a message triggers. -/
inductive Transition (now : Nat) : States → CommonState → States × CommonState → Prop where
  | connect (s c) : Transition now (.disconnected s) c
      (Prod.map .connecting id (Connecting.fromDisconnected s c now))
  | firstLink (s c link) : Transition now (.disconnected s) c
      (Prod.map .epochMismatch id (EpochMismatch.fromDisconnected s c now link))
  | giveUp (s c) : Transition now (.connecting s) c
      (Prod.map .disconnected id (Disconnected.fromConnecting s c))
  | linkMade (s c link) : Transition now (.connecting s) c
      (Prod.map .epochMismatch id (EpochMismatch.fromConnecting s c now link))
  | abandon (s c) : Transition now (.epochMismatch s) c
      (Prod.map .disconnected id (Disconnected.fromEpochMismatch s c))
  | retry (s c) : Transition now (.epochMismatch s) c
      (Prod.map .connecting id (Connecting.fromEpochMismatch s c now))
  | agree (s c) {epoch r} (h : Connected.fromEpochMismatch s c now epoch = some r) :
      Transition now (.epochMismatch s) c (Prod.map .connected id r)
  | lose (s c) : Transition now (.connected s) c
      (Prod.map .disconnected id (Disconnected.fromConnected s c))
  | mismatch (s c) : Transition now (.connected s) c
      (Prod.map .epochMismatch id (EpochMismatch.fromConnected s c now))
  | reconnect (s c) : Transition now (.connected s) c
      (Prod.map .reconnecting id (Reconnecting.fromConnected s c now))
  | wait (s c) : Transition now (.connected s) c
      (Prod.map .gracePeriod id (GracePeriod.fromConnected s c now))
  | reconnectEnds (s c) : Transition now (.reconnecting s) c
      (Prod.map .disconnected id (Disconnected.fromReconnecting s c))
  | reconnectRestarts (s c) : Transition now (.reconnecting s) c
      (Prod.map .connecting id (Connecting.fromReconnecting s c now))
  | reconnected (s c link) : Transition now (.reconnecting s) c
      (Prod.map .connected id (Connected.fromReconnecting s c now link))
  | graceEnds (s c) : Transition now (.gracePeriod s) c
      (Prod.map .disconnected id (Disconnected.fromGracePeriod s c))
  | graceRestarts (s c) : Transition now (.gracePeriod s) c
      (Prod.map .connecting id (Connecting.fromGracePeriod s c now))
  | returned (s c link) : Transition now (.gracePeriod s) c
      (Prod.map .connected id (Connected.fromGracePeriod s c now link))

/-- A handler stays in its state or leaves it. -/
inductive Course (now : Nat) (s : States) (c : CommonState) : States × CommonState → Prop where
  | stays {r} (h : Alike s c r) : Course now s c r
  | leaves {m c' r} (t : Transition now m c' r) (h : Alike s c (m, c')) : Course now s c r
  -- the handler of `Disconnected` for its timer
  | clears (h : s.kind = .disconnected) : Course now s c (s, c.modifyTimer Deadline.clear)

private theorem Course.leaves_at_once {now : Nat} {s : States} {c : CommonState}
    {r : States × CommonState} (t : Transition now s c r) : Course now s c r :=
  .leaves t ⟨rfl, .refl c⟩

private theorem Course.idle {now : Nat} {s : States} {c : CommonState} : Course now s c (s, c) :=
  .stays ⟨rfl, .refl c⟩

/-- What a command does. -/
inductive Obeys (now : Nat) (s : States) (c : CommonState) :
    LinkSetControlCommand Submission → States × CommonState → Prop where
  | connector {conn s'} (h : s.addConnector conn = some s') :
      Obeys now s c (.addConnector conn) (s', c)
  | address (addr) : Obeys now s c (.addAddress addr) (s.addAddress addr, c)
  | enqueue (msg) (h : s.Negotiating) : Obeys now s c (.message msg none) (s.enqueue msg, c)
  | connectFor {d} (hs : s = .disconnected d) (hauto : c.autoConnect = true) (msg) :
      Obeys now s c (.message msg none)
        (Prod.map .connecting id (Connecting.fromDisconnectedWith d c now msg))
  | connect {r} (h : Course now s c r) : Obeys now s c .connect r
  | disconnect {r} (h : Course now s c r) : Obeys now s c .disconnect r
  | link {r} (link) (h : Course now s c r) : Obeys now s c (.addLink link) r
  | message {r} (msg epoch) (hqueued : ¬(epoch = none ∧ s.Negotiating))
      (hbegins : r.1.Negotiating → s.Negotiating) (h : Course now s c r) :
      Obeys now s c (.message msg epoch) r

section handlers

variable {now : Nat} {c : CommonState} {r : States × CommonState}

private theorem Disconnected.ctrlMsg_obeys {s : Disconnected}
    {cmd : LinkSetControlCommand Submission} (h : s.ctrlMsg c now cmd = some r) :
    Obeys now (.disconnected s) c cmd r := by
  cases cmd with
  | connect =>
      cases h
      exact .connect (.leaves_at_once (.connect s c))
  | disconnect =>
      cases h
      exact .disconnect .idle
  | addConnector conn =>
      cases h
      exact .connector rfl
  | addAddress addr =>
      cases h
      exact .address addr
  | addLink link =>
      obtain ⟨⟨entry, c'⟩, hwrap, h⟩ := Option.bind_eq_some_iff.mp h
      have hsame : Alike (.disconnected s) c (.disconnected s, c') :=
        ⟨rfl, CommonState.wrapLink_sameSettings hwrap⟩
      cases entry with
      | none =>
          cases h
          exact .link link (.stays hsame)
      | some entry =>
          cases h
          exact .link link (.leaves (.firstLink s c' entry) hsame)
  | message msg epoch =>
      simp only [ctrlMsg] at h
      split at h
      · next hauto =>
          cases h
          obtain rfl := hauto.2
          exact .connectFor rfl hauto.1 msg
      · cases h
        exact .message msg epoch (by simp [States.Negotiating, States.kind, States.holding]) id
          .idle

private theorem Connecting.ctrlMsg_obeys {s : Connecting} {cmd : LinkSetControlCommand Submission}
    (h : s.ctrlMsg c now cmd = some r) : Obeys now (.connecting s) c cmd r := by
  cases cmd with
  | connect =>
      cases h
      exact .connect .idle
  | disconnect =>
      cases h
      exact .disconnect (.leaves_at_once (.giveUp s c))
  | addConnector conn =>
      obtain ⟨connector, hconn, h⟩ := Option.bind_eq_some_iff.mp h
      cases h
      exact .connector (by simp [States.addConnector, hconn])
  | addAddress addr =>
      cases h
      exact .address addr
  | addLink link =>
      obtain ⟨⟨entry, c'⟩, hwrap, h⟩ := Option.bind_eq_some_iff.mp h
      have hsame : Alike (.connecting s) c (.connecting s, c') :=
        ⟨rfl, CommonState.wrapLink_sameSettings hwrap⟩
      cases entry with
      | none =>
          cases h
          exact .link link (.stays hsame)
      | some entry =>
          cases h
          exact .link link (.leaves (.linkMade s c' entry) hsame)
  | message msg epoch =>
      simp only [ctrlMsg] at h
      split at h
      · next hnone =>
          cases h
          obtain rfl := hnone
          exact .enqueue msg (Or.inl rfl)
      · next hsome =>
          cases h
          exact .message msg epoch (fun hq => hsome hq.1) id .idle

private theorem EpochMismatch.ctrlMsg_obeys {s : EpochMismatch}
    {cmd : LinkSetControlCommand Submission} (h : s.ctrlMsg c cmd = some r) :
    Obeys now (.epochMismatch s) c cmd r := by
  cases cmd with
  | connect =>
      cases h
      exact .connect .idle
  | disconnect =>
      cases h
      exact .disconnect (.leaves_at_once (.abandon s c))
  | addConnector conn =>
      cases h
      exact .connector rfl
  | addAddress addr =>
      cases h
      exact .address addr
  | addLink link =>
      obtain ⟨⟨entry, c'⟩, hwrap, h⟩ := Option.bind_eq_some_iff.mp h
      have hsame := CommonState.wrapLink_sameSettings hwrap
      cases entry with
      | none =>
          cases h
          exact .link link (.stays ⟨rfl, hsame⟩)
      | some entry =>
          cases h
          exact .link link (.stays ⟨rfl, hsame⟩)
  | message msg epoch =>
      simp only [ctrlMsg] at h
      split at h
      · next hnone =>
          cases h
          obtain rfl := hnone
          exact .enqueue msg (Or.inr rfl)
      · next hsome =>
          cases h
          exact .message msg epoch (fun hq => hsome hq.1) id .idle

private theorem EpochMismatch.linkMsg_course {s : EpochMismatch} {id : Nat} {msg : LinkProtocol}
    (h : s.linkMsg c now id msg = some r) : Course now (.epochMismatch s) c r := by
  cases msg with
  | reset epoch request =>
      simp only [linkMsg, linkReset] at h
      split at h
      · cases h
        exact .stays ⟨rfl, .log c _⟩
      · obtain ⟨epoch, _, h⟩ := Option.bind_eq_some_iff.mp h
        obtain ⟨r', hagree, h⟩ := Option.bind_eq_some_iff.mp h
        cases h
        refine .leaves (.agree _ _ hagree) ⟨rfl, ?_⟩
        cases request with
        | false => exact .refl c
        | true => exact .log c _
      · obtain ⟨r', hagree, h⟩ := Option.bind_eq_some_iff.mp h
        cases h
        exact .leaves (.agree _ _ hagree) ⟨rfl, .log c _⟩
  | ack epoch seq lastIndex =>
      cases h
      exact .idle
  | msgSlice epoch seq seqLen firstIndex data =>
      cases h
      exact .idle
  | ping =>
      cases h
      exact .stays ⟨rfl, .log c _⟩
  | pong =>
      cases h
      exact .stays ⟨rfl, .refl c⟩

private theorem EpochMismatch.timer_course {s : EpochMismatch} (h : s.timer c now = some r) :
    Course now (.epochMismatch s) c r := by
  simp only [timer] at h
  split at h
  · split at h
    · cases h
      exact .leaves (.retry _ _) ⟨rfl, .log c _⟩
    · cases h
      exact .leaves (.abandon _ _) ⟨rfl, .log c _⟩
  · cases h
    exact .stays ⟨rfl, (CommonState.SameSettings.log c _).trans (.log _ _)⟩

private theorem Connected.determineState_course {s s' : Connected} {c' : CommonState}
    (h : determineState s' c' now = some r) (halike : Alike (.connected s) c (.connected s', c')) :
    Course now (.connected s) c r := by
  unfold determineState at h
  split at h
  · split at h
    · cases h
      exact .leaves (.reconnect s' c') halike
    split at h
    · cases h
      exact .leaves (.wait s' c') halike
    · cases h
      exact .leaves (.lose s' c') halike
  · cases h
    exact .stays halike

private theorem Connected.determineState_negotiating {s : Connected}
    (h : determineState s c now = some r) : ¬r.1.Negotiating := by
  unfold determineState at h
  split at h
  · split at h
    · cases h
      nofun
    split at h
    · cases h
      nofun
    · cases h
      nofun
  · cases h
    nofun

private theorem Connected.sendIfSome_sameSettings {links links' : LinkManager} {c' : CommonState}
    {mgr : Option SliceManager} (h : sendIfSome links c mgr = some (links', c')) :
    c.SameSettings c' := by
  cases mgr with
  | none =>
      cases h
      exact .refl c
  | some mgr =>
      obtain ⟨out, _, hout⟩ := Option.map_eq_some_iff.mp h
      cases hout
      exact .log c _

private theorem Connected.ctrlMsg_obeys {s : Connected} {cmd : LinkSetControlCommand Submission}
    (h : s.ctrlMsg c now cmd = some r) : Obeys now (.connected s) c cmd r := by
  cases cmd with
  | connect =>
      cases h
      exact .connect .idle
  | disconnect =>
      cases h
      exact .disconnect (.leaves_at_once (.lose s c))
  | addConnector conn =>
      cases h
      exact .connector rfl
  | addAddress addr =>
      cases h
      exact .address addr
  | addLink link =>
      obtain ⟨⟨entry, c'⟩, hwrap, h⟩ := Option.bind_eq_some_iff.mp h
      have hsame := CommonState.wrapLink_sameSettings hwrap
      cases entry with
      | none =>
          cases h
          exact .link link (.stays ⟨rfl, hsame⟩)
      | some entry =>
          cases h
          exact .link link (.stays ⟨rfl, hsame⟩)
  | message msg epoch =>
      have hqueued : ¬(epoch = none ∧ (States.connected s).Negotiating) := by
        simp [States.Negotiating, States.kind, States.holding]
      simp only [ctrlMsg] at h
      split at h
      · cases h
        exact .message msg epoch hqueued id .idle
      · obtain ⟨⟨seq, mgr⟩, _, h⟩ := Option.bind_eq_some_iff.mp h
        obtain ⟨⟨links, c'⟩, hsend, h⟩ := Option.bind_eq_some_iff.mp h
        have hsame := (CommonState.SameSettings.log c _).trans (sendIfSome_sameSettings hsend)
        exact .message msg epoch hqueued (fun hneg => absurd hneg (determineState_negotiating h))
          (determineState_course h ⟨rfl, hsame⟩)

private theorem Connected.linkMsg_course {s : Connected} {id : Nat} {msg : LinkProtocol}
    (h : s.linkMsg c now id msg = some r) : Course now (.connected s) c r := by
  cases msg with
  | reset epoch request =>
      simp only [linkMsg, linkReset] at h
      split at h
      · split at h
        · exact determineState_course h ⟨rfl, .log c _⟩
        · cases h
          exact .leaves_at_once (.mismatch s c)
      · cases h
        exact .idle
  | ack epoch seq lastIndex =>
      simp only [linkMsg] at h
      split at h
      · cases h
        exact .stays ⟨rfl, .refl c⟩
      · cases h
        exact .idle
  | msgSlice epoch seq seqLen firstIndex data =>
      simp only [linkMsg, linkSlice] at h
      split at h
      · obtain ⟨⟨shouldAck, mgr⟩, _, h⟩ := Option.bind_eq_some_iff.mp h
        obtain ⟨⟨msgs, mgr'⟩, _, h⟩ := Option.bind_eq_some_iff.mp h
        refine determineState_course h ⟨rfl, ?_⟩
        cases shouldAck with
        | false => exact .log c _
        | true => exact (CommonState.SameSettings.log c _).trans (.log _ _)
      · cases h
        exact .idle
  | ping =>
      cases h
      exact .stays ⟨rfl, .log c _⟩
  | pong =>
      cases h
      exact .stays ⟨rfl, .refl c⟩

private theorem Connected.timer_course {s : Connected} (h : s.timer c now = some r) :
    Course now (.connected s) c r := by
  simp only [timer] at h
  obtain ⟨⟨links, c'⟩, hsend, h⟩ := Option.bind_eq_some_iff.mp h
  have hsame := (CommonState.SameSettings.log c _).trans (sendIfSome_sameSettings hsend)
  exact determineState_course h ⟨rfl, hsame⟩

private theorem linkDetached_course {s : States} {mgr : MessageManager} {epoch : Epoch}
    {stay : MessageManager → States} {leave : States × CommonState} {msg : LinkProtocol}
    (h : linkDetached mgr epoch c stay leave msg = some r)
    (hstay : ∀ mgr, (stay mgr).holding = s.holding) (hleave : Transition now s c leave) :
    Course now s c r := by
  have hquiet : ∀ mgr, Course now s c (stay mgr, c) := fun mgr => .stays ⟨hstay mgr, .refl c⟩
  cases msg with
  | reset ep request =>
      simp only [linkDetached] at h
      split at h
      · cases h
        exact .leaves_at_once hleave
      · cases h
        exact hquiet mgr
  | ack ep seq lastIndex =>
      simp only [linkDetached] at h
      split at h
      · cases h
        exact hquiet _
      · cases h
        exact hquiet mgr
  | msgSlice ep seq seqLen firstIndex data =>
      simp only [linkDetached] at h
      split at h
      · obtain ⟨⟨mgr', c'⟩, hrecv, h⟩ := Option.bind_eq_some_iff.mp h
        obtain ⟨_, _, hrecv⟩ := Option.bind_eq_some_iff.mp hrecv
        obtain ⟨_, _, hrecv⟩ := Option.bind_eq_some_iff.mp hrecv
        cases hrecv
        cases h
        exact .stays ⟨hstay _, .log c _⟩
      · cases h
        exact hquiet mgr
  | ping =>
      cases h
      exact hquiet mgr
  | pong =>
      cases h
      exact hquiet mgr

private theorem Reconnecting.ctrlMsg_obeys {s : Reconnecting}
    {cmd : LinkSetControlCommand Submission} (h : s.ctrlMsg c now cmd = some r) :
    Obeys now (.reconnecting s) c cmd r := by
  cases cmd with
  | connect =>
      cases h
      exact .connect .idle
  | disconnect =>
      cases h
      exact .disconnect (.leaves_at_once (.reconnectEnds s c))
  | addConnector conn =>
      obtain ⟨connector, hconn, h⟩ := Option.bind_eq_some_iff.mp h
      cases h
      exact .connector (by simp [States.addConnector, hconn])
  | addAddress addr =>
      cases h
      exact .address addr
  | addLink link =>
      obtain ⟨⟨entry, c'⟩, hwrap, h⟩ := Option.bind_eq_some_iff.mp h
      have hsame : Alike (.reconnecting s) c (.reconnecting s, c') :=
        ⟨rfl, CommonState.wrapLink_sameSettings hwrap⟩
      cases entry with
      | none =>
          cases h
          exact .link link (.stays hsame)
      | some entry =>
          cases h
          exact .link link (.leaves (.reconnected s c' entry) hsame)
  | message msg epoch =>
      simp only [ctrlMsg] at h
      split at h
      · cases h
        exact .message msg epoch (by simp [States.Negotiating, States.kind, States.holding]) id
          .idle
      · obtain ⟨⟨seq, mgr⟩, _, h⟩ := Option.bind_eq_some_iff.mp h
        cases h
        exact .message msg epoch (by simp [States.Negotiating, States.kind, States.holding]) id
          (.stays ⟨rfl, .log c _⟩)

private theorem Reconnecting.timer_course {s : Reconnecting} (h : s.timer c now = some r) :
    Course now (.reconnecting s) c r := by
  simp only [timer] at h
  split at h
  · cases h
    exact .leaves_at_once (.reconnectRestarts s c)
  · cases h
    exact .leaves_at_once (.reconnectEnds s c)

private theorem GracePeriod.ctrlMsg_obeys {s : GracePeriod} {cmd : LinkSetControlCommand Submission}
    (h : s.ctrlMsg c now cmd = some r) : Obeys now (.gracePeriod s) c cmd r := by
  cases cmd with
  | connect =>
      cases h
      exact .connect .idle
  | disconnect =>
      cases h
      exact .disconnect (.leaves_at_once (.graceEnds s c))
  | addConnector conn =>
      cases h
      exact .connector rfl
  | addAddress addr =>
      cases h
      exact .address addr
  | addLink link =>
      obtain ⟨⟨entry, c'⟩, hwrap, h⟩ := Option.bind_eq_some_iff.mp h
      have hsame : Alike (.gracePeriod s) c (.gracePeriod s, c') :=
        ⟨rfl, CommonState.wrapLink_sameSettings hwrap⟩
      cases entry with
      | none =>
          cases h
          exact .link link (.stays hsame)
      | some entry =>
          cases h
          exact .link link (.leaves (.returned s c' entry) hsame)
  | message msg epoch =>
      simp only [ctrlMsg] at h
      split at h
      · cases h
        exact .message msg epoch (by simp [States.Negotiating, States.kind, States.holding]) id
          .idle
      · obtain ⟨⟨seq, mgr⟩, _, h⟩ := Option.bind_eq_some_iff.mp h
        cases h
        exact .message msg epoch (by simp [States.Negotiating, States.kind, States.holding]) id
          (.stays ⟨rfl, .log c _⟩)

private theorem GracePeriod.timer_course {s : GracePeriod} (h : s.timer c now = some r) :
    Course now (.gracePeriod s) c r := by
  simp only [timer] at h
  split at h
  · cases h
    exact .leaves_at_once (.graceRestarts s c)
  · cases h
    exact .leaves_at_once (.graceEnds s c)

private theorem States.ctrlMsg_obeys {s : States} {cmd : LinkSetControlCommand Submission}
    (h : s.ctrlMsg c now cmd = some r) : Obeys now s c cmd r := by
  cases s with
  | disconnected s => exact s.ctrlMsg_obeys h
  | connecting s => exact s.ctrlMsg_obeys h
  | epochMismatch s => exact s.ctrlMsg_obeys h
  | connected s => exact s.ctrlMsg_obeys h
  | reconnecting s => exact s.ctrlMsg_obeys h
  | gracePeriod s => exact s.ctrlMsg_obeys h

theorem States.ctrlMsg_addConnector (s : States) (c : CommonState) (now : Nat)
    (conn : Connector) :
    s.ctrlMsg c now (.addConnector conn) = (s.addConnector conn).map fun s' => (s', c) := by
  cases s with
  | connecting s =>
      simp only [ctrlMsg, Connecting.ctrlMsg, addConnector]
      cases s.connector.addConnector conn <;> rfl
  | reconnecting s =>
      simp only [ctrlMsg, Reconnecting.ctrlMsg, addConnector]
      cases s.connector.addConnector conn <;> rfl
  | _ => rfl

private theorem States.linkMsg_course {s : States} {id : Nat} {msg : LinkProtocol}
    (h : s.linkMsg c now id msg = some r) : Course now s c r := by
  cases s with
  | disconnected s =>
      cases h
      refine .stays ⟨rfl, ?_⟩
      constructor <;> rfl
  | connecting s =>
      cases h
      exact .idle
  | epochMismatch s => exact s.linkMsg_course h
  | connected s => exact s.linkMsg_course h
  | reconnecting s =>
      simp only [linkMsg, Reconnecting.linkMsg] at h
      exact linkDetached_course h (fun _ => rfl) (.reconnectRestarts s c)
  | gracePeriod s =>
      simp only [linkMsg, GracePeriod.linkMsg] at h
      exact linkDetached_course h (fun _ => rfl) (.graceEnds s c)

private theorem States.timer_course {s : States} (h : s.timer c now = some r) :
    Course now s c r := by
  cases s with
  | disconnected s =>
      cases h
      exact .clears rfl
  | connecting s =>
      cases h
      exact .leaves_at_once (.giveUp s c)
  | epochMismatch s => exact s.timer_course h
  | connected s => exact s.timer_course h
  | reconnecting s => exact s.timer_course h
  | gracePeriod s => exact s.timer_course h

private theorem States.timer_waits {s : States} (h : s.timer c now = some r)
    (hkind : r.1.kind = s.kind) : s.Waits := by
  cases s with
  | disconnected s => exact Or.inl rfl
  | connecting s =>
      cases h
      cases hkind
  | epochMismatch s => exact Or.inr (Or.inl rfl)
  | connected s => exact Or.inr (Or.inr rfl)
  | reconnecting s =>
      simp only [timer, Reconnecting.timer] at h
      split at h
      · cases h
        cases hkind
      · cases h
        cases hkind
  | gracePeriod s =>
      simp only [timer, GracePeriod.timer] at h
      split at h
      · cases h
        cases hkind
      · cases h
        cases hkind

end handlers

private theorem States.debug_holding (s : States) (cmd : DebugCommand) :
    (s.debug cmd).holding = s.holding := by
  cases s <;> cases cmd <;> rfl

private theorem ConnectorManager.setPermits_tasks (m : ConnectorManager) (addr : Address)
    (count : Nat) : (m.setPermits addr count).tasks = m.tasks := by
  simp only [tasks, setPermits, List.map_map]
  apply List.map_congr_left
  intro h _
  simp only [Function.comp_apply]
  split <;> rfl

private theorem States.permits_holding (s : States) (addr : Address) (count : Nat) :
    (s.permits addr count).holding = s.holding := by
  cases s with
  | connecting s =>
      simp only [permits, holding, ConnectorManager.setPermits_tasks]
      rfl
  | reconnecting s =>
      simp only [permits, holding, ConnectorManager.setPermits_tasks]
      rfl
  | _ => rfl

namespace Core

/-- What a round of the loop does. -/
inductive Round (now : Nat) (core : Core) : Event → Core → Prop where
  | command {cmd r}
      (h : Obeys now core.state (tagged core.common cmd).2 (tagged core.common cmd).1 r) :
      Round now core (.command cmd) ⟨r.1, r.2⟩
  | config (conf) : Round now core (.config conf) ⟨core.state, configure core.common conf⟩
  | fires {timer r} (hpoll : core.common.timer.poll now = some timer)
      (hstays : r.1.kind = core.state.kind → core.state.Waits)
      (h : Course now core.state { core.common with timer } r) : Round now core .timer ⟨r.1, r.2⟩
  | frame {id msg r} (hid : id ∈ core.common.readers) (h : Course now core.state core.common r) :
      Round now core (.frame id msg) ⟨r.1, r.2⟩
  | debug (cmd) {r} (h : Alike core.state core.common r) : Round now core (.debug cmd) ⟨r.1, r.2⟩
  | permits (addr count) {r} (h : Alike core.state core.common r) :
      Round now core (.permits addr count) ⟨r.1, r.2⟩

theorem step_round {core core' : Core} {now : Nat} {ev : Event}
    (h : core.step (now, ev) = some core') : Round now core ev core' := by
  obtain ⟨r, hr, rfl⟩ := Option.map_eq_some_iff.mp h
  cases ev with
  | command cmd => exact .command (States.ctrlMsg_obeys hr)
  | config conf =>
      cases hr
      exact .config conf
  | frame id msg =>
      simp only [handle, Option.ite_none_right_eq_some] at hr
      exact .frame hr.1 (States.linkMsg_course hr.2)
  | timer =>
      obtain ⟨timer, hpoll, hr⟩ := Option.bind_eq_some_iff.mp hr
      exact .fires hpoll (States.timer_waits hr) (States.timer_course hr)
  | debug cmd =>
      cases hr
      exact .debug cmd ⟨States.debug_holding _ _, .refl _⟩
  | permits addr count =>
      cases hr
      exact .permits addr count ⟨States.permits_holding _ _ _, .refl _⟩

end Core

end LinkSet
