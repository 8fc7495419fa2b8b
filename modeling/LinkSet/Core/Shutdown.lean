import LinkSet.Core.Handlers
import LinkSet.Framework.Channel
import LinkSet.Framework.Run

/-!
# Who keeps the core running

The core returns when its command channel is closed, that is when nobody holds a sender of it any
more. Senders are held by the handles of the user, by the connection tasks and their manager, and
by the `CommonState` of the core itself. A program is the core together with its channel; its
steps are those of the user, of the tasks and of the loop.
-/

namespace LinkSet

open Framework

inductive SenderOwner where
  | handle
  | common
  | manager
  | task (addr : Address)
deriving DecidableEq

namespace SenderOwner

def ofCore : SenderOwner → Bool
  | common => true
  | manager => true
  | handle => false
  | task _ => false

def ofManager : SenderOwner → Bool
  | manager => true
  | task _ => true
  | handle => false
  | common => false

/-- The tasks of the addresses with a scheme. -/
def ofScheme (scheme : String) : SenderOwner → Bool
  | task addr => addr.scheme = scheme
  | _ => false

end SenderOwner

inductive LinkSetControl where
  | command (cmd : LinkSetControlCommand Payload)
  | config (conf : LinkSetControlConfig)

def LinkSetControl.event : LinkSetControl → Event
  | command cmd => .command cmd
  | config conf => .config conf

/-- The events that do not come through the command channel. -/
def Event.isOutside : Event → Bool
  | command _ => false
  | config _ => false
  | frame _ _ => true
  | timer => true
  | debug _ => true
  | permits _ _ => true

abbrev ControlChannel := Channel SenderOwner LinkSetControl

namespace ConnectorManager

/-- `start` keeps one sender and clones it for every task. -/
def startSenders (m : ConnectorManager) (ch : ControlChannel) : ControlChannel :=
  ch.clone (.manager :: m.handles.filterMap fun h => h.2.map fun _ => .task h.1.addr)

/-- `add_addr` clones the sender for the task of a new address. -/
def addAddrSenders (m : ConnectorManager) (addr : ConnectorManagerAddress) (ch : ControlChannel) :
    ControlChannel :=
  if m.handles.any fun h => h.1.addr = addr.addr then ch
  else if (m.conns.get addr.addr.scheme).isSome then ch.clone [.task addr.addr]
  else ch

/-- `add_connector` ends the tasks of a connector that is replaced, and clones the sender for the
new ones. -/
def addConnectorSenders (m : ConnectorManager) (conn : Connector) (ch : ControlChannel) :
    ControlChannel :=
  let ours := m.handles.filter fun h => h.1.addr.scheme = conn.scheme
  let ch :=
    if (m.conns.get conn.scheme).isSome then ch.drop (SenderOwner.ofScheme conn.scheme) else ch
  ch.clone (ours.map fun h => .task h.1.addr)

/-- `cancel` ends all tasks and drops the manager. -/
def cancelSenders (ch : ControlChannel) : ControlChannel := ch.drop SenderOwner.ofManager

end ConnectorManager

def States.connector : States → Option ConnectorManager
  | .connecting s => some s.connector
  | .reconnecting s => some s.connector
  | _ => none

/-- What a round does to the senders. A manager that is there before and after it is the same one:
it is handed on from `Reconnecting` to `Connecting`. -/
def Core.roundSenders (core core' : Core) (ev : Event) (ch : ControlChannel) : ControlChannel :=
  match core.state.connector, core'.state.connector with
  | none, none => ch
  | none, some m => m.startSenders ch
  | some _, none => ConnectorManager.cancelSenders ch
  | some m, some _ =>
      match ev with
      | .command (.addAddress addr) => m.addAddrSenders addr ch
      | .command (.addConnector conn) => m.addConnectorSenders conn ch
      | _ => ch

/-- The core, until its loop returns, and its command channel. -/
structure Program where
  core : Option Core
  channel : ControlChannel

inductive Program.Action where
  | cloneSender
  | dropHandle
  | send (msg : LinkSetControl)
  | taskLinks (addr : Address) (link : Link)
  | taskEnds (addr : Address)
  | receive (now : Nat)
  | handle (now : Nat) (ev : Event)

namespace Program

/-- `LinkSet::new` with `start_core`. -/
def start : Program := ⟨some Core.start, (Channel.new 10 .handle).clone [.common]⟩

/-- Sending to a core that has returned fails. -/
def send (p : Program) (owner : SenderOwner) (msg : LinkSetControl) : Option Program :=
  if owner ∈ p.channel.senders then
    match p.core with
    | some _ => (p.channel.send msg).map fun channel => { p with channel }
    | none => some p
  else none

def dropSender (p : Program) (owner : SenderOwner) : Option Program :=
  if owner ∈ p.channel.senders then some { p with channel := p.channel.dropOne owner } else none

def round (core : Core) (channel : ControlChannel) (now : Nat) (ev : Event) : Option Program :=
  (core.step (now, ev)).map fun core' => ⟨some core', core.roundSenders core' ev channel⟩

/-- A round that takes the branch of the command channel. The loop returns when the channel is
closed, and its state goes with it. -/
def receive (p : Program) (now : Nat) : Option Program :=
  match p.core with
  | none => none
  | some core =>
      match p.channel.recv with
      | (.item msg, channel) => round core channel now msg.event
      | (.closed, channel) =>
          some ⟨none, (ConnectorManager.cancelSenders channel).drop (· = .common)⟩
      | (.pending, _) => none

def step (p : Program) : Action → Option Program
  | .cloneSender =>
      if .handle ∈ p.channel.senders then some { p with channel := p.channel.clone [.handle] }
      else none
  | .dropHandle => p.dropSender .handle
  | .send msg => p.send .handle msg
  | .taskLinks addr link => p.send (.task addr) (.command (.addLink link))
  | .taskEnds addr => p.dropSender (.task addr)
  | .receive now => p.receive now
  | .handle now ev =>
      if ev.isOutside then
        match p.core with
        | some core => round core p.channel now ev
        | none => none
      else none

/-- The user has dropped every handle, no connection task is alive and every command has been
handled. -/
structure Abandoned (p : Program) : Prop where
  handles : .handle ∉ p.channel.senders
  tasks (addr : Address) : .task addr ∉ p.channel.senders
  queue : p.channel.queue = []

end Program

/-- The sender of the manager, in the states that have one. -/
def States.managerSender (s : States) : List SenderOwner :=
  if s.connector.isSome then [.manager] else []

section held

variable (m : ConnectorManager) (ch : ControlChannel)

private theorem ConnectorManager.held_startSenders :
    (m.startSenders ch).held SenderOwner.ofCore = ch.held SenderOwner.ofCore ++ [.manager] := by
  rw [startSenders, Channel.held_clone, List.filter_cons_of_pos (by rfl),
    List.filter_eq_nil_iff.mpr]
  intro o ho
  obtain ⟨h, _, ho⟩ := List.mem_filterMap.mp ho
  obtain ⟨_, _, rfl⟩ := Option.map_eq_some_iff.mp ho
  simp [SenderOwner.ofCore]

private theorem ConnectorManager.held_addAddrSenders (addr : ConnectorManagerAddress) :
    (m.addAddrSenders addr ch).held SenderOwner.ofCore = ch.held SenderOwner.ofCore := by
  unfold addAddrSenders
  split
  · rfl
  · split
    · apply Channel.held_clone_others
      simp [SenderOwner.ofCore]
    · rfl

private theorem ConnectorManager.held_addConnectorSenders (conn : Connector) :
    (m.addConnectorSenders conn ch).held SenderOwner.ofCore = ch.held SenderOwner.ofCore := by
  unfold addConnectorSenders
  rw [Channel.held_clone_others]
  · split
    · apply Channel.held_drop_others
      intro o ho
      cases o with
      | task addr => cases ho
      | _ => rfl
    · rfl
  · intro o ho
    obtain ⟨h, _, rfl⟩ := List.mem_map.mp ho
    rfl

/-- A round keeps the sender of `CommonState`, and that of the manager as long as there is one. -/
private theorem Core.held_roundSenders {core : Core} (core' : Core) (ev : Event)
    (h : ch.held SenderOwner.ofCore = .common :: core.state.managerSender) :
    (core.roundSenders core' ev ch).held SenderOwner.ofCore =
      .common :: core'.state.managerSender := by
  unfold roundSenders
  unfold States.managerSender at h ⊢
  cases hm : core.state.connector with
  | none =>
      rw [hm] at h
      cases hm' : core'.state.connector with
      | none => exact h
      | some m' => exact (m'.held_startSenders ch).trans (congrArg (· ++ [.manager]) h)
  | some m =>
      rw [hm] at h
      cases hm' : core'.state.connector with
      | none =>
          simp only [ConnectorManager.cancelSenders]
          rw [Channel.held_drop, h]
          rfl
      | some m' =>
          simp only
          split
          · exact (m.held_addAddrSenders ch _).trans h
          · exact (m.held_addConnectorSenders ch _).trans h
          · exact h

end held

namespace Program

/-- The loop runs, and the core holds its own senders. -/
def Running (p : Program) : Prop :=
  ∃ core, p.core = some core ∧
    p.channel.held SenderOwner.ofCore = .common :: core.state.managerSender

private theorem running_start : Running start := ⟨Core.start, rfl, rfl⟩

private theorem running_round {core : Core} {channel : ControlChannel} {now : Nat} {ev : Event}
    {p : Program} (h : channel.held SenderOwner.ofCore = .common :: core.state.managerSender)
    (hround : round core channel now ev = some p) : Running p := by
  obtain ⟨core', _, rfl⟩ := Option.map_eq_some_iff.mp hround
  exact ⟨core', rfl, Core.held_roundSenders channel core' ev h⟩

private theorem Running.of_held {p p' : Program} (hp : Running p) (hcore : p'.core = p.core)
    (hheld : p'.channel.held SenderOwner.ofCore = p.channel.held SenderOwner.ofCore) :
    Running p' := by
  obtain ⟨core, hp, h⟩ := hp
  exact ⟨core, hcore.trans hp, hheld.trans h⟩

private theorem running_send {p p' : Program} {owner : SenderOwner} {msg : LinkSetControl}
    (hp : Running p) (hsend : p.send owner msg = some p') : Running p' := by
  obtain ⟨_, hsend⟩ := Option.ite_none_right_eq_some.mp hsend
  split at hsend
  · obtain ⟨channel, hchannel, rfl⟩ := Option.map_eq_some_iff.mp hsend
    exact hp.of_held rfl (Channel.held_send hchannel)
  · cases hsend
    exact hp

private theorem running_dropSender {p p' : Program} {owner : SenderOwner} (hp : Running p)
    (howner : owner.ofCore = false) (hdrop : p.dropSender owner = some p') : Running p' := by
  obtain ⟨_, hdrop⟩ := Option.ite_none_right_eq_some.mp hdrop
  cases hdrop
  exact hp.of_held rfl (Channel.held_dropOne howner)

private theorem running_receive {p p' : Program} {now : Nat} (hp : Running p)
    (hreceive : p.receive now = some p') : Running p' := by
  obtain ⟨core, hcore, hheld⟩ := hp
  simp only [receive, hcore] at hreceive
  split at hreceive
  · next msg channel hrecv =>
      exact running_round ((Channel.held_recv hrecv).trans hheld) hreceive
  · next channel hrecv =>
      -- the quit branch
      exact absurd hrecv (Channel.recv_ne_closed (Channel.mem_senders hheld))
  · cases hreceive

private theorem running_step {p p' : Program} {a : Action} (hp : Running p)
    (hstep : p.step a = some p') : Running p' := by
  cases a with
  | cloneSender =>
      obtain ⟨_, hstep⟩ := Option.ite_none_right_eq_some.mp hstep
      cases hstep
      exact hp.of_held rfl (Channel.held_clone_others (by simp [SenderOwner.ofCore]))
  | dropHandle => exact running_dropSender hp rfl hstep
  | send msg => exact running_send hp hstep
  | taskLinks addr link => exact running_send hp hstep
  | taskEnds addr => exact running_dropSender hp rfl hstep
  | receive now => exact running_receive hp hstep
  | handle now ev =>
      obtain ⟨_, hstep⟩ := Option.ite_none_right_eq_some.mp hstep
      obtain ⟨core, hcore, hheld⟩ := hp
      rw [hcore] at hstep
      exact running_round hheld hstep

theorem abandoned_iff {p : Program} :
    p.Abandoned ↔ (∀ o ∈ p.channel.senders, o.ofCore = true) ∧ p.channel.queue = [] := by
  constructor
  · intro hp
    refine ⟨?_, hp.queue⟩
    intro o ho
    cases o with
    | handle => exact absurd ho hp.handles
    | task addr => exact absurd ho (hp.tasks addr)
    | _ => rfl
  · rintro ⟨hown, hqueue⟩
    exact ⟨fun h => absurd (hown _ h) nofun, fun _ h => absurd (hown _ h) nofun, hqueue⟩

end Program

/-- The core never quits. Once it is abandoned, the sender of its own `CommonState` is left, with
that of the manager while it tries to connect: the loop waits for a command that nobody can send. -/
theorem core_outlives_handles (actions : List Program.Action) {p : Program}
    (hrun : run Program.step Program.start actions = some p) (hp : p.Abandoned) :
    ∃ core, p.core = some core ∧
      p.channel.senders = .common :: core.state.managerSender ∧
      p.channel.recv.1 = .pending ∧ ∀ now, p.step (.receive now) = none := by
  obtain ⟨core, hcore, hheld⟩ :=
    run_invariant (fun _ _ _ => Program.running_step) Program.running_start hrun
  obtain ⟨hown, hqueue⟩ := Program.abandoned_iff.mp hp
  have hall : p.channel.held SenderOwner.ofCore = p.channel.senders := List.filter_eq_self.mpr hown
  have hrecv := Channel.recv_pending (Channel.mem_senders hheld) hqueue
  refine ⟨core, hcore, hall.symm.trans hheld, congrArg Prod.fst hrecv, ?_⟩
  intro now
  simp only [Program.step, Program.receive, hcore, hrecv]

/-- With a clone of the handle, while the core tries to connect. -/
theorem core_outlives_handles_connecting :
    ∃ p, run Program.step Program.start
        [.cloneSender, .send (.command .connect), .dropHandle, .dropHandle, .receive 0] = some p ∧
      p.Abandoned ∧ p.channel.recv.1 = .pending ∧ ∀ now, p.step (.receive now) = none := by
  refine ⟨_, rfl, Program.abandoned_iff.mpr ⟨by decide, rfl⟩, ?_⟩
  obtain ⟨core, _, _, h⟩ := core_outlives_handles
    [.cloneSender, .send (.command .connect), .dropHandle, .dropHandle, .receive 0] rfl
    (Program.abandoned_iff.mpr ⟨by decide, rfl⟩)
  exact h

/-- The only handle is dropped at once. -/
theorem core_waits_after_drop :
    ∃ p core, run Program.step Program.start [.dropHandle] = some p ∧ p.Abandoned ∧
      p.core = some core ∧ p.channel.senders = [.common] ∧ p.channel.recv.1 = .pending :=
  ⟨_, _, rfl, Program.abandoned_iff.mpr ⟨by decide, rfl⟩, rfl, rfl, rfl⟩

end LinkSet
