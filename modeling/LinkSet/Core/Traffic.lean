import LinkSet.Core.Handlers
import LinkSet.Links.Traffic

/-!
# The core as a user of its links

Whatever the core does, what it does to its links and hands to them is a run of operations of a
link manager: one pass over the handlers shows this. The links it starts with are none, and the
only ones it adds are those that `wrap_link` accepts.
-/

namespace LinkSet

open Framework

/-- The frame of an effect that hands one to a link. -/
def Effect.handed : Effect → Option Sent
  | .toLink id frame => some (id, frame)
  | _ => none

/-- Every frame handed to a link so far. -/
def CommonState.carried (c : CommonState) : List Sent := c.record.filterMap Effect.handed

namespace CommonState

variable (c : CommonState)

@[simp] theorem carried_log (effects : List Effect) :
    (c.log effects).carried = c.carried ++ effects.filterMap Effect.handed := by
  simp [carried]

@[simp] theorem carried_send (msg : LinkSetMessage) : (c.send msg).carried = c.carried := by
  simp [send, Effect.handed]

@[simp] theorem carried_deliver (epoch : Epoch) (msgs : List (List UInt8)) :
    (c.deliver epoch msgs).carried = c.carried := by
  simp [deliver, List.filterMap_map, Function.comp_def, Effect.handed]

@[simp] theorem carried_sent (frames : List Sent) :
    (c.sent frames).carried = c.carried ++ frames := by
  simp [sent, wire, List.filterMap_map, Function.comp_def, Effect.handed]

@[simp] theorem carried_modifyTimer (f : Deadline → Deadline) :
    (c.modifyTimer f).carried = c.carried := rfl

@[simp] theorem carried_setActive (active : Bool) : (c.setActive active).carried = c.carried := rfl

/-- The same frames handed out, and no link wrapped in between. -/
structure Quiet (c c' : CommonState) : Prop where
  nextLinkId : c'.nextLinkId = c.nextLinkId
  carried : c'.carried = c.carried

private theorem quiet_send (msg : LinkSetMessage) : c.Quiet (c.send msg) := ⟨rfl, by simp⟩

private theorem quiet_deliver (epoch : Epoch) (msgs : List (List UInt8)) :
    c.Quiet (c.deliver epoch msgs) := ⟨rfl, by simp⟩

private theorem quiet_determineTimer (now : Nat) : c.Quiet (Connecting.determineTimer c now) := by
  unfold Connecting.determineTimer
  split <;> exact ⟨rfl, rfl⟩

variable {c} {c' c'' : CommonState}

theorem Quiet.trans (h : c.Quiet c') (h' : c'.Quiet c'') : c.Quiet c'' :=
  ⟨h'.nextLinkId.trans h.nextLinkId, h'.carried.trans h.carried⟩

private theorem Quiet.of_record (hid : c'.nextLinkId = c.nextLinkId)
    (hrecord : c'.record = c.record) :
    c.Quiet c' :=
  ⟨hid, by rw [CommonState.carried, hrecord, CommonState.carried]⟩

private theorem quiet_connect (c : CommonState) (now : Nat) :
    c.Quiet (Connecting.determineTimer (c.send (.attemptingConnection true)) now) :=
  (c.quiet_send _).trans (quiet_determineTimer _ now)

end CommonState

/-- The links of the two states that have some. -/
def States.links : States → LinkManager
  | .epochMismatch s => s.links
  | .connected s => s.links
  | _ => LinkManager.new

/-- From one point to another the links change and frames are handed out by operations of a
link manager; the only link added is `entry`. -/
structure Moves (entry : Option LinkEntry) (links : LinkManager) (c : CommonState)
    (links' : LinkManager) (c' : CommonState) : Prop where
  nextLinkId : c'.nextLinkId = c.nextLinkId
  ops : ∃ ops : List LinkManager.Op, (∀ o ∈ ops, o.Allowed fun e => entry = some e) ∧
    run Traffic.op ⟨links, c.carried⟩ ops = some ⟨links', c'.carried⟩

namespace Moves

variable {entry : Option LinkEntry} {links links' links'' : LinkManager}
  {c c' c'' : CommonState}

private theorem quiet (h : c.Quiet c') : Moves entry links c links c' where
  nextLinkId := h.nextLinkId
  ops := ⟨[], by simp, by rw [h.carried]; rfl⟩

theorem refl : Moves entry links c links c := quiet ⟨rfl, rfl⟩

theorem trans (h : Moves entry links c links' c') (h' : Moves entry links' c' links'' c'') :
    Moves entry links c links'' c'' := by
  obtain ⟨ops, hallowed, hrun⟩ := h.ops
  obtain ⟨ops', hallowed', hrun'⟩ := h'.ops
  refine ⟨h'.nextLinkId.trans h.nextLinkId, ops ++ ops', ?_, ?_⟩
  · intro o ho
    rcases List.mem_append.mp ho with ho | ho
    · exact hallowed o ho
    · exact hallowed' o ho
  · rw [run_append, hrun, Option.bind_some, hrun']

private theorem before (h : c.Quiet c') (h' : Moves entry links c' links' c'') :
    Moves entry links c links' c'' := (quiet h).trans h'

private theorem after (h : Moves entry links c links' c') (h' : c'.Quiet c'') :
    Moves entry links c links' c'' := h.trans (quiet h')

private theorem op {o : LinkManager.Op} (hallowed : o.Allowed fun e => entry = some e)
    (hid : c'.nextLinkId = c.nextLinkId)
    (hop : Traffic.op ⟨links, c.carried⟩ o = some ⟨links', c'.carried⟩) :
    Moves entry links c links' c' where
  nextLinkId := hid
  ops := ⟨[o], by simpa using hallowed, run_cons.mpr ⟨_, hop, rfl⟩⟩

variable (links c)

private theorem addLink (e : LinkEntry) : Moves (some e) links c (links.addLink e) c :=
  op (o := .addLink e) rfl rfl rfl

private theorem evictLink (id : Nat) : Moves entry links c (links.evictLink id) c :=
  op (o := .evictLink id) trivial rfl rfl

private theorem drop : Moves entry links c LinkManager.new c := op (o := .drop) trivial rfl rfl

private theorem reset (epoch : Option Epoch) (request : Bool) :
    Moves entry links c (links.reset epoch request).links
      (c.sent (links.reset epoch request).frames) :=
  op (o := .sendProto (.reset epoch request)) rfl rfl (by rw [CommonState.carried_sent]; rfl)

private theorem ack (epoch : Epoch) (ack : Nat × Nat) :
    Moves entry links c (links.ack epoch ack).links (c.sent (links.ack epoch ack).frames) :=
  op (o := .sendProto (.ack epoch.toInt ack.1 ack.2)) rfl rfl
    (by rw [CommonState.carried_sent]; rfl)

private theorem pingAll (now : Nat) :
    Moves entry links c (links.pingAll now).1 (c.sent (links.pingAll now).2) :=
  op (o := .pingAll now) trivial rfl (by rw [CommonState.carried_sent]; rfl)

private theorem pong (id : Nat) :
    Moves entry links c (links.pong id).1 (c.sent (links.pong id).2) :=
  op (o := .pong id) trivial rfl (by rw [CommonState.carried_sent]; rfl)

private theorem endPing (id now : Nat) : Moves entry links c (links.endPing id now) c :=
  op (o := .endPing id now) trivial rfl rfl

private theorem upkeep : Moves entry links c links.upkeep c := op (o := .upkeep) trivial rfl rfl

variable {links c}

private theorem sendSlices {sliceMgr : SliceManager} {out : Outcome}
    (h : links.sendSlices sliceMgr = some out) :
    Moves entry links c out.links (c.sent out.frames) :=
  op (o := .sendSlices sliceMgr) trivial rfl
    (by simp only [Traffic.op, h, Option.map_some, CommonState.carried_sent])

end Moves

/-- What a command does to the links: only `AddLink` adds one, if `wrap_link` accepts it. -/
def CtrlMoves (links : LinkManager) (c : CommonState) (r : States × CommonState) :
    LinkSetControlCommand Submission → Prop
  | .addLink link => ∃ entry c1, c.wrapLink link = some (entry, c1) ∧
      Moves entry links c1 r.1.links r.2
  | _ => Moves none links c r.1.links r.2

section handlers

variable {c c' : CommonState} {now id : Nat} {r : States × CommonState}
  {cmd : LinkSetControlCommand Submission} {msg : LinkProtocol} {entry : Option LinkEntry}

/-- The handlers of `AddLink` differ in what they do with a link that `wrap_link` accepts. -/
private theorem CtrlMoves.of_wrapLink {s : States} {link : Link}
    {f : Option LinkEntry × CommonState → Option (States × CommonState)}
    (hr : (c.wrapLink link).bind f = some r) (hnone : ∀ c1, f (none, c1) = some (s, c1))
    (hsome : ∀ e c1, f (some e, c1) = some r → Moves (some e) s.links c1 r.1.links r.2) :
    CtrlMoves s.links c r (.addLink link) := by
  obtain ⟨⟨entry, c1⟩, hwrap, hr⟩ := Option.bind_eq_some_iff.mp hr
  refine ⟨entry, c1, hwrap, ?_⟩
  cases entry with
  | none =>
      rw [hnone] at hr
      cases hr
      exact Moves.refl
  | some e => exact hsome e c1 hr

private theorem Disconnected.ctrlMsg_moves {s : Disconnected} (hr : s.ctrlMsg c now cmd = some r) :
    CtrlMoves (States.disconnected s).links c r cmd := by
  cases cmd with
  | connect =>
      obtain rfl := Option.some.inj hr
      exact Moves.quiet (c.quiet_connect now)
  | message data epoch =>
      simp only [ctrlMsg] at hr
      split at hr
      · obtain rfl := Option.some.inj hr
        exact Moves.quiet (c.quiet_connect now)
      · obtain rfl := Option.some.inj hr
        exact Moves.refl
  | addLink link =>
      apply CtrlMoves.of_wrapLink hr (fun _ => rfl)
      intro e c1 hr
      cases hr
      exact ((Moves.addLink .new c1 e).trans (.pingAll _ c1 now)).trans
        ((Moves.reset _ _ s.epoch true).after ⟨rfl, rfl⟩)
  | _ =>
      obtain rfl := Option.some.inj hr
      exact Moves.refl

private theorem Connecting.ctrlMsg_moves {s : Connecting} (hr : s.ctrlMsg c now cmd = some r) :
    CtrlMoves (States.connecting s).links c r cmd := by
  cases cmd with
  | disconnect =>
      obtain rfl := Option.some.inj hr
      exact Moves.quiet ⟨rfl, by simp⟩
  | addConnector conn =>
      obtain ⟨connector, _, hr⟩ := Option.bind_eq_some_iff.mp hr
      obtain rfl := Option.some.inj hr
      exact Moves.refl
  | message data epoch =>
      simp only [ctrlMsg] at hr
      split at hr <;> obtain rfl := Option.some.inj hr <;> exact Moves.refl
  | addLink link =>
      apply CtrlMoves.of_wrapLink hr (fun _ => rfl)
      intro e c1 hr
      cases hr
      exact ((Moves.addLink .new c1 e).trans (.pingAll _ c1 now)).trans
        ((Moves.reset _ _ s.epoch true).after (.trans (CommonState.quiet_send _ _) ⟨rfl, rfl⟩))
  | _ =>
      obtain rfl := Option.some.inj hr
      exact Moves.refl

private theorem Connecting.timer_moves {s : Connecting} (hr : s.timer c = some r) :
    Moves entry (States.connecting s).links c r.1.links r.2 := by
  obtain rfl := Option.some.inj hr
  exact Moves.quiet ⟨rfl, by simp⟩

private theorem EpochMismatch.ctrlMsg_moves {s : EpochMismatch} (hr : s.ctrlMsg c cmd = some r) :
    CtrlMoves (States.epochMismatch s).links c r cmd := by
  cases cmd with
  | disconnect =>
      obtain rfl := Option.some.inj hr
      exact (Moves.drop s.links c).after ⟨rfl, rfl⟩
  | message data epoch =>
      simp only [ctrlMsg] at hr
      split at hr <;> obtain rfl := Option.some.inj hr <;> exact Moves.refl
  | addLink link =>
      apply CtrlMoves.of_wrapLink hr (fun _ => rfl)
      intro e c1 hr
      cases hr
      exact Moves.addLink s.links c1 e
  | _ =>
      obtain rfl := Option.some.inj hr
      exact Moves.refl

private theorem Connected.sendAllQueued_moves {m m' : MessageManager} {links links' : LinkManager}
    {queue : List Submission} (hr : sendAllQueued m links c queue = some (m', links', c')) :
    Moves entry links c links' c' := by
  induction queue generalizing m links c with
  | nil =>
      cases hr
      exact .refl
  | cons msg queue ih =>
      obtain ⟨⟨m1, links1, c1⟩, hone, hr⟩ := Option.bind_eq_some_iff.mp hr
      obtain ⟨⟨seq, m2⟩, _, hone⟩ := Option.bind_eq_some_iff.mp hone
      obtain ⟨sm, _, hone⟩ := Option.bind_eq_some_iff.mp hone
      obtain ⟨out, hout, hone⟩ := Option.bind_eq_some_iff.mp hone
      cases hone
      have hlog : c.Quiet (c.log [.inserted msg.tag m1.epoch seq]) :=
        ⟨rfl, by simp [Effect.handed]⟩
      exact ((Moves.sendSlices hout).before hlog).trans (ih hr)

private theorem Connected.fromEpochMismatch_moves {old : EpochMismatch} {e : Epoch} {s : Connected}
    (hr : Connected.fromEpochMismatch old c now e = some (s, c')) :
    Moves entry old.links c s.links c' := by
  obtain ⟨⟨m, links, c1⟩, hall, hr⟩ := Option.bind_eq_some_iff.mp hr
  cases hr
  have hmake : c.Quiet ((c.send (.connected e)).log [.newManager e]) :=
    ⟨rfl, by simp [Effect.handed]⟩
  exact ((Connected.sendAllQueued_moves hall).before hmake).after ⟨rfl, rfl⟩

private theorem EpochMismatch.linkReset_moves {s : EpochMismatch} {epoch : Option Epoch}
    {request : Bool} (hr : s.linkReset c now epoch request = some r) :
    Moves entry s.links c r.1.links r.2 := by
  unfold linkReset at hr
  split at hr
  · obtain rfl := Option.some.inj hr
    exact .reset s.links c s.epoch false
  · obtain ⟨e, _, hr⟩ := Option.bind_eq_some_iff.mp hr
    obtain ⟨⟨s', c'⟩, hmade, hr⟩ := Option.bind_eq_some_iff.mp hr
    obtain rfl := Option.some.inj hr
    have hanswer : Moves entry _ _ s'.links c' := Connected.fromEpochMismatch_moves hmade
    cases request with
    | true => exact (Moves.reset s.links c s.epoch false).trans hanswer
    | false => exact hanswer
  · obtain ⟨⟨s', c'⟩, hmade, hr⟩ := Option.bind_eq_some_iff.mp hr
    obtain rfl := Option.some.inj hr
    exact (Moves.reset s.links c _ false).trans (Connected.fromEpochMismatch_moves hmade)

private theorem EpochMismatch.linkMsg_moves {s : EpochMismatch}
    (hr : s.linkMsg c now id msg = some r) : Moves entry s.links c r.1.links r.2 := by
  cases msg with
  | reset epoch request => exact EpochMismatch.linkReset_moves hr
  | ping =>
      obtain rfl := Option.some.inj hr
      exact .pong s.links c id
  | pong =>
      obtain rfl := Option.some.inj hr
      exact .endPing s.links c id now
  | _ =>
      obtain rfl := Option.some.inj hr
      exact .refl

private theorem EpochMismatch.timer_moves {s : EpochMismatch} (hr : s.timer c now = some r) :
    Moves entry s.links c r.1.links r.2 := by
  have hping : Moves entry s.links c (s.links.upkeep.pingAll now).1
      (c.sent (s.links.upkeep.pingAll now).2) :=
    (Moves.upkeep s.links c).trans (.pingAll _ c now)
  simp only [timer] at hr
  split at hr
  · apply (hping.trans (.drop _ _)).trans
    split at hr
    · obtain rfl := Option.some.inj hr
      exact Moves.quiet (CommonState.quiet_connect _ now)
    · obtain rfl := Option.some.inj hr
      exact Moves.quiet ⟨rfl, rfl⟩
  · obtain rfl := Option.some.inj hr
    exact hping.trans (.reset _ _ s.epoch true)

private theorem Connected.determineState_moves {s : Connected}
    (hr : determineState s c now = some r) : Moves entry s.links c r.1.links r.2 := by
  unfold determineState at hr
  split at hr
  · apply (Moves.drop s.links c).trans
    split at hr
    · obtain rfl := Option.some.inj hr
      have hid : (Reconnecting.fromConnected s c now).2.nextLinkId = c.nextLinkId := by
        unfold Reconnecting.fromConnected
        simp only
        split <;> rfl
      apply Moves.quiet ⟨hid, ?_⟩
      simp [CommonState.carried, Reconnecting.fromConnected_record, Effect.handed]
    · split at hr
      · obtain rfl := Option.some.inj hr
        have hid : (GracePeriod.fromConnected s c now).2.nextLinkId = c.nextLinkId := by
          unfold GracePeriod.fromConnected
          simp only
          split <;> rfl
        exact Moves.quiet (.of_record hid (GracePeriod.fromConnected_record s c now))
      · obtain rfl := Option.some.inj hr
        exact Moves.quiet ⟨rfl, by simp⟩
  · obtain rfl := Option.some.inj hr
    exact .refl

private theorem Connected.sendIfSome_moves {links links' : LinkManager} {o : Option SliceManager}
    (hr : sendIfSome links c o = some (links', c')) : Moves entry links c links' c' := by
  cases o with
  | none =>
      cases hr
      exact .refl
  | some sm =>
      obtain ⟨out, hout, hr⟩ := Option.map_eq_some_iff.mp hr
      cases hr
      exact .sendSlices hout

private theorem Connected.ctrlMsg_moves {s : Connected} (hr : s.ctrlMsg c now cmd = some r) :
    CtrlMoves (States.connected s).links c r cmd := by
  cases cmd with
  | disconnect =>
      obtain rfl := Option.some.inj hr
      exact (Moves.drop s.links c).after ⟨rfl, by simp⟩
  | message data epoch =>
      simp only [ctrlMsg] at hr
      split at hr
      · obtain rfl := Option.some.inj hr
        exact Moves.refl
      · obtain ⟨⟨seq, m⟩, _, hr⟩ := Option.bind_eq_some_iff.mp hr
        obtain ⟨⟨links, c'⟩, hsend, hr⟩ := Option.bind_eq_some_iff.mp hr
        have hlog : c.Quiet (c.log [.inserted data.tag m.epoch seq]) :=
          ⟨rfl, by simp [Effect.handed]⟩
        exact ((Connected.sendIfSome_moves hsend).before hlog).trans
          (Connected.determineState_moves hr)
  | addLink link =>
      apply CtrlMoves.of_wrapLink hr (fun _ => rfl)
      intro e c1 hr
      cases hr
      exact Moves.addLink s.links c1 e
  | _ =>
      obtain rfl := Option.some.inj hr
      exact Moves.refl

private theorem Connected.linkMsg_moves {s : Connected} (hr : s.linkMsg c now id msg = some r) :
    Moves entry s.links c r.1.links r.2 := by
  cases msg with
  | reset epoch request =>
      simp only [linkMsg, linkReset] at hr
      split at hr
      · split at hr
        · exact (Moves.reset s.links c _ false).trans (Connected.determineState_moves hr)
        · obtain rfl := Option.some.inj hr
          exact (Moves.reset s.links c _ true).after ⟨rfl, rfl⟩
      · obtain rfl := Option.some.inj hr
        exact .refl
  | ack epoch seq lastIndex =>
      simp only [linkMsg] at hr
      split at hr <;> obtain rfl := Option.some.inj hr <;> exact .refl
  | msgSlice epoch seq seqLen firstIndex data =>
      simp only [linkMsg, linkSlice] at hr
      split at hr
      · obtain ⟨⟨shouldAck, m⟩, _, hr⟩ := Option.bind_eq_some_iff.mp hr
        obtain ⟨⟨msgs, m'⟩, _, hr⟩ := Option.bind_eq_some_iff.mp hr
        have hrest : Moves entry _ _ r.1.links r.2 := Connected.determineState_moves hr
        cases shouldAck with
        | true =>
            exact (Moves.ack s.links c s.epoch m.lastAck).trans
              (hrest.before (CommonState.quiet_deliver _ _ _))
        | false => exact hrest.before (c.quiet_deliver _ _)
      · obtain rfl := Option.some.inj hr
        exact .refl
  | ping =>
      obtain rfl := Option.some.inj hr
      exact .pong s.links c id
  | pong =>
      obtain rfl := Option.some.inj hr
      exact .endPing s.links c id now

private theorem Connected.timer_moves {s : Connected} (hr : s.timer c now = some r) :
    Moves entry s.links c r.1.links r.2 := by
  obtain ⟨⟨links, c1⟩, hsend, hr⟩ := Option.bind_eq_some_iff.mp hr
  have hping : Moves entry s.links c (s.pingIfDue now).1 (c.sent (s.pingIfDue now).2) := by
    unfold pingIfDue
    split
    · exact .pingAll s.links c now
    · exact Moves.quiet ⟨rfl, by simp⟩
  exact ((hping.trans (.upkeep _ _)).trans (Connected.sendIfSome_moves hsend)).trans
    (Connected.determineState_moves hr)

private theorem linkDetached_moves {mgr : MessageManager} {epoch : Epoch}
    {stay : MessageManager → States} {leave : States × CommonState}
    (hstay : ∀ m, (stay m).links = LinkManager.new)
    (hleave : leave.1.links = LinkManager.new ∧ c.Quiet leave.2)
    (hr : linkDetached mgr epoch c stay leave msg = some r) :
    Moves entry LinkManager.new c r.1.links r.2 := by
  have hput : ∀ m c', c.Quiet c' → Moves entry LinkManager.new c (stay m).links c' := by
    intro m c' hquiet
    rw [hstay m]
    exact .quiet hquiet
  cases msg with
  | reset ep request =>
      simp only [linkDetached] at hr
      split at hr
      · obtain rfl := Option.some.inj hr
        rw [hleave.1]
        exact .quiet hleave.2
      · obtain rfl := Option.some.inj hr
        exact hput _ _ ⟨rfl, rfl⟩
  | ack ep seq lastIndex =>
      simp only [linkDetached] at hr
      split at hr <;> obtain rfl := Option.some.inj hr <;> exact hput _ _ ⟨rfl, rfl⟩
  | msgSlice ep seq seqLen firstIndex data =>
      simp only [linkDetached] at hr
      split at hr
      · obtain ⟨⟨m, c'⟩, hrecv, hr⟩ := Option.bind_eq_some_iff.mp hr
        obtain rfl := Option.some.inj hr
        obtain ⟨_, _, hrecv⟩ := Option.bind_eq_some_iff.mp hrecv
        obtain ⟨⟨msgs, m'⟩, _, hrecv⟩ := Option.bind_eq_some_iff.mp hrecv
        cases hrecv
        exact hput _ _ ⟨rfl, by simp⟩
      · obtain rfl := Option.some.inj hr
        exact hput _ _ ⟨rfl, rfl⟩
  | _ =>
      obtain rfl := Option.some.inj hr
      exact hput _ _ ⟨rfl, rfl⟩

private theorem Reconnecting.quiet_leave (s : Reconnecting) (c : CommonState) (now : Nat) :
    c.Quiet (Connecting.fromReconnecting s c now).2 :=
  (c.quiet_determineTimer now).trans (CommonState.quiet_send _ _)

private theorem Disconnected.quiet_fromReconnecting (s : Reconnecting) (c : CommonState) :
    c.Quiet (Disconnected.fromReconnecting s c).2 := ⟨rfl, by simp [fromReconnecting]⟩

private theorem Disconnected.quiet_fromGracePeriod (s : GracePeriod) (c : CommonState) :
    c.Quiet (Disconnected.fromGracePeriod s c).2 := ⟨rfl, by simp [fromGracePeriod]⟩

private theorem Reconnecting.ctrlMsg_moves {s : Reconnecting} (hr : s.ctrlMsg c now cmd = some r) :
    CtrlMoves (States.reconnecting s).links c r cmd := by
  cases cmd with
  | disconnect =>
      obtain rfl := Option.some.inj hr
      exact Moves.quiet (Disconnected.quiet_fromReconnecting s c)
  | addConnector conn =>
      obtain ⟨connector, _, hr⟩ := Option.bind_eq_some_iff.mp hr
      obtain rfl := Option.some.inj hr
      exact Moves.refl
  | message data epoch =>
      simp only [ctrlMsg] at hr
      split at hr
      · obtain rfl := Option.some.inj hr
        exact Moves.refl
      · obtain ⟨⟨seq, m⟩, _, hr⟩ := Option.bind_eq_some_iff.mp hr
        obtain rfl := Option.some.inj hr
        exact Moves.quiet ⟨rfl, by simp [Effect.handed]⟩
  | addLink link =>
      apply CtrlMoves.of_wrapLink hr (fun _ => rfl)
      intro e c1 hr
      cases hr
      exact ((Moves.addLink .new c1 e).trans (.pingAll _ c1 now)).after
        (.trans (CommonState.quiet_send _ _) ⟨rfl, rfl⟩)
  | _ =>
      obtain rfl := Option.some.inj hr
      exact Moves.refl

private theorem GracePeriod.ctrlMsg_moves {s : GracePeriod} (hr : s.ctrlMsg c now cmd = some r) :
    CtrlMoves (States.gracePeriod s).links c r cmd := by
  cases cmd with
  | disconnect =>
      obtain rfl := Option.some.inj hr
      exact Moves.quiet (Disconnected.quiet_fromGracePeriod s c)
  | message data epoch =>
      simp only [ctrlMsg] at hr
      split at hr
      · obtain rfl := Option.some.inj hr
        exact Moves.refl
      · obtain ⟨⟨seq, m⟩, _, hr⟩ := Option.bind_eq_some_iff.mp hr
        obtain rfl := Option.some.inj hr
        exact Moves.quiet ⟨rfl, by simp [Effect.handed]⟩
  | addLink link =>
      apply CtrlMoves.of_wrapLink hr (fun _ => rfl)
      intro e c1 hr
      cases hr
      exact ((Moves.addLink .new c1 e).trans (.pingAll _ c1 now)).after ⟨rfl, rfl⟩
  | _ =>
      obtain rfl := Option.some.inj hr
      exact Moves.refl

private theorem Reconnecting.timer_moves {s : Reconnecting} (hr : s.timer c now = some r) :
    Moves entry LinkManager.new c r.1.links r.2 := by
  simp only [timer] at hr
  split at hr
  · obtain rfl := Option.some.inj hr
    exact Moves.quiet (s.quiet_leave c now)
  · obtain rfl := Option.some.inj hr
    exact Moves.quiet (Disconnected.quiet_fromReconnecting s c)

private theorem GracePeriod.timer_moves {s : GracePeriod} (hr : s.timer c now = some r) :
    Moves entry LinkManager.new c r.1.links r.2 := by
  simp only [timer] at hr
  split at hr
  · obtain rfl := Option.some.inj hr
    exact Moves.quiet ((c.quiet_send _).trans (CommonState.quiet_connect _ now))
  · obtain rfl := Option.some.inj hr
    exact Moves.quiet (Disconnected.quiet_fromGracePeriod s c)

variable {st : States}

private theorem States.ctrlMsg_moves (hr : st.ctrlMsg c now cmd = some r) :
    CtrlMoves st.links c r cmd := by
  cases st with
  | disconnected s => exact Disconnected.ctrlMsg_moves hr
  | connecting s => exact Connecting.ctrlMsg_moves hr
  | epochMismatch s => exact EpochMismatch.ctrlMsg_moves hr
  | connected s => exact Connected.ctrlMsg_moves hr
  | reconnecting s => exact Reconnecting.ctrlMsg_moves hr
  | gracePeriod s => exact GracePeriod.ctrlMsg_moves hr

private theorem States.linkMsg_moves (hr : st.linkMsg c now id msg = some r) :
    Moves entry st.links c r.1.links r.2 := by
  cases st with
  | disconnected s =>
      obtain rfl := Option.some.inj hr
      exact Moves.quiet ⟨rfl, rfl⟩
  | connecting s =>
      obtain rfl := Option.some.inj hr
      exact Moves.refl
  | epochMismatch s => exact EpochMismatch.linkMsg_moves hr
  | connected s => exact Connected.linkMsg_moves hr
  | reconnecting s =>
      have hleave := s.quiet_leave c now
      simp only [linkMsg, Reconnecting.linkMsg] at hr
      exact linkDetached_moves (fun _ => rfl) ⟨rfl, hleave⟩ hr
  | gracePeriod s =>
      have hleave := Disconnected.quiet_fromGracePeriod s c
      simp only [linkMsg, GracePeriod.linkMsg] at hr
      exact linkDetached_moves (fun _ => rfl) ⟨rfl, hleave⟩ hr

private theorem States.timer_moves (hr : st.timer c now = some r) :
    Moves entry st.links c r.1.links r.2 := by
  cases st with
  | disconnected s =>
      obtain rfl := Option.some.inj hr
      exact Moves.quiet ⟨rfl, rfl⟩
  | connecting s => exact Connecting.timer_moves hr
  | epochMismatch s => exact EpochMismatch.timer_moves hr
  | connected s => exact Connected.timer_moves hr
  | reconnecting s => exact Reconnecting.timer_moves hr
  | gracePeriod s => exact GracePeriod.timer_moves hr

private theorem States.debug_moves (st : States) (c : CommonState) (cmd : DebugCommand) :
    Moves entry st.links c (st.debug cmd).links c := by
  cases st <;> cases cmd <;> first | exact .refl | exact .evictLink _ c _

private theorem States.permits_links (st : States) (addr : Address) (count : Nat) :
    (st.permits addr count).links = st.links := by
  cases st <;> rfl

end handlers

theorem CommonState.wrapLink_spec {c c' : CommonState} {link : Link} {entry : Option LinkEntry}
    (h : c.wrapLink link = some (entry, c')) :
    c'.nextLinkId = c.nextLinkId + 1 ∧ c'.carried = c.carried ∧
      ∀ e, entry = some e →
        e = LinkEntry.new link c.nextLinkId ∧ LinkEntry.overhead < link.maxSize := by
  have hcarried : c'.carried = c.carried := by
    rw [carried, carried, wrapLink_record h]
  obtain ⟨next, hnext, h⟩ := Option.bind_eq_some_iff.mp h
  obtain ⟨_, rfl⟩ := checkedAdd_eq_some.mp hnext
  simp only at h
  split at h
  · obtain ⟨rfl, rfl⟩ := Prod.mk.inj (Option.some.inj h)
    exact ⟨rfl, hcarried, by simp⟩
  · next hsize =>
      split at h
      · obtain ⟨rfl, rfl⟩ := Prod.mk.inj (Option.some.inj h)
        exact ⟨rfl, hcarried, fun e he => ⟨(Option.some.inj he).symm, by omega⟩⟩
      · obtain ⟨rfl, rfl⟩ := Prod.mk.inj (Option.some.inj h)
        exact ⟨rfl, hcarried, by simp⟩

namespace Core

/-- The link of an `AddLink` command. -/
def addedLink : Event → Option Link
  | .command (.addLink link) => some link
  | _ => none

/-- The links given to the core, in order: the id of a link is its place here. -/
def addedLinks (inputs : List (Nat × Event)) : List Link :=
  inputs.filterMap fun input => addedLink input.2

theorem addedLinks_append (inputs more : List (Nat × Event)) :
    addedLinks (inputs ++ more) = addedLinks inputs ++ addedLinks more := List.filterMap_append

def traffic (core : Core) : Traffic := ⟨core.state.links, core.common.carried⟩

/-- A round of the loop is a run of link operations; the only link it adds is the one it was
given, under the next id. -/
theorem step_traffic {core core' : Core} {now : Nat} {ev : Event}
    (h : core.step (now, ev) = some core') :
    core'.common.nextLinkId = core.common.nextLinkId + (addedLink ev).toList.length ∧
    ∃ ops : List LinkManager.Op,
      (∀ o ∈ ops, o.Allowed fun e => ∃ link, addedLink ev = some link ∧
        e = LinkEntry.new link core.common.nextLinkId ∧ LinkEntry.overhead < link.maxSize) ∧
      run Traffic.op core.traffic ops = some core'.traffic := by
  obtain ⟨r, hr, rfl⟩ := Option.map_eq_some_iff.mp h
  have hplain : addedLink ev = none → Moves none core.state.links core.common r.1.links r.2 →
      r.2.nextLinkId = core.common.nextLinkId + (addedLink ev).toList.length ∧
      ∃ ops : List LinkManager.Op,
        (∀ o ∈ ops, o.Allowed fun e => ∃ link, addedLink ev = some link ∧
          e = LinkEntry.new link core.common.nextLinkId ∧ LinkEntry.overhead < link.maxSize) ∧
        run Traffic.op core.traffic ops = some ⟨r.1.links, r.2.carried⟩ := by
    intro hnone hmoves
    obtain ⟨ops, hallowed, hrun⟩ := hmoves.ops
    refine ⟨by simp [hnone, hmoves.nextLinkId], ops, ?_, hrun⟩
    intro o ho
    exact (hallowed o ho).mono (by simp)
  cases ev with
  | command cmd =>
      have hmoves := States.ctrlMsg_moves hr
      cases cmd with
      | addLink link =>
          obtain ⟨entry, c1, hwrap, hmoves⟩ := hmoves
          obtain ⟨hid, hcarried, hentry⟩ := CommonState.wrapLink_spec hwrap
          obtain ⟨ops, hallowed, hrun⟩ := hmoves.ops
          refine ⟨hmoves.nextLinkId.trans hid, ops, ?_, ?_⟩
          · intro o ho
            exact (hallowed o ho).mono fun e he => ⟨link, rfl, hentry e he⟩
          · rw [hcarried] at hrun
            exact hrun
      | message data epoch =>
          apply hplain rfl
          have htagged : core.common.Quiet (tagged core.common (.message data epoch)).2 := ⟨rfl, rfl⟩
          exact Moves.before htagged hmoves
      | _ => exact hplain rfl hmoves
  | config conf =>
      obtain rfl := Option.some.inj hr
      apply hplain rfl
      cases conf <;> exact Moves.quiet ⟨rfl, rfl⟩
  | frame id msg =>
      simp only [handle, Option.ite_none_right_eq_some] at hr
      exact hplain rfl (States.linkMsg_moves hr.2)
  | timer =>
      obtain ⟨timer, _, hr⟩ := Option.bind_eq_some_iff.mp hr
      have hpolled : core.common.Quiet { core.common with timer } := ⟨rfl, rfl⟩
      exact hplain rfl (Moves.before hpolled (States.timer_moves hr))
  | debug cmd =>
      obtain rfl := Option.some.inj hr
      exact hplain rfl (States.debug_moves core.state core.common cmd)
  | permits addr count =>
      obtain rfl := Option.some.inj hr
      apply hplain rfl
      rw [States.permits_links]
      exact Moves.refl

/-- A link the core was given under this id and that is large enough for `wrap_link`. -/
def Accepted (inputs : List (Nat × Event)) (id : Nat) (link : Link) : Prop :=
  (addedLinks inputs)[id]? = some link ∧ LinkEntry.overhead < link.maxSize

private theorem Accepted.append {inputs : List (Nat × Event)} {id : Nat} {link : Link}
    (h : Accepted inputs id link) (more : List (Nat × Event)) :
    Accepted (inputs ++ more) id link := by
  have hlt := (List.getElem?_eq_some_iff.mp h.1).1
  refine ⟨?_, h.2⟩
  rw [addedLinks_append, List.getElem?_append_left hlt]
  exact h.1

/-- Ids are given out in the order of the links, and what was handed to a link fits it. -/
structure Fitted (inputs : List (Nat × Event)) (core : Core) : Prop where
  nextLinkId : core.common.nextLinkId = (addedLinks inputs).length
  traffic : core.traffic.Fitting (Accepted inputs)

private theorem fitted_start : Fitted [] start where
  nextLinkId := rfl
  traffic := {
    entries := by simp [traffic, start, States.new, States.links, LinkManager.new]
    frames := by simp [traffic, start, CommonState.new, CommonState.carried] }

private theorem Fitted.step {inputs : List (Nat × Event)} {core core' : Core} {input : Nat × Event}
    (h : Fitted inputs core) (hstep : core.step input = some core') :
    Fitted (inputs ++ [input]) core' := by
  obtain ⟨hid, ops, hallowed, hrun⟩ := step_traffic hstep
  have hlinks : addedLinks (inputs ++ [input]) = addedLinks inputs ++ (addedLink input.2).toList := by
    rw [addedLinks_append]
    cases hlink : addedLink input.2 <;> simp [addedLinks, hlink]
  constructor
  · rw [hid, hlinks, List.length_append, h.nextLinkId]
  · have haccepted : ∀ id link, Accepted inputs id link → Accepted (inputs ++ [input]) id link :=
      fun _ _ hacc => hacc.append [input]
    have hold := h.traffic.mono haccepted
    apply hold.run (fun _ _ hacc => hacc.2) _ hrun
    intro o ho
    apply (hallowed o ho).mono
    intro e he
    obtain ⟨link, hadded, rfl, hsize⟩ := he
    refine ⟨?_, hsize⟩
    rw [hlinks, hadded, LinkEntry.new, h.nextLinkId]
    simp

theorem fitted_run {inputs : List (Nat × Event)} {core : Core}
    (h : run step start inputs = some core) : Fitted inputs core := by
  have := run_history (fun _ _ _ _ hinv hstep => Fitted.step hinv hstep) fitted_start h
  rwa [List.nil_append] at this

/-- In every run of the core, a frame handed to a link serializes to no more bytes than the link
takes. The size left for slices on a link of the core is at least one, so a message with
outstanding bytes always yields a frame for it. -/
theorem frames_fit_their_link (inputs : List (Nat × Event)) (core : Core)
    (hrun : run step start inputs = some core) :
    (∀ id frame, Effect.toLink id frame ∈ core.common.record →
      ∃ link, (addedLinks inputs)[id]? = some link ∧ LinkEntry.overhead < link.maxSize ∧
        frame.serialize.length ≤ link.maxSize) ∧
    ∀ e ∈ core.state.links.links, 1 ≤ e.maxSize ∧
      ∀ (epoch : Epoch) (seq : Nat) (d : Payload) (acks : List (Epoch × Nat × Nat)),
        (∃ i, Covered ((SliceManager.fromVec epoch seq d.bytes).acked acks).slices i) →
        ∃ frames, ((SliceManager.fromVec epoch seq d.bytes).acked acks).getSlices e.maxSize =
          some frames ∧ frames ≠ [] := by
  have hfitted := fitted_run hrun
  constructor
  · intro id frame hmem
    have hcarried : (id, frame) ∈ core.common.carried :=
      List.mem_filterMap.mpr ⟨_, hmem, rfl⟩
    obtain ⟨link, hacc, hlen⟩ := hfitted.traffic.frames _ hcarried
    exact ⟨link, hacc.1, hacc.2, hlen⟩
  · intro e he
    have hsize := (hfitted.traffic.entries e he).2
    have hlt := e.link.maxSize_lt
    have hpos : 1 ≤ e.maxSize := by
      simp only [LinkEntry.maxSize]
      omega
    refine ⟨hpos, ?_⟩
    intro epoch seq d acks hout
    obtain ⟨_, _, hdata⟩ := SliceManager.acked_fields (.fromVec epoch seq d.bytes) acks
    have hlen : ((SliceManager.fromVec epoch seq d.bytes).acked acks).data.length ≤ isizeMax := by
      rw [hdata]
      exact d.small
    obtain ⟨pieces, hpieces, _, _, hcovered⟩ :=
      ((SliceManager.fromVec_suffix epoch seq d.bytes).acked acks).getSlices hlen hpos
        (show e.maxSize < 2 ^ 32 by simp only [LinkEntry.maxSize]; omega)
    refine ⟨_, hpieces, ?_⟩
    obtain ⟨i, hi⟩ := hout
    obtain ⟨p, hp, _⟩ := (hcovered i).mp hi
    exact List.ne_nil_of_mem (List.mem_map_of_mem hp)

/-- The smallest link that is accepted: it has room for one byte of a message. -/
def smallestLink : Link := ⟨"pipe", 57, by decide, true, fun _ => false, fun _ => true⟩

/-- Two bytes submitted before the session begins. -/
def smallestInputs : List (Nat × Event) :=
  [(0, .command (.addLink smallestLink)), (0, .command (.message ⟨[7, 8], by decide⟩ none)),
    (0, .frame 0 (.reset (some Epoch.one) true))]

/-- Over the smallest link the second byte has a frame of its own. -/
theorem frames_fit_their_link_smallest :
    ∃ core, run step start smallestInputs = some core ∧
      Effect.toLink 0 (.msgSlice 1 0 2 1 [8]) ∈ core.common.record ∧
      ∃ link, (addedLinks smallestInputs)[0]? = some link ∧
        LinkEntry.overhead < link.maxSize ∧
        (LinkProtocol.msgSlice 1 0 2 1 [8]).serialize.length ≤ link.maxSize := by
  refine ⟨_, rfl, by decide, ?_⟩
  apply (frames_fit_their_link smallestInputs _ rfl).1
  decide

end Core

end LinkSet
