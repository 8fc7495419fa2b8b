import LinkSet.Links.Latency
import LinkSet.Messages.Healing
import LinkSet.Session.Delivery
import LinkSet.Session.Robust

/-!
# Resending completes what is outstanding

Two connected endpoints, each with one link, which works again. Whatever was lost before, the timer
of the sender repeats its earliest message, the other side acknowledges it, and the next timer goes
on with the next message, until the user there has been given all of them. Only frames sent from
then on arrive. Pings are answered on the way, so the link is not taken for a slow one.
-/

namespace LinkSet

open Framework

/-- A link that is never closed, sends what it is given, can carry a byte of a message and has a
low latency. -/
structure LinkEntry.Working (e : LinkEntry) : Prop where
  stays : ∀ n, e.link.isClosed n = false
  sends : ∀ n, e.link.send n = true
  carries : LinkEntry.overhead < e.link.maxSize
  healthy : e.Healthy

namespace LinkEntry.Working

variable {e e' : LinkEntry}

private theorem of_sameLink (h : e.Working) (hsame : e.SameLink e') (hhealthy : e'.Healthy) :
    e'.Working := by
  constructor
  · rw [hsame.link]
    exact h.stays
  · rw [hsame.link]
    exact h.sends
  · rw [hsame.link]
    exact h.carries
  · exact hhealthy

private theorem alike (h : e.Working) (halike : e.Alike e') : e'.Working :=
  h.of_sameLink halike.toSameLink (halike.healthy h.healthy)

private theorem maxSize_pos (h : e.Working) : 0 < e.maxSize := Nat.sub_pos_of_lt h.carries

private theorem maxSize_lt (e : LinkEntry) : e.maxSize < 2 ^ 32 :=
  Nat.lt_of_le_of_lt (Nat.sub_le _ _) e.link.maxSize_lt

private theorem dropUnusable (h : e.Working) : LinkManager.dropUnusable [e] = [e.askClosed] := by
  have husable := (h.healthy.usable h.stays).1
  simp [LinkManager.dropUnusable, husable]

private theorem sendProto (h : e.Working) (proto : LinkProtocol) :
    ∃ e', (LinkManager.mk [e]).sendProto proto = ⟨⟨[e']⟩, [(e.id, proto)], .ok⟩ ∧ e.Alike e' := by
  refine ⟨e.askClosed.send.1, ?_, ⟨rfl, rfl⟩, rfl, rfl⟩
  have hok : e.askClosed.send.2 = .ok := if_pos (h.sends _)
  simp only [LinkManager.sendProto, h.dropUnusable, hok]
  rfl

private theorem sendAll (h : e.Working) (protos : List LinkProtocol) :
    ∃ e', LinkManager.sendAll e protos = (e', protos.map fun f => (e.id, f), .ok) ∧ e.Alike e' := by
  induction protos generalizing e with
  | nil => exact ⟨e, rfl, .refl e⟩
  | cons proto protos ih =>
      have halike : e.Alike e.send.1 := ⟨⟨rfl, rfl⟩, rfl, rfl⟩
      have hsplit : e.send = (e.send.1, .ok) := Prod.ext rfl (if_pos (h.sends _))
      obtain ⟨e', hall, halike'⟩ := ih (h.alike halike)
      refine ⟨e', ?_, halike.trans halike'⟩
      rw [LinkManager.sendAll, hsplit]
      simp only [hall, List.map_cons, halike'.id, halike.id]

private theorem sendSlices (h : e.Working) {sm : SliceManager} {protos : List LinkProtocol}
    (hslices : sm.getSlices e.maxSize = some protos) :
    ∃ e', (LinkManager.mk [e]).sendSlices sm =
      some ⟨⟨[e']⟩, protos.map fun f => (e.id, f), .ok⟩ ∧ e.Alike e' := by
  have halike : e.Alike e.askClosed := ⟨⟨rfl, rfl⟩, rfl, rfl⟩
  obtain ⟨e', hall, halike'⟩ := (h.alike halike).sendAll protos
  refine ⟨e', ?_, halike.trans halike'⟩
  have hsame : sm.getSlices e.askClosed.maxSize = some protos := hslices
  simp only [LinkManager.sendSlices, h.dropUnusable, hsame, Option.bind_eq_bind, Option.bind_some,
    hall]
  rfl

private theorem upkeep (h : e.Working) : (LinkManager.mk [e]).upkeep = ⟨[e.askClosed]⟩ := by
  have hkept := (h.healthy.usable h.stays).2
  simp [LinkManager.upkeep, hkept]

private theorem pong (e : LinkEntry) :
    (LinkManager.mk [e]).pong e.id = (⟨[e.send.1]⟩, [(e.id, .pong)]) := by
  simp [LinkManager.pong, LinkManager.modifyFirst]

private theorem endPing (e : LinkEntry) (now : Nat) :
    (LinkManager.mk [e]).endPing e.id now = ⟨[e.endPing now]⟩ := by
  simp [LinkManager.endPing, LinkManager.modifyFirst]

end LinkEntry.Working

/-- A core in session `e` over one working link, whose reader is there. -/
structure Core.Online (core : Core) (e : Epoch) (m : MessageManager) (entry : LinkEntry) : Prop where
  state : ∃ s, core.state = .connected s ∧ s.epoch = e ∧ s.msgMgr = m ∧ s.links = ⟨[entry]⟩
  working : entry.Working
  reader : entry.id ∈ core.common.readers

/-- A round sends the frame. -/
def Core.Sends (core core' : Core) (f : LinkProtocol) : Prop :=
  ∃ delta, core'.common.record = core.common.record ++ delta ∧ f ∈ sentFrames delta

/-- What a round leaves alone when it only sends frames. -/
structure Core.Transmits (core core' : Core) (sent : List Sent) : Prop where
  record : core'.common.record = core.common.record ++ wire sent
  submitted : core'.common.submitted = core.common.submitted

namespace Core.Online

variable {core : Core} {e : Epoch} {m : MessageManager} {entry : LinkEntry}

private theorem session (h : core.Online e m entry) : core.books.session = some (e, m) := by
  obtain ⟨s, hstate, rfl, rfl, _⟩ := h.state
  unfold Core.books
  rw [hstate]
  rfl

private theorem step_frame {s : Connected} {r : States × CommonState} {now id : Nat}
    {msg : LinkProtocol} (hstate : core.state = .connected s) (hreader : id ∈ core.common.readers)
    (hr : s.linkMsg core.common now id msg = some r) :
    core.step (now, .frame id msg) = some ⟨r.1, r.2⟩ := by
  have hhandle : core.handle now (.frame id msg) = some r := by
    rw [Core.handle, if_pos hreader, hstate]
    exact hr
  rw [Core.step, hhandle]
  rfl

private theorem slice (h : core.Online e m entry) (now : Nat) {seq seqLen firstIndex : Nat}
    {data : List UInt8} {b : Bool} {m1 m2 : MessageManager} {out : List (List UInt8)}
    (hrecv : m.recv seq firstIndex seqLen data = some (b, m1))
    (htake : m1.takeRecvd = some (out, m2)) :
    ∃ core' entry',
      core.step (now, .frame entry.id (.msgSlice e.toInt seq seqLen firstIndex data)) = some core' ∧
      core'.Online e m2 entry' ∧ entry.Alike entry' ∧
      (b = true → core.Sends core' (.ack e.toInt m1.lastAck.1 m1.lastAck.2)) := by
  obtain ⟨s, hstate, rfl, rfl, hlinks⟩ := h.state
  obtain ⟨e1, hsend, halike⟩ := h.working.sendProto (.ack s.epoch.toInt m1.lastAck.1 m1.lastAck.2)
  have hack : s.links.ack s.epoch m1.lastAck =
      ⟨⟨[e1]⟩, [(entry.id, .ack s.epoch.toInt m1.lastAck.1 m1.lastAck.2)], .ok⟩ := by
    rw [LinkManager.ack, hlinks, hsend]
  cases b with
  | true =>
      let s' : Connected := { s with msgMgr := m2, links := ⟨[e1]⟩ }
      let c' := (core.common.sent
        [(entry.id, .ack s.epoch.toInt m1.lastAck.1 m1.lastAck.2)]).deliver s.epoch out
      have hslice : s.linkMsg core.common now entry.id
          (.msgSlice s.epoch.toInt seq seqLen firstIndex data) = some (.connected s', c') := by
        simp only [Connected.linkMsg, Connected.linkSlice, if_true, hrecv, htake, hack,
          Option.bind_eq_bind, Option.bind_some]
        rfl
      refine ⟨⟨.connected s', c'⟩, e1, step_frame hstate h.reader hslice,
        ⟨⟨s', rfl, rfl, rfl, rfl⟩, h.working.alike halike, ?_⟩, halike, ?_⟩
      · rw [halike.id]
        exact h.reader
      · intro _
        refine ⟨_, List.append_assoc _ _ _, ?_⟩
        rw [sentFrames_append, sentFrames_wire]
        simp
  | false =>
      let s' : Connected := { s with msgMgr := m2 }
      have hstay : Connected.determineState s' (core.common.deliver s.epoch out) now =
          some (.connected s', core.common.deliver s.epoch out) := by
        have hempty : s'.links.isEmpty = false := by simp only [s', hlinks]; rfl
        simp only [Connected.determineState, hempty, Bool.false_eq_true, if_false]
      have hslice : s.linkMsg core.common now entry.id
          (.msgSlice s.epoch.toInt seq seqLen firstIndex data) =
            some (.connected s', core.common.deliver s.epoch out) := by
        simp only [Connected.linkMsg, Connected.linkSlice, if_true, hrecv, htake,
          Option.bind_eq_bind, Option.bind_some, Bool.false_eq_true, if_false]
        exact hstay
      exact ⟨_, entry, step_frame hstate h.reader hslice,
        ⟨⟨s', rfl, rfl, rfl, hlinks⟩, h.working, h.reader⟩, .refl entry, fun hb => by cases hb⟩

private theorem ack (h : core.Online e m entry) (now seq lastIndex : Nat) :
    ∃ core', core.step (now, .frame entry.id (.ack e.toInt seq lastIndex)) = some core' ∧
      core'.Online e (m.recvAck (seq, lastIndex)) entry ∧ core'.common = core.common := by
  obtain ⟨s, hstate, rfl, rfl, hlinks⟩ := h.state
  have hack : s.linkMsg core.common now entry.id (.ack s.epoch.toInt seq lastIndex) =
      some (.connected { s with msgMgr := s.msgMgr.recvAck (seq, lastIndex) }, core.common) := by
    simp only [Connected.linkMsg, if_true]
  exact ⟨_, step_frame hstate h.reader hack, ⟨⟨_, rfl, rfl, rfl, hlinks⟩, h.working, h.reader⟩, rfl⟩

private theorem ping (h : core.Online e m entry) (now : Nat) :
    ∃ core' entry', core.step (now, .frame entry.id .ping) = some core' ∧
      core'.Online e m entry' ∧ entry.Alike entry' ∧ core.Sends core' .pong := by
  obtain ⟨s, hstate, rfl, rfl, hlinks⟩ := h.state
  have halike : entry.Alike entry.send.1 := ⟨⟨rfl, rfl⟩, rfl, rfl⟩
  have hping : s.linkMsg core.common now entry.id .ping =
      some (.connected { s with links := ⟨[entry.send.1]⟩ },
        core.common.sent [(entry.id, .pong)]) := by
    simp only [Connected.linkMsg, hlinks, LinkEntry.Working.pong]
  refine ⟨_, _, step_frame hstate h.reader hping,
    ⟨⟨_, rfl, rfl, rfl, rfl⟩, h.working.alike halike, h.reader⟩, halike, _, rfl, ?_⟩
  rw [sentFrames_wire]
  simp

private theorem pong (h : core.Online e m entry) {now : Nat} (hping : entry.ping = some now) :
    ∃ core' entry', core.step (now, .frame entry.id .pong) = some core' ∧
      core'.Online e m entry' ∧ entry'.ping = none ∧ core'.common = core.common := by
  obtain ⟨s, hstate, rfl, rfl, hlinks⟩ := h.state
  have htime : ∀ sent, entry.ping = some sent → now < sent + maxLatency := by
    intro sent hsent
    rw [hping] at hsent
    obtain rfl := Option.some.inj hsent
    exact Nat.lt_add_of_pos_right (by decide)
  obtain ⟨hhealthy, hnone⟩ := h.working.healthy.endPing htime
  have hsame := LinkEntry.SameLink.endPing entry now
  have hpong : s.linkMsg core.common now entry.id .pong =
      some (.connected { s with links := ⟨[entry.endPing now]⟩ }, core.common) := by
    simp only [Connected.linkMsg, hlinks, LinkEntry.Working.endPing]
  refine ⟨_, entry.endPing now, step_frame hstate h.reader hpong,
    ⟨⟨_, rfl, rfl, rfl, rfl⟩, h.working.of_sameLink hsame hhealthy, ?_⟩, hnone, rfl⟩
  rw [hsame.id]
  exact h.reader

private theorem pingIfDue {s : Connected} (hlinks : s.links = ⟨[entry]⟩) (hworking : entry.Working)
    (hping : entry.ping = none) (now : Nat) :
    ∃ e1 pings, s.pingIfDue now = (⟨[e1]⟩, pings) ∧ entry.SameLink e1 ∧ e1.Working ∧
      ((e1.ping = none ∧ pings = []) ∨ (e1.ping = some now ∧ pings = [(entry.id, .ping)])) := by
  unfold Connected.pingIfDue
  rw [hlinks]
  split
  · have hsame := LinkEntry.SameLink.sendPing entry now
    have hhealthy : (entry.sendPing now).Healthy := by
      have hrecent : (entry.sendPing now).recent = entry.recent := by
        simp [LinkEntry.sendPing, LinkEntry.endPing, LinkEntry.send, hping]
      exact ⟨hrecent ▸ hworking.healthy.full, hrecent ▸ hworking.healthy.low⟩
    exact ⟨_, _, rfl, hsame, hworking.of_sameLink hsame hhealthy, Or.inr ⟨rfl, rfl⟩⟩
  · exact ⟨entry, [], rfl, .refl entry, hworking, Or.inl ⟨hping, rfl⟩⟩

private theorem timer (h : core.Online e m entry) (hping : entry.ping = none) {due : Nat}
    (htimer : core.common.timer = ⟨some due, some connectedTimerInterval⟩) {sm : SliceManager}
    (hfirst : m.getOutgoingSlices.head? = some sm) {frames : List LinkProtocol}
    (hslices : sm.getSlices entry.maxSize = some frames) :
    ∃ core' entry' sent, core.step (due, .timer) = some core' ∧ core'.Online e m entry' ∧
      entry'.id = entry.id ∧ core.Transmits core' sent ∧ (∀ f ∈ frames, f ∈ sent.map Prod.snd) ∧
      core'.common.timer = ⟨some (due + connectedTimerInterval), some connectedTimerInterval⟩ ∧
      (entry'.ping = none ∨ (entry'.ping = some due ∧ .ping ∈ sent.map Prod.snd)) := by
  obtain ⟨s, hstate, rfl, rfl, hlinks⟩ := h.state
  obtain ⟨e1, pings, hdue, hsame, hworking, hpings⟩ := pingIfDue hlinks h.working hping due
  have hasked : e1.Alike e1.askClosed := ⟨⟨rfl, rfl⟩, rfl, rfl⟩
  have hslices' : sm.getSlices e1.askClosed.maxSize = some frames := by
    have hsize : e1.askClosed.maxSize = entry.maxSize := by
      simp [LinkEntry.maxSize, LinkEntry.askClosed, hsame.link]
    rw [hsize, hslices]
  obtain ⟨e2, hsend, halike⟩ := (hworking.alike hasked).sendSlices hslices'
  have halike' := hasked.trans halike
  let frames' : List Sent := frames.map fun f => (e1.askClosed.id, f)
  let common : CommonState :=
    { core.common with
      timer := ⟨some (due + connectedTimerInterval), some connectedTimerInterval⟩ }
  let s' : Connected := { s with links := ⟨[e2]⟩ }
  have hpoll : core.common.timer.poll due =
      some ⟨some (due + connectedTimerInterval), some connectedTimerInterval⟩ := by
    rw [htimer]
    exact if_pos (Nat.le_refl _)
  have hround : s.timer common due = some (.connected s', (common.sent pings).sent frames') := by
    simp only [Connected.timer, hdue, hworking.upkeep, LinkManager.isEmpty, List.isEmpty_cons,
      Bool.false_eq_true, if_false, hfirst, Connected.sendIfSome, hsend, Option.map_some,
      Option.bind_eq_bind, Option.bind_some]
    rfl
  have hstep : core.step (due, .timer) =
      some ⟨.connected s', (common.sent pings).sent frames'⟩ := by
    have hhandle : core.handle due .timer = some (.connected s', (common.sent pings).sent frames') := by
      simp only [Core.handle, hpoll, Option.bind_eq_bind, Option.bind_some, hstate]
      exact hround
    rw [Core.step, hhandle]
    rfl
  have hid : e2.id = entry.id := halike'.id.trans hsame.id
  refine ⟨_, e2, pings ++ frames', hstep, ⟨⟨s', rfl, rfl, rfl, rfl⟩, hworking.alike halike', ?_⟩,
    hid, ⟨?_, rfl⟩, ?_, rfl, ?_⟩
  · rw [hid]
    exact h.reader
  · simp [wire, common]
  · intro f hf
    simp [frames', hf]
  · rcases hpings with ⟨hnone, _⟩ | ⟨hsome, rfl⟩
    · exact Or.inl (halike'.ping.trans hnone)
    · exact Or.inr ⟨halike'.ping.trans hsome, by simp⟩

end Core.Online

def Side.other : Side → Side
  | .left => .right
  | .right => .left

namespace Pair

private theorem core_other (p : Pair) (side : Side) : p.core side.other = p.peer side := by
  cases side <;> rfl

theorem peer_other (p : Pair) (side : Side) : p.peer side.other = p.core side := by
  cases side <;> rfl

/-- The frames sent to `s` between the two states. -/
def sentSince (base p : Pair) (s : Side) : List LinkProtocol :=
  (sentFrames (p.peer s).common.record).drop (sentFrames (base.peer s).common.record).length

private theorem sentSince_other {base p p' : Pair} {side : Side}
    (h : (p'.core side).common = (p.core side).common) :
    base.sentSince p' side.other = base.sentSince p side.other := by
  simp only [sentSince, peer_other, h]

/-- What goes on by itself from `base` on: frames arrive that were not yet sent there, and the timer
on `side` fires. -/
def Action.Passive (side : Side) (base : Pair) : Action → Prop
  | .deliver s _ _ n => (sentFrames (base.peer s).common.record).length ≤ n
  | .locally s _ .timer => s = side
  | .locally _ _ _ => False

/-- From `base` at time `start` the endpoints get by themselves to another state and time. -/
inductive Settles (side : Side) (base : Pair) (start : Nat) : Pair → Nat → Prop where
  | refl : Settles side base start base start
  | step {p p' : Pair} {now : Nat} {a : Action} (h : Settles side base start p now)
      (hpassive : a.Passive side base) (hle : now ≤ a.now) (hstep : p.step a = some p') :
      Settles side base start p' a.now

private theorem record_grows {p p' : Pair} {a : Action} (hstep : p.step a = some p') (s : Side) :
    ∃ delta, (p'.peer s).common.record = (p.peer s).common.record ++ delta := by
  obtain ⟨side, now, ev, hcore, hpeer, _⟩ := step_handles hstep
  by_cases hs : side = s
  · subst hs
    exact ⟨[], by rw [hpeer, List.append_nil]⟩
  · rw [(peer_of_ne hs p').1, (peer_of_ne hs p).1]
    obtain ⟨delta, hrecord, _⟩ := Core.step_phase hcore
    exact ⟨delta, hrecord⟩

namespace Settles

variable {side : Side} {base p p' : Pair} {begin now : Nat}

private theorem reached (h : Settles side base begin p now)
    (hbase : ∃ actions, run Pair.step start actions = some base) :
    ∃ actions, run Pair.step start actions = some p := by
  induction h with
  | refl => exact hbase
  | @step p p' now a _ _ _ hstep ih =>
      obtain ⟨actions, hrun⟩ := ih
      refine ⟨actions ++ [a], ?_⟩
      rw [run_append, hrun]
      exact run_cons.mpr ⟨p', hstep, rfl⟩

private theorem sent_le (h : Settles side base begin p now) (s : Side) :
    (sentFrames (base.peer s).common.record).length ≤
      (sentFrames (p.peer s).common.record).length := by
  induction h with
  | refl => exact Nat.le_refl _
  | step _ _ _ hstep ih =>
      obtain ⟨delta, hrecord⟩ := record_grows hstep s
      rw [hrecord, sentFrames_append, List.length_append]
      exact ih.trans (Nat.le_add_right _ _)

private theorem mem_sentSince (h : Settles side base begin p now) {s : Side} {f : LinkProtocol}
    (hsends : (p.peer s).Sends (p'.peer s) f) : f ∈ base.sentSince p' s := by
  obtain ⟨delta, hrecord, hf⟩ := hsends
  rw [sentSince, hrecord, sentFrames_append, List.drop_append_of_le_length (h.sent_le s)]
  exact List.mem_append_right _ hf

private theorem deliver (h : Settles side base begin p now) {s : Side} {f : LinkProtocol}
    {reader : Nat} {core' : Core} (hf : f ∈ base.sentSince p s)
    (hstep : (p.core s).step (now, .frame reader f) = some core') :
    ∃ p', Settles side base begin p' now ∧ p'.core s = core' ∧ p'.peer s = p.peer s := by
  obtain ⟨n, hn⟩ := List.mem_iff_getElem?.mp hf
  rw [sentSince, List.getElem?_drop] at hn
  obtain ⟨p', hp', hcore, hpeer⟩ := stepSide_of_step hstep
  have hdeliver : p.step (.deliver s now reader
      ((sentFrames (base.peer s).common.record).length + n)) = some p' := by
    rw [Pair.step, hn]
    exact hp'
  have hsettles : Settles side base begin p' now :=
    h.step (a := .deliver s now reader _) (Nat.le_add_right _ n) (Nat.le_refl now) hdeliver
  exact ⟨p', hsettles, hcore, hpeer⟩

end Settles

/-- Both endpoints are in session `e`, each with one link, which works, and the timer on `side` is
set for a time that has not passed. -/
structure Meets (p : Pair) (side : Side) (e : Epoch) (now : Nat) (ms mr : MessageManager)
    (es er : LinkEntry) : Prop where
  sender : (p.core side).Online e ms es
  receiver : (p.peer side).Online e mr er
  armed : ∃ due, now ≤ due ∧ (p.core side).common.timer = ⟨some due, some connectedTimerInterval⟩

/-- They have got there by themselves from a state that can be reached, and no message has been
inserted since. -/
structure Talks (base : Pair) (begin : Nat) (p : Pair) (side : Side) (e : Epoch) (now : Nat)
    (ms mr : MessageManager) (es er : LinkEntry) : Prop extends
    Meets p side e now ms mr es er where
  begun : ∃ actions, run step start actions = some base
  since : Settles side base begin p now
  given : p.given side e = base.given side e

namespace Talks

variable {base p p' : Pair} {begin now now' : Nat} {side : Side} {e : Epoch}
  {ms mr ms' mr' : MessageManager} {es er es' er' : LinkEntry}

private theorem reached (h : base.Talks begin p side e now ms mr es er) :
    ∃ actions, run step start actions = some p := h.since.reached h.begun

private theorem sent (h : base.Talks begin p side e now ms mr es er)
    (hsettles : Settles side base begin p' now') (hpeer : p'.peer side = p.peer side)
    (honline : (p'.core side).Online e ms' es') (frames : List Sent)
    (htransmits : (p.core side).Transmits (p'.core side) frames)
    (harmed : ∃ due, now' ≤ due ∧
      (p'.core side).common.timer = ⟨some due, some connectedTimerInterval⟩) :
    base.Talks begin p' side e now' ms' mr es' er where
  sender := honline
  receiver := by
    rw [hpeer]
    exact h.receiver
  armed := harmed
  begun := h.begun
  since := hsettles
  given := by
    rw [← h.given, Pair.given, htransmits.record, htransmits.submitted, insertedInto_append,
      (views_wire e frames).1, List.append_nil]
    rfl

private theorem heard (h : base.Talks begin p side e now ms mr es er)
    (hsettles : Settles side base begin p' now) (hpeer : p'.peer side = p.peer side)
    (honline : (p'.core side).Online e ms' es')
    (hcommon : (p'.core side).common = (p.core side).common) :
    base.Talks begin p' side e now ms' mr es' er := by
  refine h.sent hsettles hpeer honline [] ⟨?_, ?_⟩ ?_
  · rw [hcommon]
    simp [wire]
  · rw [hcommon]
  · rw [hcommon]
    exact h.armed

private theorem received (h : base.Talks begin p side e now ms mr es er)
    (hsettles : Settles side base begin p' now) (hcore : p'.core side = p.core side)
    (honline : (p'.peer side).Online e mr' er') :
    base.Talks begin p' side e now ms mr' es er' where
  sender := by
    rw [hcore]
    exact h.sender
  receiver := honline
  armed := by
    rw [hcore]
    exact h.armed
  begun := h.begun
  since := hsettles
  given := by
    rw [← h.given, Pair.given, hcore]
    rfl

private theorem mirrors (h : base.Talks begin p side e now ms mr es er) (hne : e ≠ Epoch.last) :
    ∃ st : Transfer, st.Inv ∧ st.Bounded ∧ st.inserted = base.given side e ∧
      st.returned = p.got side e ∧ st.returned.length = st.receiver.lastAck.1 ∧
      ms.SameOutgoing st.sender ∧ mr.SameIncoming st.receiver := by
  obtain ⟨actions, hrun⟩ := h.reached
  obtain ⟨st, hbounded, hmirrors⟩ := mirrored_bounded hrun side hne
  exact ⟨st, hmirrors.inv, hbounded, hmirrors.sends.inserted.trans h.given, hmirrors.hears.returned,
    hmirrors.hears.released, hmirrors.sends.session ms h.sender.session,
    hmirrors.hears.session mr h.receiver.session⟩

private theorem sized (h : base.Talks begin p side e now ms mr es er) (hne : e ≠ Epoch.last)
    {k : Nat} {d : List UInt8} (hd : (base.given side e)[k]? = some d) :
    (∃ n, Receiving mr n) ∧
      ∀ sm, mr.incomingSlices.get k = some sm → sm.data.length = d.length := by
  obtain ⟨st, hinv, _, hinserted, _, _, _, hsame⟩ := h.mirrors hne
  refine ⟨⟨_, hinv.receiving.congr hsame.incoming hsame.lastAck hsame.epoch⟩, ?_⟩
  intro sm hsm
  rw [hsame.incoming] at hsm
  obtain ⟨d', hd', hlen⟩ := hinv.sized k sm hsm
  rw [hinserted, hd] at hd'
  rw [Option.some.inj hd', hlen]

private theorem epoch_eq (h : base.Talks begin p side e now ms mr es er) : ms.epoch = e := by
  obtain ⟨actions, hrun⟩ := h.reached
  exact ((careful_of_run hrun side).orderly.books e ms h.sender.session).1

private theorem careful (h : base.Talks begin p side e now ms mr es er) : mr.Careful := by
  obtain ⟨actions, hrun⟩ := h.reached
  have hcareful := careful_of_run hrun side.other
  rw [core_other] at hcareful
  exact hcareful.books.session e mr h.receiver.session

private theorem acked (h : base.Talks begin p side e now ms mr es er) {seq lastIndex : Nat}
    (hack : .ack e.toInt seq lastIndex ∈ base.sentSince p side) :
    ∃ p', base.Talks begin p' side e now (ms.recvAck (seq, lastIndex)) mr es er := by
  obtain ⟨core', hstep, honline, hcommon⟩ := h.sender.ack now seq lastIndex
  obtain ⟨p', hsettles, rfl, hpeer⟩ := h.since.deliver hack hstep
  exact ⟨p', h.heard hsettles hpeer honline hcommon⟩

private theorem pinged (h : base.Talks begin p side e now ms mr es er) (hping : es.ping = some now)
    (hsent : .ping ∈ base.sentSince p side.other) :
    ∃ p' es' er', base.Talks begin p' side e now ms mr es' er' ∧ es'.ping = none ∧
      (p'.core side).common = (p.core side).common := by
  obtain ⟨core₁, er', hstep₁, honline₁, _, hpong⟩ := h.receiver.ping now
  rw [← core_other] at hstep₁
  obtain ⟨p₁, hsettles₁, rfl, hpeer₁⟩ := h.since.deliver hsent hstep₁
  rw [core_other] at honline₁ hpong
  rw [peer_other, peer_other] at hpeer₁
  have h₁ := h.received hsettles₁ hpeer₁ honline₁
  obtain ⟨core₂, es', hstep₂, honline₂, hnone, hcommon⟩ := h₁.sender.pong hping
  obtain ⟨p₂, hsettles₂, rfl, hpeer₂⟩ := hsettles₁.deliver (h.since.mem_sentSince hpong) hstep₂
  exact ⟨p₂, es', er', h₁.heard hsettles₂ hpeer₂ honline₂ hcommon, hnone, by rw [hcommon, hpeer₁]⟩

private theorem resent (h : base.Talks begin p side e now ms mr es er) (hping : es.ping = none)
    {sm : SliceManager} (hfirst : ms.getOutgoingSlices.head? = some sm)
    {frames : List LinkProtocol} (hslices : sm.getSlices es.maxSize = some frames) :
    ∃ p' now' es' er', base.Talks begin p' side e now' ms mr es' er' ∧ es'.ping = none ∧
      ∀ f ∈ frames, f ∈ base.sentSince p' side.other := by
  obtain ⟨due, hle, htimer⟩ := h.armed
  obtain ⟨core₁, es₁, sent, hstep, honline, _, htransmits, hframes, htimer', hpinged⟩ :=
    h.sender.timer hping htimer hfirst hslices
  obtain ⟨p₁, hp₁, rfl, hpeer⟩ := stepSide_of_step hstep
  have hsettles : Settles side base begin p₁ due :=
    h.since.step (a := .locally side due .timer) rfl hle hp₁
  have h₁ := h.sent hsettles hpeer honline sent htransmits ⟨_, Nat.le_add_right due _, htimer'⟩
  have hsent : ∀ f ∈ sent.map Prod.snd, f ∈ base.sentSince p₁ side.other := by
    intro f hf
    refine h.since.mem_sentSince ⟨wire sent, ?_, ?_⟩
    · rw [peer_other, peer_other, htransmits.record]
    · rw [sentFrames_wire]
      exact hf
  rcases hpinged with hnone | ⟨hsome, hmem⟩
  · exact ⟨p₁, due, es₁, er, h₁, hnone, fun f hf => hsent f (hframes f hf)⟩
  · obtain ⟨p₂, es₂, er₂, h₂, hnone, hcommon⟩ := h₁.pinged hsome (hsent _ hmem)
    refine ⟨p₂, due, es₂, er₂, h₂, hnone, ?_⟩
    intro f hf
    rw [sentSince_other hcommon]
    exact hsent f (hframes f hf)

/-- The frame is a piece of message `k`, which has `len` bytes. -/
def PieceOf (e : Epoch) (k len : Nat) (f : LinkProtocol) : Prop :=
  ∃ firstIndex data, f = .msgSlice e.toInt k len firstIndex data ∧ data ≠ [] ∧
    firstIndex + data.length ≤ len

private theorem slice (h : base.Talks begin p side e now ms mr es er) (hne : e ≠ Epoch.last)
    {k : Nat} {d : List UInt8} (hd : (base.given side e)[k]? = some d) {f : LinkProtocol}
    (hf : PieceOf e k d.length f) (hsent : f ∈ base.sentSince p side.other) :
    ∃ p' mr' er', base.Talks begin p' side e now ms mr' es er' ∧
      p'.core side = p.core side ∧ mr.lastAck.1 ≤ mr'.lastAck.1 ∧
      (∀ i, mr.Has k i ∨ Carries f k i → mr'.Has k i) ∧
      (k < mr'.lastAck.1 → ∃ seq lastIndex, k < seq ∧
        .ack e.toInt seq lastIndex ∈ base.sentSince p' side) := by
  obtain ⟨firstIndex, data, rfl, hdata, hfit⟩ := hf
  obtain ⟨⟨n, hreceiving⟩, hlen⟩ := h.sized hne hd
  have hproper : (LinkProtocol.msgSlice e.toInt k d.length firstIndex data).Proper := by
    obtain ⟨actions, hrun⟩ := h.reached
    refine (careful_of_run hrun side).books.sent _ ?_
    rw [← peer_other]
    exact List.mem_of_mem_drop hsent
  obtain ⟨b, m1, out, m2, hrecv, htake⟩ := h.careful.recv_takeRecvd hproper
  obtain ⟨core', er', hstep, honline, _, hack⟩ := h.receiver.slice now hrecv htake
  rw [← core_other] at hstep
  obtain ⟨p', hsettles, rfl, hcore⟩ := h.since.deliver hsent hstep
  rw [core_other] at honline hack
  rw [peer_other, peer_other] at hcore
  have hstored := hreceiving.recv_stored hdata hrecv
  obtain ⟨_, rfl⟩ := MessageManager.takeRecvd_eq_some.mp htake
  refine ⟨p', _, er', h.received hsettles hcore honline, hcore, hstored.ack_le, ?_, ?_⟩
  · intro i hi
    refine MessageManager.Has.takeRecvd ?_ htake
    rcases hi with hhas | ⟨_, _, _, _, hframe, hle, hlt⟩
    · exact hhas.stored hstored
    · cases hframe
      exact hreceiving.recv_has hlen hdata hfit hrecv hle hlt
  · intro hpast
    exact ⟨_, _, hpast, h.since.mem_sentSince (hack (hreceiving.recv_reports hrecv hpast))⟩

private theorem slices (hne : e ≠ Epoch.last) {k : Nat} {d : List UInt8}
    (hd : (base.given side e)[k]? = some d) {frames : List LinkProtocol}
    (hframes : ∀ f ∈ frames, PieceOf e k d.length f) (hsome : frames ≠ [])
    (h : base.Talks begin p side e now ms mr es er)
    (hsent : ∀ f ∈ frames, f ∈ base.sentSince p side.other) :
    ∃ p' mr' er', base.Talks begin p' side e now ms mr' es er' ∧
      mr.lastAck.1 ≤ mr'.lastAck.1 ∧
      (∀ i, mr.Has k i ∨ (∃ f ∈ frames, Carries f k i) → mr'.Has k i) ∧
      (k < mr'.lastAck.1 → ∃ seq lastIndex, k < seq ∧
        .ack e.toInt seq lastIndex ∈ base.sentSince p' side) := by
  induction frames generalizing p mr er with
  | nil => exact absurd rfl hsome
  | cons f frames ih =>
      obtain ⟨p₁, m₁, er₁, h₁, hcore, hle₁, hhas₁, hack₁⟩ :=
        h.slice hne hd (hframes f (by simp)) (hsent f (by simp))
      by_cases hrest : frames = []
      · subst hrest
        refine ⟨p₁, m₁, er₁, h₁, hle₁, ?_, hack₁⟩
        intro i hi
        simpa using hhas₁ i (by simpa using hi)
      · have hsent₁ : ∀ f ∈ frames, f ∈ base.sentSince p₁ side.other := by
          intro f hf
          rw [sentSince_other (congrArg Core.common hcore)]
          exact hsent f (by simp [hf])
        obtain ⟨p₂, m₂, er₂, h₂, hle₂, hhas₂, hack₂⟩ :=
          ih (fun f hf => hframes f (by simp [hf])) hrest h₁ hsent₁
        refine ⟨p₂, m₂, er₂, h₂, hle₁.trans hle₂, ?_, hack₂⟩
        rintro i (hhas | ⟨g, hg, hcarry⟩)
        · exact hhas₂ i (Or.inl (hhas₁ i (Or.inl hhas)))
        · rcases List.mem_cons.mp hg with rfl | hg
          · exact hhas₂ i (Or.inl (hhas₁ i (Or.inr hcarry)))
          · exact hhas₂ i (Or.inr ⟨g, hg, hcarry⟩)

/-- One round: the earliest message is sent again, arrives and is acknowledged, and the sender
drops it. -/
private theorem round (h : base.Talks begin p side e now ms mr es er) (hne : e ≠ Epoch.last)
    (hfull : ∀ d ∈ base.given side e, d ≠ []) (hping : es.ping = none) {k : Nat}
    {sm : SliceManager} (hfirst : ms.outgoingSlices.first = some (k, sm)) :
    ∃ p' now' ms' mr' es' er', base.Talks begin p' side e now' ms' mr' es' er' ∧
      es'.ping = none ∧ ms'.outgoingSlices.len < ms.outgoingSlices.len := by
  obtain ⟨st, hinv, _, hinserted, _, _, hout, hin⟩ := h.mirrors hne
  rw [← hinserted] at hfull
  have hhead : ms.getOutgoingSlices.head? = some sm := by
    rw [MessageManager.getOutgoingSlices, SortedMap.values, List.head?_map]
    exact congrArg (Option.map Prod.snd) hfirst
  obtain ⟨hget, hleast⟩ := SortedMap.first_eq_some.mp hfirst
  have hget' := hget
  rw [hout.outgoing] at hget' hleast
  obtain ⟨hdata, hseq, hepoch⟩ := hinv.sending.entry k sm hget'
  obtain ⟨hle, frames, hslices, hsome, hbytes⟩ := hinv.resends hfull hget' hleast
    h.sender.working.maxSize_pos (LinkEntry.Working.maxSize_lt es)
  have hpieces : ∀ f ∈ frames, PieceOf e k sm.data.length f := by
    intro f hf
    obtain ⟨firstIndex, piece, rfl, hpiece, _⟩ := SliceManager.getSlices_pieces hslices f hf
    rw [hseq, hepoch, ← hout.epoch, h.epoch_eq]
    exact ⟨firstIndex, piece, rfl, hpiece.1, hpiece.length_le⟩
  have hd := hdata
  rw [hinserted] at hd
  obtain ⟨p₁, now₁, es₁, er₁, h₁, hping₁, hsent⟩ := h.resent hping hhead hslices
  obtain ⟨p₂, m₂, er₂, h₂, hle₂, hhas, hack⟩ := slices hne hd hpieces hsome h₁ hsent
  have hpast : k < m₂.lastAck.1 := by
    obtain ⟨⟨n, hreceiving⟩, hlen⟩ := h₂.sized hne hd
    refine hreceiving.past_of_has hlen ?_ ?_ ?_
    · exact List.length_pos_of_ne_nil (hfull _ (List.mem_of_getElem? hdata))
    · rw [← hin.lastAck] at hle
      exact hle.trans hle₂
    · intro i hi
      apply hhas
      rcases hbytes i hi with hold | hnew
      · exact Or.inl (hold.congr ⟨hin.epoch.symm, hin.incoming.symm, hin.lastAck.symm⟩)
      · exact Or.inr hnew
  obtain ⟨seq, lastIndex, hlt, hmem⟩ := hack hpast
  obtain ⟨p₃, h₃⟩ := h₂.acked hmem
  refine ⟨p₃, now₁, _, m₂, es₁, er₂, h₃, hping₁, ?_⟩
  -- the acknowledgement drops it and adds nothing
  refine Nat.lt_of_le_of_lt (SortedMap.len_le_of_keys ?_) (SortedMap.len_erase_lt hget)
  intro j v hj
  rw [MessageManager.recvAck_get] at hj
  split at hj
  · cases hj
  · next hge =>
      rw [SortedMap.get_erase, if_neg (by simp only at hge; omega)]
      split at hj
      · obtain ⟨hmap, _⟩ := Option.filter_eq_some_iff.mp hj
        obtain ⟨old, hold, _⟩ := Option.map_eq_some_iff.mp hmap
        exact ⟨old, hold⟩
      · exact ⟨v, hj⟩

private theorem drains (h : base.Talks begin p side e now ms mr es er) (hne : e ≠ Epoch.last)
    (hfull : ∀ d ∈ base.given side e, d ≠ []) (hping : es.ping = none) :
    ∃ p' now' ms' mr' es' er', base.Talks begin p' side e now' ms' mr' es' er' ∧
      ∀ k, ms'.outgoingSlices.get k = none := by
  induction hlen : ms.outgoingSlices.len using Nat.strong_induction_on
    generalizing p now ms mr es er with
  | _ n ih =>
      cases hfirst : ms.outgoingSlices.first with
      | none => exact ⟨p, now, ms, mr, es, er, h, SortedMap.first_eq_none.mp hfirst⟩
      | some first =>
          obtain ⟨p₁, now₁, ms₁, mr₁, es₁, er₁, h₁, hping₁, hlt⟩ := h.round hne hfull hping hfirst
          exact ih _ (hlen ▸ hlt) h₁ hping₁ rfl

end Talks

/-- From every reachable state in which both endpoints are in one session, each over one working
link, and no ping is out, the timer of the sender and the arrival of the frames sent from then on
can bring about that every message inserted so far is reported, unless one of them is empty. What
was sent before may all be lost. -/
theorem resending_completes (actions : List Action) (p : Pair)
    (hrun : run step start actions = some p) (side : Side) (e : Epoch) (hne : e ≠ Epoch.last)
    (now : Nat) (ms mr : MessageManager) (es er : LinkEntry)
    (hmeets : p.Meets side e now ms mr es er) (hping : es.ping = none)
    (hfull : ∀ d ∈ p.given side e, d ≠ []) :
    ∃ p' now', Settles side p now p' now' ∧
      List.Forall₂ Transfer.Blanked (p.given side e) (p'.got side e) := by
  have h : p.Talks now p side e now ms mr es er := ⟨hmeets, ⟨actions, hrun⟩, .refl, rfl⟩
  obtain ⟨p', now', ms', mr', es', er', h', hempty⟩ := h.drains hne hfull hping
  refine ⟨p', now', h'.since, ?_⟩
  obtain ⟨st, hinv, hbounded, hinserted, hgot, hreleased, hout, _⟩ := h'.mirrors hne
  obtain ⟨sent, hpre, hblank⟩ := hbounded.returned_blanked
  rw [hinserted] at hpre
  rw [hgot] at hblank
  -- a message that was not released would still be held
  have hall : (p.given side e).length ≤ st.receiver.lastAck.1 := by
    by_contra hlt
    obtain ⟨d, hd⟩ : ∃ d, (p.given side e)[st.receiver.lastAck.1]? = some d :=
      ⟨_, List.getElem?_eq_getElem (Nat.not_le.mp hlt)⟩
    have hd' := hfull d (List.mem_of_getElem? hd)
    rw [← hinserted] at hd
    obtain ⟨sm, hsm⟩ := hinv.pending.held _ d (Nat.le_refl _) hd hd'
    rw [← hout.outgoing, hempty] at hsm
    cases hsm
  have hlen : (p.given side e).length ≤ sent.length := by
    rw [hblank.length_eq, ← hgot, hreleased]
    exact hall
  rwa [hpre.eq_of_length_le hlen] at hblank

/-- Both sides get a link, meet and answer the first ping, then the left one submits two messages
whose slices are lost. -/
private def twoLost : List Action :=
  [.locally .left 0 (.command (.addLink steadyLink)),
    .locally .right 0 (.command (.addLink steadyLink)), .deliver .right 0 0 1, .deliver .left 0 0 1,
    .deliver .right 0 0 0, .deliver .left 0 0 3,
    .locally .left 0 (.command (.message ⟨[1, 9], by decide⟩ none)),
    .locally .left 0 (.command (.message ⟨[2, 9], by decide⟩ none))]

theorem resending_completes_lost :
    ∃ p, run step start twoLost = some p ∧ p.given .left Epoch.one = [[1, 9], [2, 9]] ∧
      p.got .left Epoch.one = [] ∧
      ∃ p' now', Settles .left p 0 p' now' ∧
        List.Forall₂ Transfer.Blanked (p.given .left Epoch.one) (p'.got .left Epoch.one) := by
  have hlow : ∀ sample ∈ 0 :: List.replicate 5 defaultLatency, sample < maxLatency := by decide
  have hlow' : ∀ sample ∈ List.replicate 6 defaultLatency, sample < maxLatency := by decide
  refine ⟨_, rfl, rfl, rfl, resending_completes twoLost _ rfl .left Epoch.one (by decide) 0 _ _ _ _
    ⟨⟨⟨_, rfl, rfl, rfl, rfl⟩, ?_, by decide⟩, ⟨⟨_, rfl, rfl, rfl, rfl⟩, ?_, by decide⟩,
      ⟨_, Nat.zero_le _, rfl⟩⟩ ?_ (by decide)⟩
  · exact ⟨fun _ => rfl, fun _ => rfl, by decide, ⟨rfl, hlow⟩⟩
  · exact ⟨fun _ => rfl, fun _ => rfl, by decide, ⟨rfl, hlow'⟩⟩
  · rfl

end Pair

end LinkSet
