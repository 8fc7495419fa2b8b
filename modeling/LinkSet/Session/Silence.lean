import Mathlib.Algebra.Order.BigOperators.Group.List
import LinkSet.Core.Traffic
import LinkSet.Framework.Reach
import LinkSet.Session.Notice
import LinkSet.Session.Timing

/-!
# A peer that falls silent

A link whose peer has gone is not told so by its carrier. Connected pings its links on its timer,
and a ping that is still open at the next one counts with the time in between. After four pings the
average is above the maximum, and the link is removed; with its last link the session is left. All
this is for links whose sends do not wait: `ping_all` then pings all links at the time of the timer.
-/

namespace LinkSet

open Framework

namespace LinkEntry

variable {e e' : LinkEntry} {n sent now : Nat}

/-- The last `n + 1` pings were sent an interval of the timer apart or more, the last one at
`sent`, none was answered, and the link has not been found too slow. -/
structure Worn (n sent : Nat) (e : LinkEntry) : Prop where
  ping : e.ping = some sent
  late : ∃ samples rest, e.recent = samples ++ rest ∧ samples.length = n ∧
    ∀ x ∈ samples, connectedTimerInterval ≤ x
  short : 0 < n → e.recent.length ≤ historyLen
  kept : e.latency < maxLatency

private theorem Alike.latency (h : e.Alike e') : e'.latency = e.latency := by
  unfold LinkEntry.latency
  rw [h.recent]

private theorem Worn.alike (hworn : e.Worn n sent) (h : e.Alike e') : e'.Worn n sent where
  ping := h.ping.trans hworn.ping
  late := by
    rw [h.recent]
    exact hworn.late
  short := by
    rw [h.recent]
    exact hworn.short
  kept := by
    rw [h.latency]
    exact hworn.kept

/-- Three samples of five seconds are an average above the maximum, whatever the others are. -/
private theorem Worn.lt_three (h : e.Worn n sent) : n < 3 := by
  by_contra hge
  obtain ⟨samples, rest, hrecent, hlen, hlate⟩ := h.late
  have hshort : e.recent.length ≤ 6 := h.short (by omega)
  have hsum : samples.length • connectedTimerInterval ≤ samples.sum :=
    List.card_nsmul_le_sum samples _ hlate
  have hfive : connectedTimerInterval = 5000000000 := rfl
  have hmax : maxLatency = 2000000000 := rfl
  rw [hlen, Nat.nsmul_eq_mul, hfive] at hsum
  have hlong : 15000000000 ≤ e.recent.sum := by
    rw [hrecent, List.sum_append]
    omega
  have hne : e.recent ≠ [] := by
    intro hnil
    rw [hnil, List.sum_nil] at hlong
    omega
  have hpos : 0 < e.recent.length := List.length_pos_of_ne_nil hne
  have hslow : maxLatency ≤ e.latency := by
    rw [LinkEntry.latency, if_neg hne, Nat.le_div_iff_mul_le hpos, hmax]
    omega
  have hkept := h.kept
  omega

private theorem Worn.first (hkept : (e.sendPing now).latency < maxLatency) :
    (e.sendPing now).Worn 0 now where
  ping := rfl
  late := ⟨[], _, rfl, rfl, by simp⟩
  short := fun h => absurd h (Nat.lt_irrefl 0)
  kept := hkept

private theorem Worn.next (h : e.Worn n sent) (hlate : sent + connectedTimerInterval ≤ now)
    (hkept : (e.sendPing now).latency < maxLatency) : (e.sendPing now).Worn (n + 1) now := by
  obtain ⟨samples, rest, hrecent, hlen, hall⟩ := h.late
  have hthree := h.lt_three
  have hsix : historyLen = 6 := rfl
  have hnext : (e.sendPing now).recent = ((now - sent) :: e.recent).take historyLen := by
    simp only [sendPing, endPing, h.ping, addLatency, send]
  refine ⟨rfl, ⟨(now - sent) :: samples, rest.take (historyLen - (n + 1)), ?_, ?_, ?_⟩, ?_, hkept⟩
  · rw [hnext, hrecent, ← List.cons_append, List.take_append, List.length_cons, hlen,
      List.take_of_length_le (by simp only [List.length_cons]; omega)]
  · rw [List.length_cons, hlen]
  · intro x hx
    rcases List.mem_cons.mp hx with rfl | hx
    · omega
    · exact hall x hx
  · intro _
    rw [hnext, List.length_take]
    exact Nat.min_le_left _ _

end LinkEntry

namespace LinkManager

variable {m m' m'' : LinkManager}

/-- Every link of `m'` is one of `m` with its pings as they were. -/
def Within (m' m : LinkManager) : Prop := ∀ e' ∈ m'.links, ∃ e ∈ m.links, e.Alike e'

theorem Within.refl (m : LinkManager) : m.Within m := fun e he => ⟨e, he, .refl e⟩

theorem Within.trans (h : m'.Within m) (h' : m''.Within m') : m''.Within m := by
  intro e'' he''
  obtain ⟨e', he', halike'⟩ := h' e'' he''
  obtain ⟨e, he, halike⟩ := h e' he'
  exact ⟨e, he, halike.trans halike'⟩

private theorem within_evictLink (m : LinkManager) (id : Nat) : (m.evictLink id).Within m :=
  fun e he => ⟨e, (List.mem_filter.mp he).1, .refl e⟩

private theorem within_dropUnusable (l : List LinkEntry) : Within ⟨dropUnusable l⟩ ⟨l⟩ := by
  induction l with
  | nil => exact .refl _
  | cons e l ih =>
      intro e' he'
      simp only [dropUnusable] at he'
      split at he'
      · obtain ⟨e₀, he₀, halike⟩ := ih e' he'
        exact ⟨e₀, List.mem_cons_of_mem _ he₀, halike⟩
      · rcases List.mem_cons.mp he' with rfl | hmem
        · exact ⟨e, by simp, ⟨⟨rfl, rfl⟩, rfl, rfl⟩⟩
        · exact ⟨e', List.mem_cons_of_mem _ hmem, .refl e'⟩

private theorem within_front {link link' : LinkEntry} {rest : List LinkEntry}
    (hlinks : dropUnusable m.links = link :: rest) (halike : link.Alike link') :
    Within ⟨link' :: rest⟩ m := by
  have hdrop := within_dropUnusable m.links
  rw [hlinks] at hdrop
  refine hdrop.trans ?_
  intro e' he'
  rcases List.mem_cons.mp he' with rfl | hmem
  · exact ⟨link, by simp, halike⟩
  · exact ⟨e', List.mem_cons_of_mem _ hmem, .refl e'⟩

private theorem within_sendProto (m : LinkManager) (proto : LinkProtocol) :
    (m.sendProto proto).links.Within m := by
  unfold sendProto
  cases hlinks : dropUnusable m.links with
  | nil => exact fun _ he => by cases he
  | cons link rest => exact within_front hlinks ⟨⟨rfl, rfl⟩, rfl, rfl⟩

private theorem within_sendSlices {sm : SliceManager} {out : Outcome}
    (h : m.sendSlices sm = some out) : out.links.Within m := by
  unfold sendSlices at h
  cases hlinks : dropUnusable m.links with
  | nil =>
      rw [hlinks] at h
      cases h
      exact fun _ he => by cases he
  | cons link rest =>
      rw [hlinks] at h
      obtain ⟨protos, _, h⟩ := Option.bind_eq_some_iff.mp h
      cases h
      exact within_front hlinks (sendAll_spec link protos).1

private theorem mem_modifyFirst_cases {id : Nat} {f : LinkEntry → LinkEntry} {l : List LinkEntry}
    {e' : LinkEntry} (h : e' ∈ modifyFirst id f l) : e' ∈ l ∨ ∃ e ∈ l, e.id = id ∧ e' = f e := by
  induction l with
  | nil => cases h
  | cons e l ih =>
      simp only [modifyFirst] at h
      split at h
      · next hid =>
          rcases List.mem_cons.mp h with rfl | hmem
          · exact Or.inr ⟨e, by simp, hid, rfl⟩
          · exact Or.inl (List.mem_cons_of_mem _ hmem)
      · rcases List.mem_cons.mp h with rfl | hmem
        · exact Or.inl (by simp)
        · rcases ih hmem with hold | ⟨e₀, he₀, hid, rfl⟩
          · exact Or.inl (List.mem_cons_of_mem _ hold)
          · exact Or.inr ⟨e₀, List.mem_cons_of_mem _ he₀, hid, rfl⟩

private theorem within_pong (m : LinkManager) (id : Nat) : (m.pong id).1.Within m := by
  intro e' he'
  rcases mem_modifyFirst_cases he' with hold | ⟨e, he, _, rfl⟩
  · exact ⟨e', hold, .refl e'⟩
  · exact ⟨e, he, ⟨⟨rfl, rfl⟩, rfl, rfl⟩⟩

private theorem mem_endPing {id now : Nat} {e' : LinkEntry} (h : e' ∈ (m.endPing id now).links) :
    e'.id = id ∨ e' ∈ m.links := by
  rcases mem_modifyFirst_cases h with hold | ⟨e, _, hid, rfl⟩
  · exact Or.inr hold
  · exact Or.inl ((LinkEntry.SameLink.endPing e now).id.trans hid)

private theorem mem_upkeep {e' : LinkEntry} (h : e' ∈ m.upkeep.links) :
    ∃ e ∈ m.links, e.Alike e' ∧ e.latency < maxLatency := by
  obtain ⟨e, he, rfl⟩ := List.mem_map.mp h
  obtain ⟨hmem, hkept⟩ := List.mem_filter.mp he
  simp only [Bool.and_eq_true, decide_eq_true_eq] at hkept
  exact ⟨e, hmem, ⟨⟨rfl, rfl⟩, rfl, rfl⟩, hkept.2⟩

end LinkManager

namespace Connected

variable {s s' : Connected} {c c' : CommonState} {now id : Nat}

private theorem determineState_stays (hr : determineState s c now = some (.connected s', c')) :
    s' = s ∧ s.links.links ≠ [] := by
  unfold determineState at hr
  split at hr
  · split at hr
    · cases hr
    · split at hr <;> cases hr
  · next hne =>
      cases hr
      refine ⟨rfl, ?_⟩
      intro hnil
      exact hne (by simp [LinkManager.isEmpty, hnil])

private theorem sendIfSome_within {links links' : LinkManager} {o : Option SliceManager}
    (hr : sendIfSome links c o = some (links', c')) : links'.Within links := by
  cases o with
  | none =>
      cases hr
      exact .refl _
  | some sm =>
      obtain ⟨out, hout, hr⟩ := Option.map_eq_some_iff.mp hr
      cases hr
      exact LinkManager.within_sendSlices hout

private theorem ctrlMsg_stays {cmd : LinkSetControlCommand Submission}
    (hr : s.ctrlMsg c now cmd = some (.connected s', c')) :
    s'.lastPing = s.lastPing ∧ ∀ e' ∈ s'.links.links,
      (∃ link, cmd = .addLink link ∧ e'.id = c.nextLinkId) ∨ ∃ e ∈ s.links.links, e.Alike e' := by
  have hsame : ∀ e' ∈ s.links.links, (∃ link, cmd = .addLink link ∧ e'.id = c.nextLinkId) ∨
      ∃ e ∈ s.links.links, e.Alike e' := fun e' he' => Or.inr ⟨e', he', .refl e'⟩
  cases cmd with
  | connect =>
      cases hr
      exact ⟨rfl, hsame⟩
  | disconnect => cases hr
  | addConnector conn =>
      cases hr
      exact ⟨rfl, hsame⟩
  | addAddress addr =>
      cases hr
      exact ⟨rfl, hsame⟩
  | addLink link =>
      obtain ⟨⟨entry, c₁⟩, hwrap, hr⟩ := Option.bind_eq_some_iff.mp hr
      obtain ⟨_, _, hnew⟩ := CommonState.wrapLink_spec hwrap
      cases entry with
      | none =>
          cases hr
          exact ⟨rfl, hsame⟩
      | some entry =>
          cases hr
          refine ⟨rfl, ?_⟩
          intro e' he'
          rcases List.mem_cons.mp he' with rfl | hold
          · refine Or.inl ⟨link, rfl, ?_⟩
            rw [(hnew _ rfl).1]
            rfl
          · exact hsame e' hold
  | message data epoch =>
      simp only [ctrlMsg] at hr
      split at hr
      · cases hr
        exact ⟨rfl, hsame⟩
      · obtain ⟨⟨seq, m⟩, _, hr⟩ := Option.bind_eq_some_iff.mp hr
        obtain ⟨⟨links, c₁⟩, hsend, hr⟩ := Option.bind_eq_some_iff.mp hr
        obtain ⟨rfl, _⟩ := determineState_stays hr
        exact ⟨rfl, fun e' he' => Or.inr (sendIfSome_within hsend e' he')⟩

private theorem linkMsg_stays {msg : LinkProtocol}
    (hr : s.linkMsg c now id msg = some (.connected s', c')) :
    s'.lastPing = s.lastPing ∧ ∀ e' ∈ s'.links.links,
      (msg = .pong ∧ e'.id = id) ∨ ∃ e ∈ s.links.links, e.Alike e' := by
  have hsame : ∀ e' ∈ s.links.links, (msg = .pong ∧ e'.id = id) ∨
      ∃ e ∈ s.links.links, e.Alike e' := fun e' he' => Or.inr ⟨e', he', .refl e'⟩
  cases msg with
  | reset epoch request =>
      simp only [linkMsg, linkReset] at hr
      split at hr
      · split at hr
        · obtain ⟨rfl, _⟩ := determineState_stays hr
          exact ⟨rfl, fun e' he' => Or.inr (s.links.within_sendProto _ e' he')⟩
        · cases hr
      · cases hr
        exact ⟨rfl, hsame⟩
  | ack epoch seq lastIndex =>
      simp only [linkMsg] at hr
      split at hr <;> cases hr <;> exact ⟨rfl, hsame⟩
  | msgSlice epoch seq seqLen firstIndex data =>
      simp only [linkMsg, linkSlice] at hr
      split at hr
      · obtain ⟨⟨b, m₁⟩, _, hr⟩ := Option.bind_eq_some_iff.mp hr
        obtain ⟨⟨out, m₂⟩, _, hr⟩ := Option.bind_eq_some_iff.mp hr
        obtain ⟨rfl, _⟩ := determineState_stays hr
        refine ⟨rfl, fun e' he' => Or.inr ?_⟩
        cases b with
        | true => exact s.links.within_sendProto _ e' he'
        | false => exact ⟨e', he', .refl e'⟩
      · cases hr
        exact ⟨rfl, hsame⟩
  | ping =>
      cases hr
      exact ⟨rfl, fun e' he' => Or.inr (s.links.within_pong id e' he')⟩
  | pong =>
      cases hr
      refine ⟨rfl, ?_⟩
      intro e' he'
      rcases LinkManager.mem_endPing he' with hid | hold
      · exact Or.inl ⟨rfl, hid⟩
      · exact hsame e' hold

private theorem timer_stays (hr : s.timer c now = some (.connected s', c')) :
    s'.lastPing = s.lastPing ∧ s'.links.links ≠ [] ∧ ∀ e' ∈ s'.links.links,
      ∃ e ∈ (s.pingIfDue now).1.links, e.Alike e' ∧ e.latency < maxLatency := by
  simp only [timer] at hr
  obtain ⟨⟨links, c₁⟩, hsend, hr⟩ := Option.bind_eq_some_iff.mp hr
  obtain ⟨rfl, hne⟩ := determineState_stays hr
  refine ⟨rfl, hne, ?_⟩
  intro e' he'
  obtain ⟨e₁, he₁, halike₁⟩ := sendIfSome_within hsend e' he'
  obtain ⟨e, he, halike, hkept⟩ := LinkManager.mem_upkeep he₁
  exact ⟨e, he, halike.trans halike₁, hkept⟩

end Connected

private theorem States.eq_connected {st : States} (h : st.kind = .connected) :
    ∃ s, st = .connected s := by
  cases st with
  | connected s => exact ⟨s, rfl⟩
  | _ => cases h

private theorem Deadline.poll_due {d d' : Deadline} {now : Nat} (h : d.poll now = some d') :
    ∃ due, d.deadline = some due ∧ due ≤ now := by
  unfold poll at h
  split at h
  · cases h
  · next due hdue =>
      obtain ⟨hle, _⟩ := Option.ite_none_right_eq_some.mp h
      exact ⟨due, hdue, hle⟩

namespace Core

variable {core core' : Core} {now last k : Nat} {ev : Event} {P : Nat → Prop}

/-- The timer fires when the links are to be pinged, where `last` is the `last_ping` of the state. -/
def dueTimer (last : Nat) : Nat × Event → Bool
  | (now, .timer) => pingInterval < now - last
  | _ => false

/-- The event answers no ping of the links in `P` and adds none of them. -/
def Ignores (P : Nat → Prop) (core : Core) (ev : Event) : Prop :=
  (∀ link, ev = .command (.addLink link) → ¬ P core.common.nextLinkId) ∧
    ∀ id, ev = .frame id .pong → ¬ P id

private theorem links_of_step {s s' : Connected} (hs : core.state = .connected s)
    (hs' : core'.state = .connected s') (hev : ev ≠ .timer)
    (hstep : core.step (now, ev) = some core') (hign : core.Ignores P ev) :
    s'.lastPing = s.lastPing ∧
      ∀ e' ∈ s'.links.links, P e'.id → ∃ e ∈ s.links.links, e.Alike e' := by
  obtain ⟨⟨st, c⟩, hr, rfl⟩ := Option.map_eq_some_iff.mp hstep
  obtain rfl : st = .connected s' := hs'
  cases ev with
  | command cmd =>
      simp only [handle, hs, States.ctrlMsg] at hr
      obtain ⟨hlast, hlinks⟩ := Connected.ctrlMsg_stays hr
      refine ⟨hlast, ?_⟩
      intro e' he' hP
      rcases hlinks e' he' with ⟨link, hcmd, hid⟩ | hold
      · cases cmd with
        | addLink link' =>
            rw [hid] at hP
            exact absurd hP (hign.1 link' rfl)
        | _ => cases hcmd
      · exact hold
  | config conf =>
      simp only [handle, hs] at hr
      cases hr
      exact ⟨rfl, fun e' he' _ => ⟨e', he', .refl e'⟩⟩
  | frame id msg =>
      simp only [handle, hs, States.linkMsg] at hr
      obtain ⟨_, hr⟩ := Option.ite_none_right_eq_some.mp hr
      obtain ⟨hlast, hlinks⟩ := Connected.linkMsg_stays hr
      refine ⟨hlast, ?_⟩
      intro e' he' hP
      rcases hlinks e' he' with ⟨rfl, hid⟩ | hold
      · rw [hid] at hP
        exact absurd hP (hign.2 id rfl)
      · exact hold
  | timer => exact absurd rfl hev
  | debug cmd =>
      simp only [handle, hs, States.debug] at hr
      cases cmd with
      | evictLink id =>
          cases hr
          exact ⟨rfl, fun e' he' _ => s.links.within_evictLink id e' he'⟩
      | _ =>
          cases hr
          exact ⟨rfl, fun e' he' _ => ⟨e', he', .refl e'⟩⟩
  | permits addr count =>
      simp only [handle, hs, States.permits] at hr
      cases hr
      exact ⟨rfl, fun e' he' _ => ⟨e', he', .refl e'⟩⟩

/-- In a round that stays in Connected the timer is set again when it fires, and not touched
otherwise. -/
private theorem timer_of_step (hkind : core.state.kind = .connected)
    (hkind' : core'.state.kind = .connected) (hstep : core.step (now, ev) = some core') :
    (ev ≠ .timer ∧ core'.common.timer = core.common.timer) ∨
      (ev = .timer ∧ core.common.timer.poll now = some core'.common.timer) := by
  cases step_timer hstep with
  | stays hev _ htimer => exact Or.inl ⟨hev, htimer⟩
  | cleared _ hdisc _ =>
      rw [hkind] at hdisc
      cases hdisc
  | fired hev _ _ hpoll => exact Or.inr ⟨hev, hpoll⟩
  | entered hne _ _ _ => exact absurd (hkind'.trans hkind.symm) hne
  | mismatched _ hne _ _ _ => exact absurd (hkind'.trans hkind.symm) hne

/-- The core is in Connected, its timer has fired `k` times when the links were to be pinged, and no
link in `P` has answered. -/
structure Waited (P : Nat → Prop) (last k : Nat) (core : Core) : Prop where
  state : ∃ s, core.state = .connected s ∧ s.lastPing = last
  interval : core.common.timer.interval = some connectedTimerInterval
  pinged : k ≠ 0 → ∃ sent due, pingInterval < sent - last ∧
    core.common.timer.deadline = some due ∧ sent + connectedTimerInterval ≤ due ∧
    ∀ e ∈ core.state.links.links, P e.id → e.Worn (k - 1) sent
  /-- The state is left with its last link. -/
  bounded : (∀ id, P id) → k ≤ 3

namespace Waited

private theorem fired {s s' : Connected} (h : core.Waited P last k) (hs : core.state = .connected s)
    (hs' : core'.state = .connected s') (hstep : core.step (now, .timer) = some core')
    (hpoll : core.common.timer.poll now = some core'.common.timer) :
    core'.Waited P last (k + if dueTimer last (now, .timer) then 1 else 0) := by
  obtain ⟨s₀, hs₀, hlast⟩ := h.state
  obtain rfl : s₀ = s := States.connected.inj (hs₀.symm.trans hs)
  obtain ⟨⟨st, c⟩, hr, rfl⟩ := Option.map_eq_some_iff.mp hstep
  obtain rfl : st = .connected s' := hs'
  obtain ⟨timer, _, hr⟩ := Option.bind_eq_some_iff.mp hr
  rw [hs] at hr
  obtain ⟨hlast', hne, hlinks⟩ := Connected.timer_stays hr
  obtain ⟨due, hdue, hnow⟩ := Deadline.poll_due hpoll
  have hdeadline : c.timer.deadline = some (now + connectedTimerInterval) := by
    rw [(Deadline.poll_eq hpoll).2, h.interval]
    rfl
  have hinterval : c.timer.interval = some connectedTimerInterval :=
    (Deadline.poll_interval hpoll).trans h.interval
  have hstate : ∃ s, (⟨.connected s', c⟩ : Core).state = .connected s ∧ s.lastPing = last :=
    ⟨s', rfl, hlast'.trans hlast⟩
  by_cases hping : pingInterval < now - last
  · have hworn : ∀ e' ∈ s'.links.links, P e'.id → e'.Worn k now := by
      intro e' he' hP
      obtain ⟨e₁, he₁, halike, hkept⟩ := hlinks e' he'
      rw [Connected.pingIfDue, hlast, if_pos hping] at he₁
      obtain ⟨e, he, rfl⟩ := List.mem_map.mp he₁
      refine LinkEntry.Worn.alike ?_ halike
      cases k with
      | zero => exact .first hkept
      | succ n =>
          obtain ⟨sent, due', _, hdue', hle, hall⟩ := h.pinged (Nat.succ_ne_zero n)
          obtain rfl := Option.some.inj (hdue.symm.trans hdue')
          have hid : P e.id := by
            rw [← (LinkEntry.SameLink.sendPing e now).id, ← halike.id]
            exact hP
          have hmem : e ∈ core.state.links.links := by
            rw [hs]
            exact he
          exact (hall e hmem hid).next (hle.trans hnow) hkept
    have hcount : dueTimer last (now, .timer) = true := decide_eq_true hping
    rw [hcount]
    refine ⟨hstate, hinterval, ?_, ?_⟩
    · intro _
      exact ⟨now, _, hping, hdeadline, Nat.le_refl _, hworn⟩
    · intro hall
      obtain ⟨e', he'⟩ := List.exists_mem_of_ne_nil _ hne
      exact (hworn e' he' (hall _)).lt_three
  · have hzero : k = 0 := by
      by_contra hk
      obtain ⟨sent, due', hsent, hdue', hle, _⟩ := h.pinged hk
      obtain rfl := Option.some.inj (hdue.symm.trans hdue')
      omega
    have hcount : dueTimer last (now, .timer) = false := decide_eq_false hping
    rw [hcount, hzero]
    exact ⟨hstate, hinterval, fun h0 => absurd rfl h0, fun _ => Nat.zero_le 3⟩

private theorem step (h : core.Waited P last k) (hign : core.Ignores P ev)
    (hstep : core.step (now, ev) = some core') (hkind : core'.state.kind = .connected) :
    core'.Waited P last (k + if dueTimer last (now, ev) then 1 else 0) := by
  obtain ⟨s, hs, hlast⟩ := h.state
  obtain ⟨s', hs'⟩ := States.eq_connected hkind
  have hkind₀ : core.state.kind = .connected := by
    rw [hs]
    rfl
  rcases timer_of_step hkind₀ hkind hstep with ⟨hev, htimer⟩ | ⟨rfl, hpoll⟩
  · obtain ⟨hlast', hlinks⟩ := links_of_step hs hs' hev hstep hign
    have hcount : dueTimer last (now, ev) = false := by
      cases ev with
      | timer => exact absurd rfl hev
      | _ => rfl
    rw [hcount]
    refine ⟨⟨s', hs', hlast'.trans hlast⟩, ?_, ?_, h.bounded⟩
    · rw [htimer]
      exact h.interval
    · intro hk
      obtain ⟨sent, due, hsent, hdue, hle, hworn⟩ := h.pinged hk
      rw [htimer, hs']
      refine ⟨sent, due, hsent, hdue, hle, ?_⟩
      intro e' he' hP
      obtain ⟨e, he, halike⟩ := hlinks e' he' hP
      rw [hs] at hworn
      rw [halike.id] at hP
      exact (hworn e he hP).alike halike
  · exact h.fired hs hs' hstep hpoll

private theorem run {inputs : List (Nat × Event)} (h : core.Waited P last k)
    (hign : AllSteps Core.step (fun c i => c.Ignores P i.2) core inputs)
    (hstay : AllReached Core.step (fun c => c.state.kind = .connected) core inputs)
    (hrun : Framework.run Core.step core inputs = some core') :
    core'.Waited P last (k + inputs.countP (dueTimer last)) := by
  refine run_counted (dueTimer last) ?_ h (hign.and hstay.steps) hrun
  intro n s i s' hs hi hstep
  exact hs.step hi.1 hstep (hi.2 s' hstep)

end Waited

private theorem waited_start {before : List (Nat × Event)} {s : Connected}
    (hrun : run step start before = some core) (hs : core.state = .connected s) (P : Nat → Prop) :
    core.Waited P s.lastPing 0 := by
  have hstart : Repeats start.state.kind start.common.timer := ⟨nofun, nofun⟩
  have hrepeats := run_invariant (fun _ _ _ h hstep => repeats_step h hstep) hstart hrun
  refine ⟨⟨s, hs, rfl⟩, hrepeats.2 ?_, fun h => absurd rfl h, fun _ => Nat.zero_le 3⟩
  rw [hs]
  rfl

private theorem ignores_of_silent {id : Nat} {inputs : List (Nat × Event)}
    (hknown : id < core.common.nextLinkId) (hsilent : ∀ now, (now, .frame id .pong) ∉ inputs) :
    AllSteps step (fun c i => c.Ignores (· = id) i.2) core inputs := by
  induction inputs generalizing core with
  | nil => trivial
  | cons i inputs ih =>
      obtain ⟨now, ev⟩ := i
      refine ⟨⟨?_, ?_⟩, ?_⟩
      · intro _ _ hid
        omega
      · rintro id' rfl rfl
        exact hsilent now (by simp)
      · intro core₁ hstep
        apply ih
        · rw [(step_traffic hstep).1]
          omega
        · intro now' hmem
          exact hsilent now' (by simp [hmem])

/-- In Connected, a link that answers no ping is gone after the timer has fired four times when the
links were to be pinged, whatever the other links and the user do. -/
theorem silent_link_evicted (before after : List (Nat × Event)) (core core' : Core) (s : Connected)
    (hbefore : run step start before = some core) (hs : core.state = .connected s)
    (link : LinkEntry) (hlink : link ∈ s.links.links)
    (hafter : run step core after = some core')
    (hstay : AllReached step (fun c => c.state.kind = .connected) core after)
    (hsilent : ∀ now, (now, .frame link.id .pong) ∉ after)
    (hdue : 4 ≤ after.countP (dueTimer s.lastPing)) :
    ∀ other ∈ core'.state.links.links, other.id ≠ link.id := by
  have hknown : link.id < core.common.nextLinkId := by
    have hfitted := fitted_run hbefore
    have hmem : link ∈ core.traffic.links.links := by
      rw [traffic, hs]
      exact hlink
    obtain ⟨hadded, _⟩ := hfitted.traffic.entries link hmem
    rw [hfitted.nextLinkId]
    exact (List.getElem?_eq_some_iff.mp hadded).1
  have hwaited := (waited_start hbefore hs (· = link.id)).run
    (ignores_of_silent hknown hsilent) hstay hafter
  obtain ⟨sent, _, _, _, _, hworn⟩ := hwaited.pinged (by omega)
  intro other hother hid
  have hthree := (hworn other hother hid).lt_three
  omega

/-- A session over one link, whose first ping is answered; then a second link is added. -/
private def metOverTwo : List (Nat × Event) :=
  [(0, .command (.addLink steadyLink)), (0, .frame 0 (.reset none true)),
    (seconds 1, .frame 0 .pong), (seconds 2, .command (.addLink steadyLink))]

/-- Only the second link answers. -/
private def oneAnswers : List (Nat × Event) :=
  [(seconds 31, .timer), (seconds 32, .frame 1 .pong), (seconds 36, .timer),
    (seconds 37, .frame 1 .pong), (seconds 41, .timer), (seconds 42, .frame 1 .pong),
    (seconds 46, .timer)]

theorem silent_link_evicted_first :
    ∃ core core' s link, run step start metOverTwo = some core ∧ core.state = .connected s ∧
      link ∈ s.links.links ∧ link.id = 0 ∧ run step core oneAnswers = some core' ∧
      core'.state.kind = .connected ∧ ∀ other ∈ core'.state.links.links, other.id ≠ 0 := by
  refine ⟨_, _, _, _, rfl, rfl, List.mem_cons_of_mem _ (List.mem_singleton_self _), rfl, rfl, rfl, ?_⟩
  apply silent_link_evicted metOverTwo oneAnswers _ _ _ rfl rfl _
    (List.mem_cons_of_mem _ (List.mem_singleton_self _)) rfl (by decide) _ (by decide)
  intro now
  change (now, .frame 0 .pong) ∉ oneAnswers
  simp [oneAnswers]

/-- If no link answers and none is added, the core leaves Connected by the fourth time that the timer
fires when the links are to be pinged. -/
theorem silent_session_ends (before after : List (Nat × Event)) (core core' : Core) (s : Connected)
    (hbefore : run step start before = some core) (hs : core.state = .connected s)
    (hafter : run step core after = some core')
    (hsilent : ∀ now id, (now, .frame id .pong) ∉ after) (hadded : addedLinks after = [])
    (hdue : 4 ≤ after.countP (dueTimer s.lastPing)) :
    ∃ pre core₁, pre <+: after ∧ run step core pre = some core₁ ∧
      core₁.state.kind ≠ .connected := by
  refine exists_prefix_of_not_allReached ?_ hafter
  intro hstay
  have hign : AllSteps step (fun c i => c.Ignores (fun _ => True) i.2) core after := by
    refine AllSteps.of_forall_mem (D := fun i : Nat × Event => start.Ignores (fun _ => True) i.2) ?_ core
    rintro ⟨now, ev⟩ hmem
    constructor
    · rintro link rfl _
      have hlink := List.filterMap_eq_nil_iff.mp hadded _ hmem
      cases hlink
    · rintro id rfl _
      exact hsilent now id hmem
  have hwaited := (waited_start hbefore hs fun _ => True).run hign hstay hafter
  have hbound := hwaited.bounded fun _ => trivial
  omega

/-- No link answers. -/
private def fourFirings : List (Nat × Event) :=
  [(seconds 31, .timer), (seconds 36, .timer), (seconds 41, .timer), (seconds 46, .timer)]

theorem silent_session_ends_two :
    ∃ core core' s, run step start metOverTwo = some core ∧ core.state = .connected s ∧
      run step core fourFirings = some core' ∧
      ∃ pre core₁, pre <+: fourFirings ∧ run step core pre = some core₁ ∧
        core₁.state.kind ≠ .connected := by
  refine ⟨_, _, _, rfl, rfl, rfl, ?_⟩
  exact silent_session_ends metOverTwo fourFirings _ _ _ rfl rfl rfl (by simp [fourFirings]) rfl
    (by decide)

end Core

/-- The event comes neither from the peer nor with a link to it. -/
def Event.isLocal : Event → Bool
  | .frame _ _ => false
  | .command (.addLink _) => false
  | _ => true

private theorem Event.isLocal_stimulus {ev : Event} (h : ev.isLocal = true) :
    ev.stimulus ≠ .addLink ∧ ∀ msg, ev.stimulus ≠ .frame msg := by
  refine ⟨?_, ?_⟩
  · intro hstim
    obtain ⟨link, rfl⟩ := Event.eq_addLink hstim
    cases h
  · intro msg hstim
    obtain ⟨id, rfl⟩ := Event.eq_frame hstim
    cases h

private theorem Phase.Step.local_cases {p p' : Phase} {stim : Stimulus} {out : List Signal}
    (h : Step p stim p' out) (hlink : stim ≠ .addLink) (hframe : ∀ msg, stim ≠ .frame msg) :
    (p.session = none ∧ p'.session = none ∧ statuses out = []) ∨
      (p'.session = p.session ∧ p.session ≠ none ∧ (p'.kind = .connected → p.kind = .connected)) ∨
      (p'.session = none ∧ statuses out = [.disconnected]) := by
  cases h with
  | idle _ _ hp => exact Or.inl ⟨hp, hp, rfl⟩
  | connect => exact Or.inl ⟨rfl, rfl, rfl⟩
  | firstLink => exact absurd rfl hlink
  | giveUp => exact Or.inl ⟨rfl, rfl, rfl⟩
  | linkMade => exact absurd rfl hlink
  | abandon => exact Or.inl ⟨rfl, rfl, rfl⟩
  | retry => exact Or.inl ⟨rfl, rfl, rfl⟩
  | request hout => exact Or.inl ⟨rfl, rfl, hout.statuses_eq⟩
  | insist => exact absurd rfl (hframe _)
  | confirm => exact absurd rfl (hframe _)
  | adopt => exact absurd rfl (hframe _)
  | talk => exact Or.inr (Or.inl ⟨rfl, nofun, fun _ => rfl⟩)
  | close => exact Or.inr (Or.inr ⟨rfl, rfl⟩)
  | lost hout =>
      refine Or.inr (Or.inr ⟨rfl, ?_⟩)
      rw [statuses_append, hout.statuses_eq]
      rfl
  | reconnect => exact Or.inr (Or.inl ⟨rfl, nofun, nofun⟩)
  | wait => exact Or.inr (Or.inl ⟨rfl, nofun, nofun⟩)
  | mismatch => exact absurd rfl (hframe _)
  | listenReconnecting => exact Or.inr (Or.inl ⟨rfl, nofun, id⟩)
  | listenGracePeriod => exact Or.inr (Or.inl ⟨rfl, nofun, id⟩)
  | reconnected => exact absurd rfl hlink
  | returned => exact absurd rfl hlink
  | _ => exact Or.inr (Or.inr ⟨rfl, rfl⟩)

namespace Core

variable {core core' : Core} {now last n : Nat} {ev : Event}

private theorem session_of_timer (hkind : core.state.kind ≠ .connected)
    (hstep : core.step (now, .timer) = some core') (hsession : core.state.phase.session ≠ none) :
    core'.state.phase.session = none := by
  obtain ⟨r, hr, rfl⟩ := Option.map_eq_some_iff.mp hstep
  obtain ⟨timer, _, hr⟩ := Option.bind_eq_some_iff.mp hr
  cases hs : core.state with
  | connected s =>
      rw [hs] at hkind
      exact absurd rfl hkind
  | reconnecting s =>
      rw [hs] at hr
      simp only [States.timer, Reconnecting.timer] at hr
      split at hr <;> cases hr <;> rfl
  | gracePeriod s =>
      rw [hs] at hr
      simp only [States.timer, GracePeriod.timer] at hr
      split at hr <;> cases hr <;> rfl
  | _ =>
      rw [hs] at hsession
      exact absurd rfl hsession

/-- How far a session has lapsed since the peer fell silent, where `n` counts the times the timer has
fired when links are to be pinged. -/
inductive Lapse (last n : Nat) (core : Core) : Prop where
  | waits (h : core.Waited (fun _ => True) last n)
  | detached (hn : n ≤ 4) (hsession : core.state.phase.session ≠ none)
      (hkind : core.state.kind ≠ .connected)
  | told (hsession : core.state.phase.session = none)
      (hstatus : lastStatus core.common.record = some .disconnected)

private theorem Lapse.step (h : core.Lapse last n) (hlocal : ev.isLocal = true)
    (hstep : core.step (now, ev) = some core') :
    core'.Lapse last (n + if dueTimer last (now, ev) then 1 else 0) := by
  obtain ⟨delta, hrecord, hphase⟩ := step_phase hstep
  have hlast := lastStatus_append core.common.record delta
  rw [← hrecord] at hlast
  obtain ⟨hlink, hframe⟩ := Event.isLocal_stimulus hlocal
  rcases hphase.local_cases hlink hframe with ⟨hnone, hnone', hstatuses⟩ | ⟨hsame, hsome, hkept⟩ |
    ⟨hnone', hstatuses⟩
  · rw [hstatuses] at hlast
    cases h with
    | waits h =>
        obtain ⟨s, hs, _⟩ := h.state
        rw [hs] at hnone
        cases hnone
    | detached _ hsession _ => exact absurd hnone hsession
    | told _ hstatus => exact .told hnone' (hlast.trans hstatus)
  · rw [States.phase_kind, States.phase_kind] at hkept
    cases h with
    | waits h =>
        by_cases hkind : core'.state.kind = .connected
        · have hign : core.Ignores (fun _ => True) ev := by
            constructor
            · rintro link rfl
              cases hlocal
            · rintro id rfl
              cases hlocal
          exact .waits (h.step hign hstep hkind)
        · have hbound := h.bounded fun _ => trivial
          refine .detached ?_ (hsame ▸ hsome) hkind
          split <;> omega
    | detached hn hsession hkind =>
        by_cases hev : ev = .timer
        · subst hev
          rw [session_of_timer hkind hstep hsession] at hsame
          exact absurd hsame.symm hsession
        · have hcount : dueTimer last (now, ev) = false := by
            cases ev with
            | timer => exact absurd rfl hev
            | _ => rfl
          rw [hcount]
          exact .detached hn (hsame ▸ hsome) fun hk => hkind (hkept hk)
    | told hsession _ => exact absurd hsession hsome
  · rw [hstatuses] at hlast
    exact .told hnone' hlast

/-- Once the peer of a connected core is silent and no link to it is added, whatever the user does
otherwise, the user has been told that the connection is lost by the fifth time that the timer fires
after the links are to be pinged. -/
theorem silence_reported (before after : List (Nat × Event)) (core core' : Core) (s : Connected)
    (hbefore : run step start before = some core) (hs : core.state = .connected s)
    (hafter : run step core after = some core') (hlocal : ∀ i ∈ after, i.2.isLocal = true)
    (hdue : 5 ≤ after.countP (dueTimer s.lastPing)) :
    lastStatus core'.common.record = some .disconnected ∧ core'.state.phase.session = none := by
  have hlapse : core'.Lapse s.lastPing (0 + after.countP (dueTimer s.lastPing)) :=
    run_counted (dueTimer s.lastPing) (fun _ _ _ _ h hi hstep => h.step hi hstep)
      (.waits (waited_start hbefore hs fun _ => True)) (.of_forall_mem hlocal core) hafter
  cases hlapse with
  | waits h =>
      have hbound := h.bounded fun _ => trivial
      omega
  | detached hn _ _ => omega
  | told hsession hstatus => exact ⟨hstatus, hsession⟩

/-- The core is to try to reconnect for ten seconds before it gives a session up. -/
private def metPatiently : List (Nat × Event) :=
  (0, .config (.reconnectTimeout (some (seconds 10)))) :: metOverTwo

theorem silence_reported_reconnecting :
    ∃ core core' s, run step start metPatiently = some core ∧ core.state = .connected s ∧
      run step core (fourFirings ++ [(seconds 56, .timer)]) = some core' ∧
      lastStatus core'.common.record = some .disconnected := by
  refine ⟨_, _, _, rfl, rfl, rfl, ?_⟩
  exact (silence_reported metPatiently (fourFirings ++ [(seconds 56, .timer)]) _ _ _ rfl rfl rfl
    (by decide) (by decide)).1

end Core

end LinkSet
