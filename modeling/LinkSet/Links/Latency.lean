import Mathlib.Algebra.Order.BigOperators.Group.List
import LinkSet.Links.Traffic

/-!
# Latency of a responsive link

A link is dropped when the average of its last six samples is too high. A sample is the time
from a ping to its end, which is the answer or the next ping. As long as every ping is answered
in time all samples are below the maximum, and no check removes the link.
-/

namespace LinkSet

open Framework

namespace LinkEntry

/-- The history is full and every sample is below the maximum. -/
structure Healthy (e : LinkEntry) : Prop where
  full : e.recent.length = historyLen
  low : ∀ sample ∈ e.recent, sample < maxLatency

private theorem healthy_new (link : Link) (id : Nat) : (new link id).Healthy where
  full := by simp [new]
  low := by
    intro sample hs
    rw [new, List.mem_replicate] at hs
    rw [hs.2]
    decide

private theorem Healthy.latency_lt {e : LinkEntry} (h : e.Healthy) : e.latency < maxLatency := by
  have hlen : e.recent.length = 6 := h.full
  have hne : e.recent ≠ [] := by
    intro hnil
    simp [hnil] at hlen
  have hsum : e.recent.sum ≤ e.recent.length • (maxLatency - 1) := by
    apply List.sum_le_card_nsmul
    intro sample hs
    exact Nat.le_sub_one_of_lt (h.low sample hs)
  have hmax : maxLatency = 2 * 10 ^ 9 := rfl
  rw [latency, if_neg hne, hlen]
  rw [hlen, Nat.nsmul_eq_mul] at hsum
  omega

private theorem Healthy.addLatency {e : LinkEntry} (h : e.Healthy) {sample : Nat}
    (hs : sample < maxLatency) : (e.addLatency sample).Healthy where
  full := by
    have := h.full
    simp only [LinkEntry.addLatency, List.length_take, List.length_cons]
    omega
  low := by
    intro x hx
    rcases List.mem_cons.mp (List.mem_of_mem_take hx) with rfl | hold
    · exact hs
    · exact h.low x hold

theorem Alike.healthy {e e' : LinkEntry} (h : e.Alike e') (he : e.Healthy) : e'.Healthy :=
  ⟨h.recent ▸ he.full, h.recent ▸ he.low⟩

theorem Healthy.usable {e : LinkEntry} (h : e.Healthy) (hopen : ∀ n, e.link.isClosed n = false) :
    e.unusable = false ∧ (!e.closed && decide (e.latency < maxLatency)) = true := by
  have hlt := h.latency_lt
  have hle : ¬ maxLatency < e.latency := by omega
  simp [unusable, closed, hopen, hlt, hle]

theorem Healthy.endPing {e : LinkEntry} (h : e.Healthy) {now : Nat}
    (htime : ∀ sent, e.ping = some sent → now < sent + maxLatency) :
    (e.endPing now).Healthy ∧ (e.endPing now).ping = none := by
  unfold LinkEntry.endPing
  cases hping : e.ping with
  | none => exact ⟨h, hping⟩
  | some sent =>
      have hnow := htime sent hping
      have hsample : now - sent < maxLatency := by
        have : 0 < maxLatency := by decide
        omega
      exact ⟨Healthy.addLatency (e := { e with ping := none }) ⟨h.full, h.low⟩ hsample, rfl⟩

end LinkEntry

namespace LinkManager

/-- The only entry with the id. -/
def Only (id : Nat) (e : LinkEntry) (l : List LinkEntry) : Prop :=
  l.filter (fun x => x.id = id) = [e]

namespace Only

variable {id : Nat} {e x : LinkEntry} {l : List LinkEntry}

private theorem id_eq (h : Only id e l) : e.id = id := by
  have hmem : e ∈ l.filter fun x => x.id = id := by rw [h]; simp
  simpa using (List.mem_filter.mp hmem).2

private theorem cons_ne (hx : x.id ≠ id) : Only id e (x :: l) ↔ Only id e l := by
  simp [Only, hx]

private theorem cons_eq (hx : x.id = id) :
    Only id e (x :: l) ↔ x = e ∧ l.filter (fun x => x.id = id) = [] := by
  simp [Only, hx]

private theorem replace_head {x' : LinkEntry} (h : Only id e (x :: l)) (hx : x.Alike x') :
    ∃ e', Only id e' (x' :: l) ∧ e.Alike e' := by
  by_cases hid : x.id = id
  · obtain ⟨rfl, hrest⟩ := (cons_eq hid).mp h
    exact ⟨x', (cons_eq (hx.id.trans hid)).mpr ⟨rfl, hrest⟩, hx⟩
  · refine ⟨e, ?_, .refl e⟩
    rw [cons_ne (hx.id ▸ hid)]
    exact (cons_ne hid).mp h

private theorem map {f : LinkEntry → LinkEntry} (h : Only id e l) (hf : ∀ x, (f x).id = x.id) :
    Only id (f e) (l.map f) := by
  have hcomp : (fun x => decide (x.id = id)) ∘ f = fun x => decide (x.id = id) := by
    funext x
    simp [hf]
  rw [Only, List.filter_map, hcomp, h]
  rfl

private theorem filter {p : LinkEntry → Bool} (h : Only id e l) (hp : p e = true) :
    Only id e (l.filter p) := by
  rw [Only, List.filter_comm, h]
  simp [hp]

private theorem modifyFirst {f : LinkEntry → LinkEntry} (h : Only id e l)
    (hf : ∀ x, (f x).id = x.id) : Only id (f e) (modifyFirst id f l) := by
  induction l with
  | nil => simp [Only] at h
  | cons x l ih =>
      rw [LinkManager.modifyFirst]
      by_cases hid : x.id = id
      · obtain ⟨rfl, hrest⟩ := (cons_eq hid).mp h
        rw [if_pos hid]
        exact (cons_eq ((hf x).trans hid)).mpr ⟨rfl, hrest⟩
      · rw [if_neg hid, cons_ne hid]
        exact ih ((cons_ne hid).mp h)

private theorem modifyFirst_other {id' : Nat} {f : LinkEntry → LinkEntry} (h : Only id e l)
    (hf : ∀ x, (f x).id = x.id) (hne : id' ≠ id) : Only id e (LinkManager.modifyFirst id' f l) := by
  have hfilter : (LinkManager.modifyFirst id' f l).filter (fun x => x.id = id) =
      l.filter fun x => x.id = id := by
    clear h
    induction l with
    | nil => rfl
    | cons x l ih =>
        rw [LinkManager.modifyFirst]
        split
        · next hid => simp [hf, hid, hne]
        · simp [List.filter_cons, ih]
  rw [Only, hfilter, h]

private theorem dropUnusable (h : Only id e l) (hu : e.unusable = false) :
    ∃ e', Only id e' (dropUnusable l) ∧ e.Alike e' := by
  induction l with
  | nil => simp [Only] at h
  | cons x l ih =>
      rw [LinkManager.dropUnusable]
      by_cases hx : x.unusable = true
      · rw [if_pos hx]
        apply ih
        apply (cons_ne _).mp h
        intro hid
        rw [((cons_eq hid).mp h).1, hu] at hx
        cases hx
      · rw [if_neg hx]
        exact h.replace_head ⟨⟨rfl, rfl⟩, rfl, rfl⟩

private theorem front (h : Only id e l) (hu : e.unusable = false) :
    ∃ link rest, LinkManager.dropUnusable l = link :: rest ∧
      ∀ link' : LinkEntry, link.Alike link' → ∃ e', Only id e' (link' :: rest) ∧ e.Alike e' := by
  obtain ⟨e1, honly, halike⟩ := h.dropUnusable hu
  cases hlinks : LinkManager.dropUnusable l with
  | nil => simp [hlinks, Only] at honly
  | cons link rest =>
      rw [hlinks] at honly
      refine ⟨link, rest, rfl, ?_⟩
      intro link' hsent
      obtain ⟨e2, honly, halike'⟩ := honly.replace_head hsent
      exact ⟨e2, honly, halike.trans halike'⟩

end Only

namespace Op

/-- The time of an operation that looks at the clock. -/
def time : Op → Option Nat
  | .pingAll now => some now
  | .endPing _ now => some now
  | _ => none

/-- The operation leaves the link with the id to the checks: it is not evicted by hand, its
manager is not dropped and no other link gets its id. -/
def Spares (id : Nat) : Op → Prop
  | .addLink e => e.id ≠ id
  | .evictLink id' => id' ≠ id
  | .drop => False
  | _ => True

/-- What an operation does to the measurements of the entry with the id. -/
def Measures (id : Nat) (e e' : LinkEntry) : Op → Prop
  | .pingAll now => e'.ping = some now ∧ e'.recent = (e.endPing now).recent
  | .endPing id' now => if id' = id then e' = e.endPing now else e.Alike e'
  | _ => e.Alike e'

end Op

end LinkManager

open LinkManager

private theorem Traffic.op_only {t t' : Traffic} {o : Op} {id : Nat} {e : LinkEntry}
    (h : Only id e t.links.links) (hspares : o.Spares id) (hu : e.unusable = false)
    (hup : (!e.closed && decide (e.latency < maxLatency)) = true) (hop : t.op o = some t') :
    ∃ e', Only id e' t'.links.links ∧ e.SameLink e' ∧ o.Measures id e e' := by
  cases o with
  | addLink x =>
      obtain rfl := Option.some.inj hop
      exact ⟨e, (Only.cons_ne hspares).mpr h, .refl e, .refl e⟩
  | evictLink id' =>
      obtain rfl := Option.some.inj hop
      have hne : e.id ≠ id' := h.id_eq ▸ hspares.symm
      exact ⟨e, h.filter (by simpa using hne), .refl e, .refl e⟩
  | sendProto proto =>
      obtain rfl := Option.some.inj hop
      obtain ⟨link, rest, hlinks, hfront⟩ := h.front hu
      obtain ⟨e', honly, halike⟩ := hfront link.send.1 ⟨⟨rfl, rfl⟩, rfl, rfl⟩
      simp only [LinkManager.sendProto, hlinks]
      exact ⟨e', honly, halike.toSameLink, halike⟩
  | sendSlices sliceMgr =>
      obtain ⟨out, hout, rfl⟩ := Option.map_eq_some_iff.mp hop
      obtain ⟨link, rest, hlinks, hfront⟩ := h.front hu
      simp only [LinkManager.sendSlices, hlinks] at hout
      obtain ⟨protos, _, hout⟩ := Option.bind_eq_some_iff.mp hout
      obtain rfl := Option.some.inj hout
      obtain ⟨e', honly, halike⟩ := hfront _ (sendAll_spec link protos).1
      exact ⟨e', honly, halike.toSameLink, halike⟩
  | pingAll now =>
      obtain rfl := Option.some.inj hop
      exact ⟨_, h.map fun x => (LinkEntry.SameLink.sendPing x now).id, .sendPing e now, rfl, rfl⟩
  | pong id' =>
      obtain rfl := Option.some.inj hop
      by_cases hid : id' = id
      · subst hid
        exact ⟨_, h.modifyFirst (f := fun x => x.send.1) fun _ => rfl, ⟨rfl, rfl⟩, ⟨rfl, rfl⟩,
          rfl, rfl⟩
      · exact ⟨e, h.modifyFirst_other (f := fun x => x.send.1) (fun _ => rfl) hid, .refl e,
          .refl e⟩
  | endPing id' now =>
      obtain rfl := Option.some.inj hop
      have hf : ∀ x : LinkEntry, (x.endPing now).id = x.id := fun x =>
        (LinkEntry.SameLink.endPing x now).id
      by_cases hid : id' = id
      · subst hid
        exact ⟨_, h.modifyFirst hf, .endPing e now, by simp [Op.Measures]⟩
      · exact ⟨e, h.modifyFirst_other hf hid, .refl e, by simp [Op.Measures, hid, LinkEntry.Alike.refl]⟩
  | upkeep =>
      obtain rfl := Option.some.inj hop
      exact ⟨_, (h.filter hup).map fun _ => rfl, ⟨rfl, rfl⟩, ⟨rfl, rfl⟩, rfl, rfl⟩
  | drop => cases hspares

/-- A ping sent at `sent` ends in time: an answer less than the maximum after it is among the
operations to come, or these do not go on for so long. -/
def Answered (id sent : Nat) (ops : List Op) : Prop :=
  (∃ now, Op.endPing id now ∈ ops ∧ now < sent + maxLatency) ∨
    ∀ now ∈ ops.filterMap Op.time, now < sent + maxLatency

/-- Every ping ends in time. -/
def Responsive (id : Nat) (ops : List Op) : Prop :=
  ∀ before sent after, ops = before ++ .pingAll sent :: after → Answered id sent after

theorem responsive_nil (id : Nat) : Responsive id [] := by simp [Responsive]

theorem responsive_cons {id : Nat} {o : Op} {ops : List Op} :
    Responsive id (o :: ops) ↔ (∀ sent, o = .pingAll sent → Answered id sent ops) ∧
      Responsive id ops := by
  constructor
  · intro h
    refine ⟨fun sent ho => h [] sent ops (by rw [ho]; rfl), ?_⟩
    intro before sent after heq
    exact h (o :: before) sent after (by rw [heq]; rfl)
  · intro h before sent after heq
    cases before with
    | nil =>
        obtain ⟨ho, rfl⟩ := List.cons.inj heq
        exact h.1 sent ho
    | cons o' before =>
        obtain ⟨_, rfl⟩ := List.cons.inj heq
        exact h.2 before sent after rfl

private theorem Answered.now_lt {id sent now : Nat} {o : Op} {ops : List Op}
    (h : Answered id sent (o :: ops)) (hclock : ((o :: ops).filterMap Op.time).Pairwise (· ≤ ·))
    (htime : o.time = some now) : now < sent + maxLatency := by
  rw [List.filterMap_cons_some htime, List.pairwise_cons] at hclock
  rcases h with ⟨now', hmem, hlt⟩ | hall
  · rcases List.mem_cons.mp hmem with rfl | hmem
    · obtain rfl : now' = now := by simpa [Op.time] using htime
      exact hlt
    · have hle := hclock.1 now' (List.mem_filterMap.mpr ⟨_, hmem, rfl⟩)
      omega
  · exact hall now (by rw [List.filterMap_cons_some htime]; simp)

private theorem Answered.tail {id sent : Nat} {o : Op} {ops : List Op}
    (h : Answered id sent (o :: ops)) (ho : ∀ now, o ≠ .endPing id now) : Answered id sent ops := by
  rcases h with ⟨now, hmem, hlt⟩ | hall
  · rcases List.mem_cons.mp hmem with heq | hmem
    · exact absurd heq.symm (ho now)
    · exact Or.inl ⟨now, hmem, hlt⟩
  · apply Or.inr
    intro now hnow
    apply hall
    rw [List.filterMap_cons]
    split
    · exact hnow
    · exact List.mem_cons_of_mem _ hnow

/-- The link is there with a healthy history, and an outstanding ping will end in time. -/
structure Served (id : Nat) (link : Link) (ops : List Op) (e : LinkEntry) : Prop where
  link : e.link = link
  healthy : e.Healthy
  answered : ∀ sent, e.ping = some sent → Answered id sent ops

private theorem Served.step {id : Nat} {link : Link} {o : Op} {ops : List Op} {e e' : LinkEntry}
    (h : Served id link (o :: ops) e) (hsame : e.SameLink e') (hm : o.Measures id e e')
    (hclock : ((o :: ops).filterMap Op.time).Pairwise (· ≤ ·)) (hresp : Responsive id (o :: ops)) :
    Served id link ops e' := by
  have hlink : e'.link = link := hsame.link.trans h.link
  have halike : e.Alike e' → (∀ now, o ≠ .endPing id now) → Served id link ops e' := by
    intro halike ho
    refine ⟨hlink, halike.healthy h.healthy, ?_⟩
    intro sent hsent
    exact (h.answered sent (halike.ping ▸ hsent)).tail ho
  have hends : ∀ now, o.time = some now →
      (e.endPing now).Healthy ∧ (e.endPing now).ping = none := by
    intro now htime
    apply h.healthy.endPing
    intro sent hsent
    exact (h.answered sent hsent).now_lt hclock htime
  cases o with
  | pingAll now =>
      obtain ⟨hping, hrecent⟩ := hm
      have hhealthy := (hends now rfl).1
      refine ⟨hlink, ⟨hrecent ▸ hhealthy.full, hrecent ▸ hhealthy.low⟩, ?_⟩
      intro sent hsent
      rw [hping] at hsent
      obtain rfl := Option.some.inj hsent
      exact (responsive_cons.mp hresp).1 now rfl
  | endPing id' now =>
      by_cases hid : id' = id
      · subst hid
        simp only [Op.Measures, if_true] at hm
        obtain ⟨hhealthy, hping⟩ := hends now rfl
        rw [hm]
        exact ⟨hm ▸ hlink, hhealthy, by simp [hping]⟩
      · simp only [Op.Measures, if_neg hid] at hm
        exact halike hm (by simp [hid])
  | _ => exact halike hm (by simp)

/-- An open link whose pings are answered less than the maximum after they were sent is never
removed, whatever is sent meanwhile: in every state it is still there, with six samples that
average below the maximum. -/
theorem responsive_link_stays (link : Link) (id : Nat) (t : Traffic) (ops : List Op)
    (hopen : ∀ n, link.isClosed n = false)
    (hstart : Only id (LinkEntry.new link id) t.links.links)
    (hspares : ∀ o ∈ ops, o.Spares id)
    (hclock : (ops.filterMap Op.time).Pairwise (· ≤ ·)) (hresp : Responsive id ops) :
    AllReached Traffic.op (fun t => ∃ e, Only id e t.links.links ∧ e.link = link ∧
      e.recent.length = historyLen ∧ e.latency < maxLatency) t ops := by
  have hserved : Served id link ops (LinkEntry.new link id) :=
    ⟨rfl, LinkEntry.healthy_new link id, by simp [LinkEntry.new]⟩
  generalize LinkEntry.new link id = e at hstart hserved
  induction ops generalizing t e with
  | nil => exact ⟨e, hstart, hserved.link, hserved.healthy.full, hserved.healthy.latency_lt⟩
  | cons o ops ih =>
      refine ⟨⟨e, hstart, hserved.link, hserved.healthy.full, hserved.healthy.latency_lt⟩, ?_⟩
      intro t' hop
      obtain ⟨hu, hup⟩ := hserved.healthy.usable (hserved.link ▸ hopen)
      obtain ⟨e', honly, hsame, hm⟩ := Traffic.op_only hstart (hspares o (by simp)) hu hup hop
      have hclock' : (ops.filterMap Op.time).Pairwise (· ≤ ·) := by
        rw [List.filterMap_cons] at hclock
        split at hclock
        · exact hclock
        · exact (List.pairwise_cons.mp hclock).2
      exact ih t' (fun o' ho' => hspares o' (by simp [ho'])) hclock' (responsive_cons.mp hresp).2 e' honly
        (hserved.step hsame hm hclock hresp)

/-- A link that never closes. -/
def openLink : Link := ⟨"tcp", 1400, by decide, true, fun _ => false, fun _ => true⟩

/-- A ping that is answered after one second, with upkeep and a send in between. -/
def answeredOps : List Op :=
  [.pingAll 0, .upkeep, .sendProto .ping, .endPing 0 (seconds 1), .upkeep]

theorem responsive_link_stays_answered :
    ∃ t', run Traffic.op ⟨⟨[LinkEntry.new openLink 0]⟩, []⟩ answeredOps = some t' ∧
      ∃ e, Only 0 e t'.links.links ∧ e.link = openLink ∧ e.recent.length = historyLen ∧
        e.latency < maxLatency := by
  have hanswer : Answered 0 0 [.upkeep, .sendProto .ping, .endPing 0 (seconds 1), .upkeep] :=
    Or.inl ⟨seconds 1, by simp, by decide⟩
  have hresp : Responsive 0 answeredOps := by
    simp [answeredOps, responsive_cons, responsive_nil, hanswer]
  have hall := responsive_link_stays openLink 0 ⟨⟨[LinkEntry.new openLink 0]⟩, []⟩ answeredOps
    (fun _ => rfl) rfl (by simp [answeredOps, Op.Spares]) (by decide) hresp
  exact ⟨_, rfl, hall.final rfl⟩

end LinkSet
