import LinkSet.Messages.Damage
import LinkSet.Session.Exchange

/-!
# What the user of the other endpoint is given

The messages of one epoch are compared at the two ends: what one core inserted into its manager
and what the other core reported to its user. Whatever the network does, a reported message is
the inserted one of the same number with zeros in some places at worst, it is exact as long as
no slice is joined across a gap, and no message is dropped by the sender before it is reported.
-/

namespace LinkSet

open Framework Relation

/-- The books of a core about the messages coming in under epoch `e`: the manager has completed as
many as are reported, and no acknowledgement goes beyond that. -/
structure Books.Settled (e : Epoch) (B : Books) : Prop where
  session : ∀ m, B.session = some (e, m) →
    Receiving m (reportedFrom e B.record).length ∧ m.lastAck.1 = (reportedFrom e B.record).length
  acks : ∀ seq lastIndex, .ack e.toInt seq lastIndex ∈ sentFrames B.record →
    seq ≤ (reportedFrom e B.record).length
  unused : e ∉ managerEpochs B.record → reportedFrom e B.record = []

namespace Books.Settled

variable {subs : Submitted} {ev : Event} {first : Option (Epoch × MessageManager)} {e : Epoch}
  {B B' : Books}

private theorem quiet (h : B.Settled e) (hquiet : Quiet e B B')
    (hmade : managerEpochs B.record ⊆ managerEpochs B'.record) : B'.Settled e := by
  constructor
  · intro m' hm'
    obtain ⟨m, hm, hsame⟩ := hquiet.session m' hm'
    obtain ⟨hepoch, hincoming, hlast⟩ := hsame m (.refl m)
    obtain ⟨hreceiving, hlen⟩ := h.session m hm
    rw [hquiet.reported, hlast]
    exact ⟨hreceiving.congr hincoming hlast hepoch, hlen⟩
  · intro seq lastIndex hmem
    rw [hquiet.reported]
    exact h.acks seq lastIndex (hquiet.acks seq lastIndex hmem)
  · intro hno
    rw [hquiet.reported]
    exact h.unused fun hmem => hno (hmade hmem)

private theorem receive {m m1 m2 : MessageManager} {record : List Effect}
    {seq seqLen firstIndex : Nat} {data : List UInt8} {b : Bool} {out : List (List UInt8)}
    {acks : List Sent} (h : Books.Settled e ⟨some (e, m), record⟩)
    (hrecv : m.recv seq firstIndex seqLen data = some (b, m1))
    (hacks : ∀ f ∈ acks, b = true ∧ f.2 = .ack e.toInt m1.lastAck.1 m1.lastAck.2)
    (htake : m1.takeRecvd = some (out, m2)) (hmade : e ∈ managerEpochs record) :
    Books.Settled e ⟨some (e, m2), record ++ wire acks ++
      out.map fun data => .toCtrl (.message data e)⟩ := by
  obtain ⟨_, hrep, _⟩ := views_wire e acks
  obtain ⟨_, hrep', _, hsent'⟩ := views_reports e e out
  have hreported : reportedFrom e (record ++ wire acks ++
      out.map fun data => .toCtrl (.message data e)) = reportedFrom e record ++ out := by
    rw [reportedFrom_append, reportedFrom_append, hrep, hrep', if_pos rfl, List.append_nil]
  obtain ⟨out', m2', htake', hreceiving, hlen, hlast, _⟩ :=
    ((h.session m rfl).1.recv hrecv).takeRecvd
  rw [htake] at htake'
  obtain ⟨rfl, rfl⟩ := Prod.mk.inj (Option.some.inj htake')
  constructor
  · rintro _ ⟨⟩
    rw [hreported, List.length_append, hlast]
    exact ⟨hreceiving, hlen.symm⟩
  · intro seq lastIndex hmem
    rw [sentFrames_append, sentFrames_append, hsent', List.append_nil, sentFrames_wire] at hmem
    rw [hreported, List.length_append]
    rcases List.mem_append.mp hmem with hold | hnew
    · exact (h.acks seq lastIndex hold).trans (Nat.le_add_right _ _)
    · obtain ⟨f, hf, hfeq⟩ := List.mem_map.mp hnew
      rw [(hacks f hf).2] at hfeq
      cases hfeq
      exact hlen.ge
  · intro hno
    exact absurd (by simp [hmade]) hno

private theorem deal (h : B.Settled e) (hB : B.Sound) (hdeal : Deal subs ev first B B')
    (hcount : (managerEpochs B'.record).count e ≤ 1) : B'.Settled e := by
  rcases hdeal.incoming e with hquiet | ⟨record, rfl, rfl⟩ |
    ⟨record, m, m1, m2, _, _, _, _, _, _, out, acks, rfl, rfl, _, _, hrecv, hacks, htake⟩
  · exact h.quiet hquiet hdeal.managerEpochs_prefix.subset
  · -- the manager is the first one of the epoch, so nothing has been reported under it yet
    have hnone := h.unused (not_mem_of_count hcount)
    have hreported : reportedFrom e (record ++ [.newManager e]) = [] := by
      simpa [reportedFrom] using hnone
    constructor
    · rintro _ ⟨⟩
      rw [hreported]
      exact ⟨receiving_new e, rfl⟩
    · intro seq lastIndex hmem
      have hold := h.acks seq lastIndex (by simpa [sentFrames] using hmem)
      rw [hnone] at hold
      exact hold.trans (Nat.zero_le _)
    · intro _
      exact hreported
  · exact h.receive hrecv hacks htake (hB e m rfl).2.1

private theorem chain (hchain : ReflTransGen (Deal subs ev first) B B') (h : B.Settled e)
    (hB : B.Sound) (hcount : (managerEpochs B'.record).count e ≤ 1) : B'.Settled e := by
  induction hchain with
  | refl => exact h
  | tail hchain hdeal ih =>
      have hle := (hdeal.managerEpochs_prefix.sublist.count_le e).trans hcount
      exact (ih hle).deal (hB.chain hchain) hdeal hcount

end Books.Settled

namespace Core

/-- A core never acknowledges a message that it has not sent to its user by the end of the round,
whatever frames arrive and however the sessions follow each other, and its manager has completed
exactly the messages reported. -/
theorem acked_was_reported (inputs : List (Nat × Event)) (core : Core)
    (hrun : run step start inputs = some core) (e : Epoch) (hne : e ≠ Epoch.last) :
    (∀ seq lastIndex, .ack e.toInt seq lastIndex ∈ sentFrames core.common.record →
      seq ≤ (reportedFrom e core.common.record).length) ∧
    ∀ m, core.books.session = some (e, m) →
      m.lastAck.1 = (reportedFrom e core.common.record).length := by
  have hkeep : ∀ (s : Core) i s', s.Orderly ∧ s.books.Settled e → s.step i = some s' →
      s'.Orderly ∧ s'.books.Settled e := by
    intro s i s' hs hstep
    have hnext := hs.1.step hstep
    exact ⟨hnext, .chain (hs.1.dealt hstep).2 hs.2 hs.1.books (hnext.count_le_one hne)⟩
  have hstart : start.books.Settled e := by
    constructor
    · intro m hm
      cases hm
    · intro seq lastIndex hmem
      cases hmem
    · intro _
      rfl
  have hsettled := (run_invariant hkeep ⟨orderly_start, hstart⟩ hrun).2
  exact ⟨hsettled.acks, fun m hm => (hsettled.session m hm).2⟩

/-- The second message is complete before the first one begins. -/
private def secondFirst : List (Nat × Event) :=
  [(0, .command (.addLink steadyLink)), (0, .frame 0 (.reset (some Epoch.one) false)),
    (0, .frame 0 (.msgSlice 1 1 1 0 [8])), (0, .frame 0 (.msgSlice 1 0 2 0 [6, 7]))]

theorem acked_was_reported_together :
    ∃ core, run step start secondFirst = some core ∧
      .ack 1 2 0 ∈ sentFrames core.common.record ∧
      reportedFrom Epoch.one core.common.record = [[6, 7], [8]] ∧
      2 ≤ (reportedFrom Epoch.one core.common.record).length := by
  refine ⟨_, rfl, by decide, rfl, ?_⟩
  exact (acked_was_reported secondFirst _ rfl Epoch.one (by decide)).1 2 0 (by decide)

end Core

/-- The frame is a slice of epoch `e`. -/
def LinkProtocol.isSliceOf (e : Epoch) : LinkProtocol → Bool
  | .msgSlice epoch _ _ _ _ => epoch = e.toInt
  | _ => false

namespace Pair

/-- The messages that the core on `side` has inserted into its manager of epoch `e`. -/
def given (p : Pair) (side : Side) (e : Epoch) : List (List UInt8) :=
  (insertedInto e (p.core side).common.record).map
    (Submitted.bytesOf (p.core side).common.submitted)

/-- The messages of epoch `e` that the other core has reported to its user. -/
def got (p : Pair) (side : Side) (e : Epoch) : List (List UInt8) :=
  reportedFrom e (p.peer side).common.record

/-- A slice that is delivered to the session it is for joins its entry without a gap. -/
def Gapless (p : Pair) : Action → Prop
  | .deliver side _ _ n =>
      ∀ f ∈ (sentFrames (p.peer side).common.record)[n]?, ∀ x ∈ (p.core side).books.session,
        f.isSliceOf x.1 = true → Transfer.JoinsEntry x.2 f
  | .locally _ _ _ => True

instance (p : Pair) : ∀ a, Decidable (Gapless p a)
  | .deliver side _ _ n =>
      inferInstanceAs (Decidable (∀ f ∈ (sentFrames (p.peer side).common.record)[n]?,
        ∀ x ∈ (p.core side).books.session,
          f.isSliceOf x.1 = true → Transfer.JoinsEntry x.2 f))
  | .locally _ _ _ => isTrue trivial

private theorem implies_any : Implies (fun _ _ => True) fun _ _ => True :=
  ⟨fun _ _ _ => trivial, fun _ _ _ _ _ _ _ _ _ _ _ _ _ _ _ _ _ _ => trivial⟩

private theorem implies_gapless : Implies Gapless Transfer.Gapless := by
  constructor
  · intro st a hother
    cases a with
    | deliverSlice n => exact absurd rfl (hother n)
    | _ => trivial
  · intro p side now id n st k e m seq seqLen firstIndex data hgap hsent hsession hsame hframe f hf
    rw [hframe] at hf
    obtain rfl := Option.mem_some.mp hf
    exact hsame.joinsEntry (hgap _ hsent _ hsession (decide_eq_true rfl))

/-- Every run mirrors a transfer, in which the damage is bounded. -/
theorem mirrored_bounded {actions : List Action} {p : Pair} (hrun : run step start actions = some p)
    (side : Side) {e : Epoch} (hne : e ≠ Epoch.last) : ∃ st, st.Bounded ∧ Mirrors e side p st := by
  have hall : AllSteps step (fun _ _ => True) start actions :=
    .of_forall_mem (fun _ _ => trivial) start
  obtain ⟨st, hreach, hmirrors⟩ := mirrored implies_any hne side hall hrun
  have hkeep : ∀ s a s', Transfer.Inv s ∧ Transfer.Bounded s → True → s.step a = some s' →
      Transfer.Inv s' ∧ Transfer.Bounded s' := by
    intro s a s' h _ hstep
    exact ⟨Transfer.inv_step s a s' h.1 hstep, Transfer.bounded_step h.1 h.2 hstep⟩
  have hbounded := hreach.invariant hkeep ⟨Transfer.inv_fresh e, Transfer.bounded_fresh e⟩
  exact ⟨st, hbounded.2, hmirrors⟩

/-- In every run of two endpoints, with any interleaving, loss, repetition and reordering of
frames, the messages reported of an epoch other than the last are the first ones inserted by the
peer, one by one, each with zeros in some places at worst. -/
theorem reported_blanked (actions : List Action) (p : Pair)
    (hrun : run step start actions = some p) (side : Side) (e : Epoch) (hne : e ≠ Epoch.last) :
    ∃ sent, sent <+: p.given side e ∧ List.Forall₂ Transfer.Blanked sent (p.got side e) := by
  obtain ⟨st, hbounded, hmirrors⟩ := mirrored_bounded hrun side hne
  obtain ⟨sent, hpre, hblank⟩ := hbounded.returned_blanked
  rw [hmirrors.sends.inserted] at hpre
  rw [hmirrors.hears.returned] at hblank
  exact ⟨sent, hpre, hblank⟩

/-- A link that carries two bytes of a message at a time. -/
private def narrowLink : Link := ⟨"pipe", 58, by decide, true, fun _ => false, fun _ => true⟩

/-- Both sides get such a link and meet, then the left one submits five bytes. -/
private def threeSlices : List Action :=
  [.locally .left 0 (.command (.addLink narrowLink)),
    .locally .right 0 (.command (.addLink narrowLink)), .deliver .right 0 0 1, .deliver .left 0 0 1,
    .locally .left 0 (.command (.message ⟨[1, 2, 3, 4, 5], by decide⟩ none))]

/-- The last slice arrives first, then the first one. -/
private def lastFirst : List Action :=
  threeSlices ++ [.deliver .right 0 0 5, .deliver .right 0 0 3]

theorem reported_blanked_gap :
    ∃ p, run step start lastFirst = some p ∧
      p.given .left Epoch.one = [[1, 2, 3, 4, 5]] ∧ p.got .left Epoch.one = [[1, 2, 0, 0, 5]] ∧
      ∃ sent, sent <+: p.given .left Epoch.one ∧
        List.Forall₂ Transfer.Blanked sent (p.got .left Epoch.one) :=
  ⟨_, rfl, rfl, rfl, reported_blanked lastFirst _ rfl .left Epoch.one (by decide)⟩

/-- If every slice delivered to a session joins its entry without a gap, the messages reported of an
epoch other than the last are exactly the first ones inserted by the peer. -/
theorem reported_prefix_of_gapless (actions : List Action) (p : Pair)
    (hgap : AllSteps step Gapless start actions) (hrun : run step start actions = some p)
    (side : Side) (e : Epoch) (hne : e ≠ Epoch.last) : p.got side e <+: p.given side e := by
  obtain ⟨st, hreach, hmirrors⟩ := mirrored implies_gapless hne side hgap hrun
  have hkeep : ∀ s a s', Transfer.Inv s ∧ Transfer.Faithful s → Transfer.Gapless s a →
      s.step a = some s' → Transfer.Inv s' ∧ Transfer.Faithful s' := by
    intro s a s' h hs hstep
    exact ⟨Transfer.inv_step s a s' h.1 hstep, Transfer.faithful_step h.1 h.2 hs hstep⟩
  have hfaithful := hreach.invariant hkeep ⟨Transfer.inv_fresh e, Transfer.faithful_fresh e⟩
  have hpre := hfaithful.2.returned
  rw [hmirrors.sends.inserted, hmirrors.hears.returned] at hpre
  exact hpre

/-- The slices arrive in turn, the middle one twice. -/
private def slicesInTurn : List Action :=
  threeSlices ++ [.deliver .right 0 0 3, .deliver .right 0 0 4, .deliver .right 0 0 4,
    .deliver .right 0 0 5]

theorem reported_prefix_of_gapless_turn :
    ∃ p, run step start slicesInTurn = some p ∧
      p.got .left Epoch.one = [[1, 2, 3, 4, 5]] ∧ p.got .left Epoch.one <+: p.given .left Epoch.one :=
  ⟨_, rfl, rfl, reported_prefix_of_gapless slicesInTurn _ (by decide) rfl .left Epoch.one (by decide)⟩

end Pair

end LinkSet
