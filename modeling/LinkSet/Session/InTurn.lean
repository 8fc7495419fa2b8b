import LinkSet.Core.Traffic
import LinkSet.Messages.InOrder
import LinkSet.Session.Delivery

/-!
# Links that keep the order

A core gives the slices of a message to one link in a row, from a byte on up to which the other side
has acknowledged them. If the frames of a row arrive one after the other, from the first one on and
as far as they arrive at all, then no slice arrives before the one it continues: a session begins
at a reset and never between two slices. The messages reported are then those inserted, byte by
byte, whatever rows are lost or repeated and whatever the links in the other direction do.
-/

namespace LinkSet

open Framework Relation

theorem sentFrames_eq_handed (record : List Effect) :
    sentFrames record = (record.filterMap Effect.handed).map Prod.snd := by
  unfold sentFrames
  rw [List.map_filterMap]
  apply List.filterMap_congr
  intro eff _
  cases eff <;> rfl

/-- Every slice of epoch `e` continues the frame before it, which goes over the same link, or what
comes before it in its message has arrived. -/
def Strung (e : Epoch) (has : Nat → Nat → Prop) (sent : List Sent) : Prop :=
  ∀ n id seq seqLen firstIndex data,
    sent[n]? = some (id, .msgSlice e.toInt seq seqLen firstIndex data) →
    (∀ i < firstIndex, has seq i) ∨
    ∃ k len start piece, n = k + 1 ∧
      sent[k]? = some (id, .msgSlice e.toInt seq len start piece) ∧ start + piece.length = firstIndex

/-- No slice of epoch `e` is among the frames. -/
def Sliceless (e : Epoch) (sent : List Sent) : Prop :=
  ∀ id seq seqLen firstIndex data, (id, .msgSlice e.toInt seq seqLen firstIndex data) ∉ sent

namespace Strung

variable {e : Epoch} {has has' : Nat → Nat → Prop} {sent more : List Sent}

private theorem mono (h : Strung e has sent) (hmono : ∀ seq i, has seq i → has' seq i) :
    Strung e has' sent := by
  intro n id seq seqLen firstIndex data hn
  rcases h n id seq seqLen firstIndex data hn with hall | hcont
  · exact Or.inl fun i hi => hmono seq i (hall i hi)
  · exact Or.inr hcont

private theorem of_sliceless (h : Sliceless e sent) : Strung e has sent := by
  intro n id seq seqLen firstIndex data hn
  exact absurd (List.mem_of_getElem? hn) (h id seq seqLen firstIndex data)

private theorem append (h : Strung e has sent) (h' : Strung e has more) :
    Strung e has (sent ++ more) := by
  intro n id seq seqLen firstIndex data hn
  by_cases hlt : n < sent.length
  · rw [List.getElem?_append_left hlt] at hn
    rcases h n id seq seqLen firstIndex data hn with hall | ⟨k, len, start, piece, rfl, hk, hend⟩
    · exact Or.inl hall
    · refine Or.inr ⟨k, len, start, piece, rfl, ?_, hend⟩
      rw [List.getElem?_append_left (by omega), hk]
  · have hle := Nat.not_lt.mp hlt
    rw [List.getElem?_append_right hle] at hn
    rcases h' _ id seq seqLen firstIndex data hn with hall | ⟨k, len, start, piece, heq, hk, hend⟩
    · exact Or.inl hall
    · refine Or.inr ⟨sent.length + k, len, start, piece, by omega, ?_, hend⟩
      rw [List.getElem?_append_right (by omega), Nat.add_sub_cancel_left, hk]

private theorem of_tiles {sm : SliceManager} {d : List UInt8} {size last start id : Nat}
    {pieces : List (Nat × List UInt8)} (htiles : Tiles d size last start pieces)
    (hpre : sent.map Prod.snd <+: pieces.map sm.frame) (hlink : ∀ f ∈ sent, f.1 = id)
    (hhas : ∀ i < start, has sm.seq i) : Strung sm.epoch has sent := by
  have hframe : ∀ (n : Nat) x, sent[n]? = some x → ∃ q, pieces[n]? = some q ∧ x = (id, sm.frame q) := by
    intro n x hx
    have hsnd : (sent.map Prod.snd)[n]? = some x.2 := by rw [List.getElem?_map, hx]; rfl
    have hlt := (List.getElem?_eq_some_iff.mp hsnd).1
    obtain ⟨rest, hrest⟩ := hpre
    have hq : (pieces.map sm.frame)[n]? = some x.2 := by
      rw [← hrest, List.getElem?_append_left hlt, hsnd]
    rw [List.getElem?_map] at hq
    obtain ⟨q, hq, heq⟩ := Option.map_eq_some_iff.mp hq
    exact ⟨q, hq, Prod.ext (hlink x (List.mem_of_getElem? hx)) heq.symm⟩
  intro n id' seq seqLen firstIndex data hn
  obtain ⟨q, hq, heq⟩ := hframe n _ hn
  cases heq
  rcases htiles.starts hq with ⟨rfl, hfirst⟩ | ⟨k, p, rfl, hp, hend⟩
  · rw [hfirst]
    exact Or.inl hhas
  · have hlt := (List.getElem?_eq_some_iff.mp hn).1
    have hk := List.getElem?_eq_getElem (show k < sent.length by omega)
    obtain ⟨p', hp', heq⟩ := hframe k _ hk
    rw [hp] at hp'
    obtain rfl := Option.some.inj hp'
    rw [heq] at hk
    exact Or.inr ⟨k, _, _, _, rfl, hk, hend⟩

end Strung

private theorem SliceManager.Outstanding.tiles {s : SliceManager} {start size : Nat}
    {protos : List LinkProtocol} (h : s.Outstanding start) (hlen : s.data.length ≤ isizeMax)
    (hpos : 0 < size) (hsize : size < 2 ^ 32) (hslices : s.getSlices size = some protos) :
    protos = [] ∨ ∃ pieces last, protos = pieces.map s.frame ∧ Tiles s.data size last start pieces := by
  unfold Outstanding at h
  split at h
  · have hnone : s.getSlices size = some [] := by simp [SliceManager.getSlices, h]
    rw [hnone] at hslices
    exact Or.inl (Option.some.inj hslices).symm
  · have hmax : isizeMax = 2 ^ 63 - 1 := rfl
    obtain ⟨pieces, hpieces, htiles⟩ :=
      getSlices_tiles h.1 (by omega) (by omega) hpos (by omega)
    rw [hpieces] at hslices
    exact Or.inr ⟨pieces, _, (Option.some.inj hslices).symm, htiles⟩

section deals

variable {subs : Submitted} {ev : Event} {first : Option (Epoch × MessageManager)} {e : Epoch}
  {B B' : Books} {st : Transfer}

/-- What a deal gives to the links: no slice of the epoch, or slices of one message in a row to one
link. -/
private theorem Deal.handed (hdeal : Deal subs ev first B B') (hB : B.Sound) (e : Epoch) :
    ∃ more : List Sent, B'.record.filterMap Effect.handed =
        B.record.filterMap Effect.handed ++ more ∧
      (Sliceless e more ∨ ∃ m k sm size protos id, B.session = some (e, m) ∧
        m.outgoingSlices.get k = some sm ∧ 0 < size ∧ size < 2 ^ 32 ∧
        sm.getSlices size = some protos ∧ more.map Prod.snd <+: protos ∧ ∀ f ∈ more, f.1 = id) := by
  have hnone : Sliceless e [] := fun _ _ _ _ _ hmem => by cases hmem
  have hwire : ∀ sent, (wire sent).filterMap Effect.handed = sent := by
    intro sent
    simp [wire, List.filterMap_map, Function.comp_def, Effect.handed]
  cases hdeal with
  | @notes _ record eff hneutral =>
      refine ⟨[eff].filterMap Effect.handed, List.filterMap_append, Or.inl ?_⟩
      intro id seq seqLen firstIndex data hmem
      obtain ⟨x, hx, heff⟩ := List.mem_filterMap.mp hmem
      obtain rfl := List.mem_singleton.mp hx
      cases x with
      | toLink id' frame =>
          cases heff
          cases hneutral
      | _ => cases heff
  | begins e' => exact ⟨[], by simp [Effect.handed], Or.inl hnone⟩
  | inserts => exact ⟨[], by simp [Effect.handed], Or.inl hnone⟩
  | @emits record ep m k sm size protos id sent hget hpos hsize hslices hsent hlink =>
      refine ⟨sent, by rw [List.filterMap_append, hwire], ?_⟩
      by_cases hep : ep = e
      · subst hep
        exact Or.inr ⟨m, k, sm, size, protos, id, rfl, hget, hpos, hsize, hslices, hsent, hlink⟩
      · apply Or.inl
        intro id seq seqLen firstIndex data hmem
        obtain ⟨hepoch, _, datas, hsend⟩ := hB ep m rfl
        have hproto := hsent.subset (List.mem_map_of_mem (f := Prod.snd) hmem)
        obtain ⟨_, _, hframe, _⟩ := SliceManager.getSlices_pieces hslices _ hproto
        have hint := (LinkProtocol.msgSlice.inj hframe).1
        rw [(hsend.entry k sm hget).2.2, hepoch] at hint
        exact hep (Epoch.ext_val hint.symm)
  | @receives record ep m m1 m2 _ _ _ _ _ _ out acks _ _ _ hacks _ =>
      refine ⟨acks, ?_, Or.inl ?_⟩
      · rw [List.filterMap_append, List.filterMap_append, hwire, List.filterMap_map]
        simp [Function.comp_def, Effect.handed]
      · intro id seq seqLen firstIndex data hmem
        have hack := (hacks _ hmem).2
        cases hack
  | acked => exact ⟨[], (List.append_nil _).symm, Or.inl hnone⟩
  | ends => exact ⟨[], (List.append_nil _).symm, Or.inl hnone⟩

private theorem Sends.strung (h : Sends subs e B st) (hinv : st.Inv) (hB : B.Sound)
    (hdeal : Deal subs ev first B B')
    (hs : Strung e st.receiver.Has (B.record.filterMap Effect.handed)) :
    Strung e st.receiver.Has (B'.record.filterMap Effect.handed) := by
  obtain ⟨more, hmore, hrow⟩ := hdeal.handed hB e
  rw [hmore]
  apply hs.append
  rcases hrow with hno | ⟨m, k, sm, size, protos, id, hm, hget, hpos, hsize, hslices, hpre, hlink⟩
  · exact .of_sliceless hno
  · have hget' : st.sender.outgoingSlices.get k = some sm := by rw [← (h.session m hm).outgoing, hget]
    obtain ⟨hdata, hseq, hepoch⟩ := hinv.sending.entry k sm hget'
    obtain ⟨start, hout, hknown⟩ := hinv.pending.outstanding k sm hget'
    have hsmall := hinv.small _ (List.mem_of_getElem? hdata)
    have he : sm.epoch = e := by
      rw [hepoch, ← (h.session m hm).epoch]
      exact (hB e m hm).1
    rw [← he]
    rcases hout.tiles hsmall hpos hsize hslices with rfl | ⟨pieces, last, rfl, htiles⟩
    · have hnil := List.map_eq_nil_iff.mp (List.prefix_nil.mp hpre)
      rw [hnil]
      exact .of_sliceless fun _ _ _ _ _ hmem => by cases hmem
    · apply Strung.of_tiles htiles hpre hlink
      intro i hi
      rw [hseq]
      exact .of_known (hknown.resolve_left (by omega)) (by omega)

private theorem Sends.chain_strung (hchain : ReflTransGen (Deal subs ev first) B B')
    (h : Sends subs e B st) (hinv : st.Inv) (hB : B.Sound)
    (hcount : (managerEpochs B'.record).count e ≤ 1)
    (hack : ∀ id seq lastIndex, ev = .frame id (.ack e.toInt seq lastIndex) →
      (seq, lastIndex) ∈ st.acks)
    (hs : Strung e st.receiver.Has (B.record.filterMap Effect.handed)) :
    Strung e st.receiver.Has (B'.record.filterMap Effect.handed) := by
  induction hchain with
  | refl => exact hs
  | tail hchain hdeal ih =>
      have hle := (hdeal.managerEpochs_prefix.sublist.count_le e).trans hcount
      have hany : Spares fun _ _ => True := fun _ _ _ => trivial
      obtain ⟨st₁, hreach, ⟨hreceiver, _⟩, hsends⟩ := h.chain hchain hB hle hany hack
      have hinv₁ := hreach.invariant (fun s a s' hs _ => Transfer.inv_step s a s' hs) hinv
      have hstrung := hsends.strung hinv₁ (hB.chain hchain) hdeal
      rw [hreceiver] at hstrung
      exact hstrung (ih hle)

end deals

section slices

variable {c : CommonState} {now id : Nat} {r : States × CommonState}

private theorem Connected.determineState_session {s : Connected}
    (hr : determineState s c now = some r) {x : Epoch × MessageManager}
    (hx : r.1.mail.session = some x) : x = (s.epoch, s.msgMgr) := by
  unfold determineState at hr
  split at hr
  · split at hr
    · cases hr
      cases hx
      rfl
    · split at hr
      · cases hr
        cases hx
        rfl
      · cases hr
        cases hx
  · cases hr
    cases hx
    rfl

private theorem States.linkMsg_slice {st : States} {e e' : Epoch} {m m' : MessageManager}
    {seq seqLen firstIndex : Nat} {data : List UInt8} (hsession : st.mail.session = some (e, m))
    (hr : st.linkMsg c now id (.msgSlice e.toInt seq seqLen firstIndex data) = some r)
    (hafter : r.1.mail.session = some (e', m')) :
    ∃ b m1 out, m.recv seq firstIndex seqLen data = some (b, m1) ∧
      m1.takeRecvd = some (out, m') := by
  have hdetached : ∀ {stay : MessageManager → States} {leave : States × CommonState},
      (∀ m, (stay m).mail.session = some (e, m)) →
      linkDetached m e c stay leave (.msgSlice e.toInt seq seqLen firstIndex data) = some r →
      ∃ b m1 out, m.recv seq firstIndex seqLen data = some (b, m1) ∧
        m1.takeRecvd = some (out, m') := by
    intro stay leave hstay hr
    simp only [linkDetached, if_true, recvDetached, Option.bind_eq_bind] at hr
    obtain ⟨⟨m2, c'⟩, hdetached, hr⟩ := Option.bind_eq_some_iff.mp hr
    obtain ⟨⟨b, m1⟩, hrecv, hdetached⟩ := Option.bind_eq_some_iff.mp hdetached
    obtain ⟨⟨out, m3⟩, htake, heq⟩ := Option.bind_eq_some_iff.mp hdetached
    cases heq
    cases hr
    rw [hstay] at hafter
    cases hafter
    exact ⟨b, m1, out, hrecv, htake⟩
  cases st with
  | disconnected s => cases hsession
  | connecting s => cases hsession
  | epochMismatch s => cases hsession
  | connected s =>
      cases hsession
      simp only [linkMsg, Connected.linkMsg, Connected.linkSlice, if_true,
        Option.bind_eq_bind] at hr
      obtain ⟨⟨b, m1⟩, hrecv, hr⟩ := Option.bind_eq_some_iff.mp hr
      obtain ⟨⟨out, m2⟩, htake, hr⟩ := Option.bind_eq_some_iff.mp hr
      cases Connected.determineState_session hr hafter
      exact ⟨b, m1, out, hrecv, htake⟩
  | reconnecting s =>
      cases hsession
      simp only [linkMsg, Reconnecting.linkMsg] at hr
      exact hdetached (fun _ => rfl) hr
  | gracePeriod s =>
      cases hsession
      simp only [linkMsg, GracePeriod.linkMsg] at hr
      exact hdetached (fun _ => rfl) hr

end slices

namespace Core

variable {core core' : Core} {now : Nat} {ev : Event} {e : Epoch} {m' : MessageManager}

private theorem session_phase (core : Core) :
    core.state.phase.session = core.books.session.map Prod.fst := by
  unfold books
  cases core.state <;> rfl

private theorem session_before (hstep : core.step (now, ev) = some core')
    (hreset : ∀ id x req, ev ≠ .frame id (.reset x req))
    (hafter : core'.books.session = some (e, m')) : ∃ m, core.books.session = some (e, m) := by
  obtain ⟨_, _, hphase⟩ := step_phase hstep
  have hsession : core'.state.phase.session = some e := by rw [session_phase, hafter]; rfl
  rcases hphase.session_origin hsession with hkept | ⟨x, req, hstim, _⟩
  · rw [session_phase] at hkept
    obtain ⟨⟨e', m⟩, hm, rfl⟩ := Option.map_eq_some_iff.mp hkept
    exact ⟨m, hm⟩
  · obtain ⟨id, rfl⟩ := Event.eq_frame hstim
    exact absurd rfl (hreset id x req)

theorem carried_grows (hstep : core.step (now, ev) = some core') :
    core.common.carried <+: core'.common.carried := by
  obtain ⟨delta, hrecord, _⟩ := step_phase hstep
  unfold CommonState.carried
  rw [hrecord, List.filterMap_append]
  exact List.prefix_append _ _

end Core

/-- Two endpoints, and the number of the frame after the one of `side` that arrived last. -/
structure Lane where
  pair : Pair
  next : Nat

namespace Lane

def start : Lane := ⟨Pair.start, 0⟩

/-- Frame `n` is the first of a row: the frame before it goes over another link. -/
def Begins (sent : List Sent) (n : Nat) : Prop :=
  n = 0 ∨ sent[n - 1]?.map Prod.fst ≠ sent[n]?.map Prod.fst

instance (sent : List Sent) (n : Nat) : Decidable (Begins sent n) := inferInstanceAs (Decidable (_ ∨ _))

/-- A frame that `side` has sent arrives after the one before it, unless it begins a row; a row may
break off, and rows arrive in any order, any number of times or never. So do the single frames in
the other direction. -/
def step (side : Side) (l : Lane) : Pair.Action → Option Lane
  | .locally s now ev => (l.pair.step (.locally s now ev)).map fun pair => { l with pair }
  | .deliver s now reader n =>
      if s = side then
        (l.pair.step (.deliver s now reader n)).map fun pair => { l with pair }
      else if n = l.next ∨ Begins (l.pair.core side).common.carried n then
        (l.pair.step (.deliver s now reader n)).map fun pair => ⟨pair, n + 1⟩
      else none

/-- Everything a step can do. -/
inductive Moves (side : Side) (l : Lane) : Lane → Prop where
  | sender {now ev pair} (h : l.pair.stepSide side (now, ev) = some pair)
      (hframe : ∀ id f, ev = .frame id f → f ∈ sentFrames (l.pair.peer side).common.record) :
      Moves side l { l with pair }
  | receiver {s now ev pair} (hs : s ≠ side) (hev : ∀ id f, ev ≠ .frame id f)
      (h : l.pair.stepSide s (now, ev) = some pair) : Moves side l { l with pair }
  | arrival {s now reader n link f pair} (hs : s ≠ side)
      (hget : (l.pair.core side).common.carried[n]? = some (link, f))
      (hnext : n = l.next ∨ Begins (l.pair.core side).common.carried n)
      (h : l.pair.stepSide s (now, .frame reader f) = some pair) : Moves side l ⟨pair, n + 1⟩

private theorem step_moves {side : Side} {l l' : Lane} {a : Pair.Action}
    (h : l.step side a = some l') : Moves side l l' := by
  cases a with
  | locally s now ev =>
      obtain ⟨pair, hpair, rfl⟩ := Option.map_eq_some_iff.mp h
      rcases Pair.step_cases hpair with ⟨_, _, _, heq, hev, hside⟩ | ⟨_, _, _, _, _, heq, _⟩
      · cases heq
        by_cases hs : s = side
        · subst hs
          exact .sender hside fun id f hf => absurd hf (hev id f)
        · exact .receiver hs hev hside
      · cases heq
  | deliver s now reader n =>
      have hsent : ∀ {pair}, l.pair.step (.deliver s now reader n) = some pair →
          ∃ f, (sentFrames (l.pair.peer s).common.record)[n]? = some f ∧
            l.pair.stepSide s (now, .frame reader f) = some pair := by
        intro pair hpair
        rcases Pair.step_cases hpair with ⟨_, _, _, heq, _⟩ | ⟨_, _, _, _, f, heq, hget, hside⟩
        · cases heq
        · cases heq
          exact ⟨f, hget, hside⟩
      rw [step] at h
      by_cases hs : s = side
      · rw [if_pos hs] at h
        obtain ⟨pair, hpair, rfl⟩ := Option.map_eq_some_iff.mp h
        obtain ⟨f, hget, hside⟩ := hsent hpair
        subst hs
        refine .sender hside ?_
        rintro _ _ ⟨rfl, rfl⟩
        exact List.mem_of_getElem? hget
      · rw [if_neg hs] at h
        obtain ⟨hnext, h⟩ := Option.ite_none_right_eq_some.mp h
        obtain ⟨pair, hpair, rfl⟩ := Option.map_eq_some_iff.mp h
        obtain ⟨_, hframe, hside⟩ := hsent hpair
        rw [← (Pair.peer_of_ne hs l.pair).2, sentFrames_eq_handed, List.getElem?_map] at hframe
        obtain ⟨⟨link, f⟩, hget, rfl⟩ := Option.map_eq_some_iff.mp hframe
        exact .arrival hs hget hnext hside

end Lane

/-- The transfer of epoch `e` from `side` to the other endpoint, whose frames arrive in turn: if the
last one is a slice and a session of the epoch is there, the session has its message up to the end
of the slice. -/
structure Turn (e : Epoch) (side : Side) (l : Lane) (st : Transfer) : Prop where
  mirrors : Mirrors e side l.pair st
  strung : Strung e st.receiver.Has (l.pair.core side).common.carried
  next_le : l.next ≤ (l.pair.core side).common.carried.length
  caught : ∀ k id m seq seqLen firstIndex data, l.next = k + 1 →
    (l.pair.core side).common.carried[k]? =
      some (id, .msgSlice e.toInt seq seqLen firstIndex data) →
    (l.pair.peer side).books.session = some (e, m) →
    ∀ i < firstIndex + data.length, st.receiver.Has seq i

namespace Turn

variable {e : Epoch} {side s : Side} {l : Lane} {st : Transfer} {now : Nat} {ev : Event}
  {pair : Pair}

private theorem start (e : Epoch) (side : Side) : Turn e side Lane.start (Transfer.fresh e) where
  mirrors := mirrors_start e side
  strung := by
    have hnone : (Lane.start.pair.core side).common.carried = [] := by cases side <;> rfl
    rw [hnone]
    exact .of_sliceless fun _ _ _ _ _ hmem => by cases hmem
  next_le := Nat.zero_le _
  caught := by
    intro k _ _ _ _ _ _ hk
    cases hk

private theorem follows (h : Turn e side l st) {n link seq seqLen firstIndex : Nat}
    {data : List UInt8} {m : MessageManager}
    (hnext : n = l.next ∨ Lane.Begins (l.pair.core side).common.carried n)
    (hget : (l.pair.core side).common.carried[n]? =
      some (link, .msgSlice e.toInt seq seqLen firstIndex data))
    (hsession : (l.pair.peer side).books.session = some (e, m)) :
    ∀ i < firstIndex, st.receiver.Has seq i := by
  rcases h.strung n link seq seqLen firstIndex data hget with
    hall | ⟨k, len, start, piece, rfl, hk, rfl⟩
  · exact hall
  · rcases hnext with hnext | hzero | hlinks
    · exact h.caught k link m seq len start piece hnext.symm hk hsession
    · cases hzero
    · rw [Nat.add_sub_cancel, hk, hget] at hlinks
      exact absurd rfl hlinks

private theorem spares_inOrder : Spares Transfer.InOrder := by
  intro st a hother
  cases a with
  | deliverSlice n => exact absurd rfl (hother n)
  | _ => trivial

private theorem sender (hne : e ≠ Epoch.last) (h : Turn e side l st)
    (hside : l.pair.stepSide side (now, ev) = some pair)
    (hframe : ∀ id f, ev = .frame id f → f ∈ sentFrames (l.pair.peer side).common.record) :
    ∃ st', Reaches Transfer.step Transfer.InOrder st st' ∧ Turn e side { l with pair } st' := by
  obtain ⟨hcore, hpeer⟩ := Pair.stepSide_eq_some hside
  obtain ⟨st', hreach, hmirrors⟩ :=
    h.mirrors.handles spares_inOrder hne hcore hpeer hframe fun hs => absurd rfl hs
  have hhas : ∀ seq i, st.receiver.Has seq i → st'.receiver.Has seq i := fun _ _ hi =>
    Transfer.has_of_reaches hreach h.mirrors.inv hi
  have hgrows := Core.carried_grows hcore
  refine ⟨st', hreach, hmirrors, ?_, h.next_le.trans hgrows.length_le, ?_⟩
  · have hack : ∀ id seq lastIndex, ev = .frame id (.ack e.toInt seq lastIndex) →
        (seq, lastIndex) ∈ st.acks := by
      intro id seq lastIndex hev
      exact h.mirrors.hears.acks _ _ (hframe _ _ hev)
    obtain ⟨more, hmore⟩ := (l.pair.core side).submittedBy_append ev
    have hsends := h.mirrors.sends.submit h.mirrors.sender.mail.known more
    rw [← hmore] at hsends
    have hcount := (h.mirrors.sender.step hcore).count_le_one hne
    have hchain := (h.mirrors.sender.dealt hcore).2
    exact (hsends.chain_strung hchain h.mirrors.inv h.mirrors.sender.books hcount hack h.strung).mono
      hhas
  · intro k id m seq seqLen firstIndex data hk hget hsession i hi
    have hlt : k < (l.pair.core side).common.carried.length := by
      have hle := h.next_le
      rw [show l.next = k + 1 from hk] at hle
      exact hle
    obtain ⟨more, hmore⟩ := hgrows
    rw [← hmore, List.getElem?_append_left hlt] at hget
    rw [hpeer] at hsession
    exact hhas seq i (h.caught k id m seq seqLen firstIndex data hk hget hsession i hi)

private theorem receiver (hne : e ≠ Epoch.last) (h : Turn e side l st) (hs : s ≠ side)
    (hev : ∀ id f, ev ≠ .frame id f) (hside : l.pair.stepSide s (now, ev) = some pair) :
    ∃ st', Reaches Transfer.step Transfer.InOrder st st' ∧ Turn e side { l with pair } st' := by
  obtain ⟨hcore, hpeer⟩ := Pair.stepSide_eq_some hside
  obtain ⟨st', hreach, hmirrors⟩ :=
    h.mirrors.handles spares_inOrder hne hcore hpeer (fun id f heq => absurd heq (hev id f))
      fun _ _ _ _ _ _ _ _ _ _ heq => absurd heq (hev _ _)
  have hhas : ∀ seq i, st.receiver.Has seq i → st'.receiver.Has seq i := fun _ _ hi =>
    Transfer.has_of_reaches hreach h.mirrors.inv hi
  have hsender : pair.core side = l.pair.core side := by
    rw [(Pair.peer_of_ne hs pair).2, hpeer, (Pair.peer_of_ne hs l.pair).2]
  refine ⟨st', hreach, hmirrors, ?_, ?_, ?_⟩
  · rw [hsender]
    exact h.strung.mono hhas
  · rw [hsender]
    exact h.next_le
  · intro k id m seq seqLen firstIndex data hk hget hsession i hi
    rw [hsender] at hget
    rw [(Pair.peer_of_ne hs pair).1] at hsession
    obtain ⟨m₀, hm₀⟩ := Core.session_before hcore (fun id x req => hev id _) hsession
    rw [← (Pair.peer_of_ne hs l.pair).1] at hm₀
    exact hhas seq i (h.caught k id m₀ seq seqLen firstIndex data hk hget hm₀ i hi)

private theorem taken {m m1 m2 : MessageManager} {seq seqLen firstIndex : Nat} {data : List UInt8}
    {b : Bool} {out : List (List UInt8)} (hinv : st.Inv) (hsame : m.SameIncoming st.receiver)
    (hframe : .msgSlice e.toInt seq seqLen firstIndex data ∈ st.frames)
    (hrecv : m.recv seq firstIndex seqLen data = some (b, m1))
    (htake : m1.takeRecvd = some (out, m2)) (hbefore : ∀ i < firstIndex, st.receiver.Has seq i) :
    ∀ i < firstIndex + data.length, m2.Has seq i := by
  obtain ⟨_, _, d, _, _, hf, hd, hpiece⟩ := hinv.frames _ hframe
  cases hf
  obtain ⟨x, hx, hsame'⟩ := hsame.recv hrecv
  have hlen : ∀ sm, st.receiver.incomingSlices.get seq = some sm → sm.data.length = d.length := by
    intro sm hsm
    obtain ⟨d', hd', heq⟩ := hinv.sized seq sm hsm
    rw [hd] at hd'
    rw [Option.some.inj hd', heq]
  intro i hi
  have hx : x.Has seq i := by
    by_cases hlow : i < firstIndex
    · exact (hbefore i hlow).stored (hinv.receiving.recv_stored hpiece.1 hx)
    · exact hinv.receiving.recv_has hlen hpiece.1 (IsPiece.length_le hpiece) hx (Nat.not_lt.mp hlow) hi
  exact (hx.congr hsame'.symm).takeRecvd htake

private theorem arrival (hne : e ≠ Epoch.last) (h : Turn e side l st) (hs : s ≠ side)
    {reader n link : Nat} {f : LinkProtocol}
    (hget : (l.pair.core side).common.carried[n]? = some (link, f))
    (hnext : n = l.next ∨ Lane.Begins (l.pair.core side).common.carried n)
    (hside : l.pair.stepSide s (now, .frame reader f) = some pair) :
    ∃ st', Reaches Transfer.step Transfer.InOrder st st' ∧ Turn e side ⟨pair, n + 1⟩ st' := by
  obtain ⟨hcore, hpeer⟩ := Pair.stepSide_eq_some hside
  obtain ⟨hpeer_s, hcore_s⟩ := Pair.peer_of_ne hs l.pair
  have hmem : f ∈ sentFrames (l.pair.core side).common.record := by
    rw [sentFrames_eq_handed]
    exact List.mem_map_of_mem (f := Prod.snd) (List.mem_of_getElem? hget)
  have hadmits : Admits Transfer.InOrder e (.frame reader f) (l.pair.core s).books.session := by
    intro st₁ k m id seq seqLen firstIndex data hsession hev hsame hframe f' hf'
    cases hev
    rw [hframe] at hf'
    obtain rfl := Option.mem_some.mp hf'
    rw [← hpeer_s] at hsession
    intro i hi
    have hhas := h.follows hnext hget hsession i hi
    exact (hhas.congr (h.mirrors.hears.session m hsession).symm).congr hsame
  obtain ⟨st', hreach, hmirrors⟩ :=
    h.mirrors.handles spares_inOrder hne hcore hpeer
      (fun _ _ heq => by cases heq; rw [← hcore_s]; exact hmem) fun _ => hadmits
  have hhas : ∀ seq i, st.receiver.Has seq i → st'.receiver.Has seq i := fun _ _ hi =>
    Transfer.has_of_reaches hreach h.mirrors.inv hi
  have hsender : pair.core side = l.pair.core side := by
    rw [(Pair.peer_of_ne hs pair).2, hpeer, hcore_s]
  refine ⟨st', hreach, hmirrors, ?_, ?_, ?_⟩
  · rw [hsender]
    exact h.strung.mono hhas
  · rw [hsender]
    exact (List.getElem?_eq_some_iff.mp hget).1
  · rintro _ id m' seq seqLen firstIndex data ⟨rfl⟩ hget' hsession i hi
    rw [hsender, hget] at hget'
    cases hget'
    have hafter := hsession
    rw [(Pair.peer_of_ne hs pair).1] at hafter
    -- a slice begins no session, so there was one to take it
    obtain ⟨m, hm⟩ := Core.session_before hcore (fun _ _ _ heq => by cases heq) hafter
    rw [← hpeer_s] at hm
    obtain ⟨r, hr, hcore'⟩ := Option.map_eq_some_iff.mp hcore
    obtain ⟨_, hr⟩ := Option.ite_none_right_eq_some.mp hr
    rw [← hcore'] at hafter
    rw [hpeer_s] at hm
    obtain ⟨b, m1, out, hrecv, htake⟩ := States.linkMsg_slice hm hr hafter
    rw [← hpeer_s] at hm
    have hsame := h.mirrors.hears.session m hm
    have htaken := taken h.mirrors.inv hsame (h.mirrors.sends.frames _ _ _ _ hmem) hrecv htake
      (h.follows hnext hget hm) i hi
    exact htaken.congr (hmirrors.hears.session m' hsession)

/-- Every step of the lane is matched by steps of the transfer that deliver slices in order. -/
private theorem step (hne : e ≠ Epoch.last) (h : Turn e side l st) {a : Pair.Action} {l' : Lane}
    (hstep : l.step side a = some l') :
    ∃ st', Reaches Transfer.step Transfer.InOrder st st' ∧ Turn e side l' st' := by
  cases Lane.step_moves hstep with
  | sender hside hframe => exact h.sender hne hside hframe
  | receiver hs hev hside => exact h.receiver hne hs hev hside
  | arrival hs hget hnext hside => exact h.arrival hne hs hget hnext hside

theorem of_run (hne : e ≠ Epoch.last) {actions : List Pair.Action}
    (hrun : run (Lane.step side) Lane.start actions = some l) :
    ∃ st, Reaches Transfer.step Transfer.InOrder (Transfer.fresh e) st ∧ Turn e side l st := by
  have hall : AllSteps (Lane.step side) (fun _ _ => True) Lane.start actions :=
    .of_forall_mem (fun _ _ => trivial) Lane.start
  exact run_simulated (fun _ _ _ _ h _ hstep => h.step hne hstep) (Turn.start e side) hall hrun

theorem got_prefix (h : Turn e side l st)
    (hreach : Reaches Transfer.step Transfer.InOrder (Transfer.fresh e) st) :
    l.pair.got side e <+: l.pair.given side e := by
  have hpre := Transfer.returned_prefix_of_inOrder hreach
  rw [h.mirrors.sends.inserted, h.mirrors.hears.returned] at hpre
  exact hpre

end Turn

namespace Lane

/-- If the frames of a row arrive one after the other, the messages reported at the other endpoint
are exactly the first ones inserted, for every epoch but the last and whatever sessions, links,
timers and commands there are. -/
theorem reported_prefix_in_turn (side : Side) (actions : List Pair.Action) (l : Lane)
    (hrun : run (step side) start actions = some l) (e : Epoch) (hne : e ≠ Epoch.last) :
    l.pair.got side e <+: l.pair.given side e := by
  obtain ⟨st, hreach, hturn⟩ := Turn.of_run hne hrun
  exact hturn.got_prefix hreach

/-- A message of three slices, of which one arrives before the link breaks. The timer gives all of
them to another link. -/
private def linkBreaks : List Pair.Action :=
  [.locally .left 0 (.command (.addLink Core.smallestLink)),
    .locally .right 0 (.command (.addLink Core.smallestLink)), .deliver .right 0 0 0,
    .deliver .right 0 0 1, .deliver .left 0 0 1,
    .locally .left 0 (.command (.message ⟨[9, 2, 6], by decide⟩ none)),
    .deliver .right 0 0 2, .deliver .right 0 0 3, .locally .left 0 (.debug (.evictLink 0)),
    .locally .left 0 (.command (.addLink Core.smallestLink)),
    .locally .right 0 (.command (.addLink Core.smallestLink)), .locally .left 5000000000 .timer,
    .deliver .right 0 1 6, .deliver .right 0 1 7, .deliver .right 0 1 8]

theorem reported_prefix_in_turn_break :
    ∃ l, run (step .left) start linkBreaks = some l ∧
      l.pair.got .left Epoch.one = [[9, 2, 6]] ∧
      l.pair.got .left Epoch.one <+: l.pair.given .left Epoch.one :=
  ⟨_, rfl, rfl, reported_prefix_in_turn .left linkBreaks _ rfl Epoch.one (by decide)⟩

end Lane

end LinkSet
