import LinkSet.Core.Limits
import LinkSet.Mail.Provenance

/-!
# What link frames do to a session

A session lasts over three states, and each of them handles the peer's reset requests itself.
`Connected` leaves the session on a request for another epoch; `Reconnecting` and `GracePeriod`
leave it on a request for its own epoch and ignore the others.
-/

namespace LinkSet

open Framework

/-- A reset request for an epoch other than `e`. -/
def LinkProtocol.mismatched (e : Epoch) : LinkProtocol → Bool
  | .reset epoch request => request && epoch ≠ some e
  | _ => false

def LinkProtocol.isRequest : LinkProtocol → Bool
  | .reset _ request => request
  | _ => false

/-- What becomes of the manager of a session with epoch `e` on a frame. -/
def MessageManager.serve (e : Epoch) (m : MessageManager) : LinkProtocol → Option MessageManager
  | .ack epoch seq lastIndex => some (if epoch = e.toInt then m.recvAck (seq, lastIndex) else m)
  | .msgSlice epoch seq seqLen firstIndex data =>
      if epoch = e.toInt then
        (m.recv seq firstIndex seqLen data).bind fun r => r.2.takeRecvd.map Prod.snd
      else some m
  | _ => some m

/-- The slices of the session's epoch are safe. -/
def SafeFrame (e : Epoch) (m : MessageManager) : LinkProtocol → Prop
  | .msgSlice epoch seq seqLen firstIndex data =>
      epoch = e.toInt → SafeSlice m seq firstIndex seqLen data
  | _ => True

private theorem LinkProtocol.isRequest_of_mismatched {e : Epoch} {msg : LinkProtocol}
    (h : msg.mismatched e = true) : msg.isRequest = true := by
  cases msg with
  | reset epoch request =>
      simp only [LinkProtocol.mismatched, Bool.and_eq_true] at h
      exact h.1
  | _ => cases h

private theorem safeFrame_of_isRequest {msg : LinkProtocol} (h : msg.isRequest = true) (e : Epoch)
    (m : MessageManager) : SafeFrame e m msg := by
  cases msg with
  | reset epoch request => trivial
  | _ => cases h

def States.isConnected : States → Bool
  | .connected _ => true
  | _ => false

namespace Receiving

variable {m m' : MessageManager} {n : Nat} {e : Epoch} {msg : LinkProtocol}

theorem serve_isSome_iff (h : Receiving m n) (hdec : msg.Decoded) :
    (∃ m', m.serve e msg = some m') ↔ SafeFrame e m msg := by
  cases msg with
  | reset _ _ => exact ⟨fun _ => trivial, fun _ => ⟨_, rfl⟩⟩
  | ack _ _ _ => exact ⟨fun _ => trivial, fun _ => ⟨_, rfl⟩⟩
  | ping => exact ⟨fun _ => trivial, fun _ => ⟨_, rfl⟩⟩
  | pong => exact ⟨fun _ => trivial, fun _ => ⟨_, rfl⟩⟩
  | msgSlice epoch seq seqLen firstIndex data =>
      obtain ⟨bytes, rest, hdec⟩ := hdec
      have hdata := LinkProtocol.deserialize_data_ne_nil hdec
      unfold MessageManager.serve SafeFrame
      simp only
      by_cases hepoch : epoch = e.toInt
      · rw [if_pos hepoch, ← h.recv_isSome_iff hdata]
        constructor
        · intro hserve _
          obtain ⟨m', hserve⟩ := hserve
          obtain ⟨r, hr, _⟩ := Option.bind_eq_some_iff.mp hserve
          exact ⟨r, hr⟩
        · intro hrecv
          obtain ⟨⟨b, m1⟩, hr⟩ := hrecv hepoch
          obtain ⟨out, m2, htake, _⟩ := (h.recv hr).takeRecvd
          exact ⟨m2, by rw [hr, Option.bind_some, htake]; rfl⟩
      · rw [if_neg hepoch]
        exact ⟨fun _ heq => absurd heq hepoch, fun _ => ⟨_, rfl⟩⟩

private theorem serve (h : Receiving m n) (hdec : msg.Decoded) (hserve : m.serve e msg = some m') :
    ∃ n', Receiving m' n' := by
  cases msg with
  | reset _ _ => exact ⟨n, Option.some.inj hserve ▸ h⟩
  | ping => exact ⟨n, Option.some.inj hserve ▸ h⟩
  | pong => exact ⟨n, Option.some.inj hserve ▸ h⟩
  | ack epoch seq lastIndex =>
      cases hserve
      refine ⟨n, ?_⟩
      split
      · exact h.recvAck _
      · exact h
  | msgSlice epoch seq seqLen firstIndex data =>
      obtain ⟨bytes, rest, hdec⟩ := hdec
      have hdata := LinkProtocol.deserialize_data_ne_nil hdec
      unfold MessageManager.serve at hserve
      simp only at hserve
      split at hserve
      · obtain ⟨⟨b, m1⟩, hr, hserve⟩ := Option.bind_eq_some_iff.mp hserve
        obtain ⟨⟨out, m2⟩, htake, rfl⟩ := Option.map_eq_some_iff.mp hserve
        exact (h.recv hr).of_takeRecvd htake
      · exact ⟨n, Option.some.inj hserve ▸ h⟩

end Receiving

/-- What frames leave alone in the common state. -/
structure CommonState.SameSetup (c c' : CommonState) : Prop where
  readers : c'.readers = c.readers
  connectingTimeout : c'.connectingTimeout = c.connectingTimeout
  reconnectingTimeout : c'.reconnectingTimeout = c.reconnectingTimeout
  gracePeriodTimeout : c'.gracePeriodTimeout = c.gracePeriodTimeout

/-- The user allows a session without links. -/
def CommonState.Lasting (c : CommonState) : Prop :=
  c.reconnectingTimeout ≠ some 0 ∨ c.gracePeriodTimeout ≠ some 0

private theorem CommonState.SameSetup.lasting {c c' : CommonState} (h : c.SameSetup c')
    (hlast : c.Lasting) : c'.Lasting := by
  unfold Lasting
  rw [h.reconnectingTimeout, h.gracePeriodTimeout]
  exact hlast

/-- The session goes on, with the given manager. -/
def Handled.Keeps (r : Handled) (c : CommonState) (e : Epoch) (m : MessageManager) : Prop :=
  ∃ st c', r = some (st, c') ∧ st.phase.session = some e ∧ st.manager = some m ∧ c.SameSetup c'

private theorem Reconnecting.fromConnected_sameSetup (old : Connected) (c : CommonState)
    (now : Nat) : c.SameSetup (Reconnecting.fromConnected old c now).2 := by
  unfold Reconnecting.fromConnected
  simp only
  split <;> exact ⟨rfl, rfl, rfl, rfl⟩

private theorem GracePeriod.fromConnected_sameSetup (old : Connected) (c : CommonState)
    (now : Nat) : c.SameSetup (GracePeriod.fromConnected old c now).2 := by
  unfold GracePeriod.fromConnected
  simp only
  split <;> exact ⟨rfl, rfl, rfl, rfl⟩

namespace Connected

variable {c c' : CommonState} {m' : MessageManager}

private theorem determineState_keeps (s : Connected) (now : Nat) (hlast : c.Lasting)
    (hsetup : c.SameSetup c') : Handled.Keeps (determineState s c' now) c s.epoch s.msgMgr := by
  have hlast' := hsetup.lasting hlast
  have hsame : ∀ c'', c'.SameSetup c'' → c.SameSetup c'' := fun c'' h =>
    ⟨h.readers.trans hsetup.readers, h.connectingTimeout.trans hsetup.connectingTimeout,
      h.reconnectingTimeout.trans hsetup.reconnectingTimeout,
      h.gracePeriodTimeout.trans hsetup.gracePeriodTimeout⟩
  unfold determineState
  split
  · split
    · exact ⟨_, _, rfl, rfl, rfl, hsame _ (Reconnecting.fromConnected_sameSetup s c' now)⟩
    · next hrec =>
        rw [if_pos (hlast'.resolve_left hrec)]
        exact ⟨_, _, rfl, rfl, rfl, hsame _ (GracePeriod.fromConnected_sameSetup s c' now)⟩
  · exact ⟨_, _, rfl, rfl, rfl, hsetup⟩

private theorem linkMsg_keeps (s : Connected) (now id : Nat) {msg : LinkProtocol}
    (hlast : c.Lasting) (hcalm : msg.mismatched s.epoch = false)
    (hserve : s.msgMgr.serve s.epoch msg = some m') :
    Handled.Keeps (s.linkMsg c now id msg) c s.epoch m' := by
  cases msg with
  | reset epoch request =>
      cases hserve
      cases request with
      | false => exact ⟨_, _, rfl, rfl, rfl, rfl, rfl, rfl, rfl⟩
      | true =>
          have hepoch : epoch = some s.epoch := by simpa [LinkProtocol.mismatched] using hcalm
          simp only [linkMsg, linkReset, if_true, if_pos hepoch]
          exact determineState_keeps _ now hlast ⟨rfl, rfl, rfl, rfl⟩
  | ack epoch seq lastIndex =>
      cases hserve
      unfold linkMsg
      by_cases hepoch : epoch = s.epoch.toInt
      · simp only [if_pos hepoch]
        exact ⟨_, _, rfl, rfl, rfl, rfl, rfl, rfl, rfl⟩
      · simp only [if_neg hepoch]
        exact ⟨_, _, rfl, rfl, rfl, rfl, rfl, rfl, rfl⟩
  | msgSlice epoch seq seqLen firstIndex data =>
      simp only [linkMsg, linkSlice]
      simp only [MessageManager.serve] at hserve
      by_cases hepoch : epoch = s.epoch.toInt
      · rw [if_pos hepoch] at hserve ⊢
        obtain ⟨⟨b, m1⟩, hr, hserve⟩ := Option.bind_eq_some_iff.mp hserve
        obtain ⟨⟨out, m2⟩, htake, rfl⟩ := Option.map_eq_some_iff.mp hserve
        simp only at htake
        simp only [hr, Option.bind_eq_bind, Option.bind_some, htake]
        apply determineState_keeps _ now hlast
        cases b with
        | true => exact ⟨rfl, rfl, rfl, rfl⟩
        | false => exact ⟨rfl, rfl, rfl, rfl⟩
      · rw [if_neg hepoch] at hserve ⊢
        cases hserve
        exact ⟨_, _, rfl, rfl, rfl, rfl, rfl, rfl, rfl⟩
  | ping =>
      cases hserve
      exact ⟨_, _, rfl, rfl, rfl, rfl, rfl, rfl, rfl⟩
  | pong =>
      cases hserve
      exact ⟨_, _, rfl, rfl, rfl, rfl, rfl, rfl, rfl⟩

private theorem linkMsg_mismatched (s : Connected) (c : CommonState) (now id : Nat)
    {msg : LinkProtocol} (hmis : msg.mismatched s.epoch = true) :
    ∃ st c', s.linkMsg c now id msg = some (st, c') ∧ st.phase.session = none := by
  cases msg with
  | reset epoch request =>
      simp only [LinkProtocol.mismatched, Bool.and_eq_true, decide_eq_true_eq] at hmis
      obtain ⟨rfl, hepoch⟩ := hmis
      simp only [linkMsg, linkReset, if_true, if_neg hepoch]
      exact ⟨_, _, rfl, rfl⟩
  | _ => cases hmis

end Connected

section detached

variable {m m' : MessageManager} {e : Epoch} {msg : LinkProtocol}

private theorem recvDetached_eq (c : CommonState) {epoch seq seqLen firstIndex : Nat}
    {data : List UInt8} (hepoch : epoch = e.toInt)
    (hserve : m.serve e (.msgSlice epoch seq seqLen firstIndex data) = some m') :
    ∃ msgs, recvDetached m e c seq seqLen firstIndex data = some (m', c.deliver e msgs) := by
  rw [MessageManager.serve, if_pos hepoch] at hserve
  obtain ⟨⟨b, m1⟩, hr, hserve⟩ := Option.bind_eq_some_iff.mp hserve
  obtain ⟨⟨out, m2⟩, htake, rfl⟩ := Option.map_eq_some_iff.mp hserve
  simp only at htake
  refine ⟨out, ?_⟩
  unfold recvDetached
  simp only [hr, Option.bind_eq_bind, Option.bind_some, htake]
  rfl

private theorem linkDetached_keeps (c : CommonState) {stay : MessageManager → States}
    (hsession : ∀ m, (stay m).phase.session = some e) (hmanager : ∀ m, (stay m).manager = some m)
    (leave : States × CommonState) (hreq : msg.isRequest = false)
    (hserve : m.serve e msg = some m') :
    Handled.Keeps (linkDetached m e c stay leave msg) c e m' := by
  have hstay : ∀ m c', c.SameSetup c' → Handled.Keeps (some (stay m, c')) c e m := fun m c' h =>
    ⟨_, _, rfl, hsession m, hmanager m, h⟩
  have hquiet : ∀ m, Handled.Keeps (some (stay m, c)) c e m := fun m => hstay m c ⟨rfl, rfl, rfl, rfl⟩
  cases msg with
  | reset epoch request =>
      cases hserve
      obtain rfl : request = false := hreq
      simp only [linkDetached, Bool.false_eq_true, false_and, if_false]
      exact hquiet m
  | ack epoch seq lastIndex =>
      cases hserve
      by_cases hepoch : epoch = e.toInt
      · simp only [linkDetached, if_pos hepoch]
        exact hquiet _
      · simp only [linkDetached, if_neg hepoch]
        exact hquiet m
  | msgSlice epoch seq seqLen firstIndex data =>
      by_cases hepoch : epoch = e.toInt
      · obtain ⟨msgs, hmsgs⟩ := recvDetached_eq c hepoch hserve
        simp only [linkDetached, if_pos hepoch, hmsgs]
        exact hstay _ _ ⟨rfl, rfl, rfl, rfl⟩
      · rw [MessageManager.serve, if_neg hepoch] at hserve
        cases hserve
        simp only [linkDetached, if_neg hepoch]
        exact hquiet m
  | ping =>
      cases hserve
      exact hquiet m
  | pong =>
      cases hserve
      exact hquiet m

private theorem linkDetached_request (c : CommonState) {stay : MessageManager → States}
    (hsession : ∀ m, (stay m).phase.session = some e) {leave : States × CommonState}
    (hleave : leave.1.phase.session = none) (hreq : msg.isRequest = true) :
    ∃ r, linkDetached m e c stay leave msg = some r ∧
      (r.1.phase.session = some e ↔ msg.mismatched e = true) := by
  cases msg with
  | reset epoch request =>
      obtain rfl : request = true := hreq
      by_cases hepoch : epoch = some e
      · simp only [linkDetached, hepoch, and_self, if_true]
        exact ⟨_, rfl, by simp [hleave, LinkProtocol.mismatched]⟩
      · simp only [linkDetached, hepoch, and_false, if_false]
        exact ⟨_, rfl, by simp [hsession, LinkProtocol.mismatched, hepoch]⟩
  | _ => cases hreq

end detached

namespace States

variable {st : States} {c : CommonState} {e : Epoch} {m m' : MessageManager} {msg : LinkProtocol}

private theorem linkMsg_keeps (hsession : st.phase.session = some e)
    (hmanager : st.manager = some m) (hlast : c.Lasting) (now id : Nat)
    (hcalm : msg.mismatched e = false) (hconn : msg.isRequest = true → st.isConnected = true)
    (hserve : m.serve e msg = some m') : Handled.Keeps (st.linkMsg c now id msg) c e m' := by
  have hreq : st.isConnected = false → msg.isRequest = false := by
    intro hst
    by_contra h
    rw [hconn (by simpa using h)] at hst
    cases hst
  cases st with
  | connected s =>
      cases hsession
      cases hmanager
      exact s.linkMsg_keeps now id hlast hcalm hserve
  | reconnecting s =>
      cases hsession
      cases hmanager
      simp only [linkMsg, Reconnecting.linkMsg]
      exact linkDetached_keeps c (fun _ => rfl) (fun _ => rfl) _ (hreq rfl) hserve
  | gracePeriod s =>
      cases hsession
      cases hmanager
      simp only [linkMsg, GracePeriod.linkMsg]
      exact linkDetached_keeps c (fun _ => rfl) (fun _ => rfl) _ (hreq rfl) hserve
  | _ => cases hsession

/-- A request is answered rightly exactly when there are links: then it ends the session if and
only if it is mismatched. -/
private theorem linkMsg_request (hsession : st.phase.session = some e)
    (hmanager : st.manager = some m) (hlast : c.Lasting) (now id : Nat)
    (hreq : msg.isRequest = true) :
    ∃ r, st.linkMsg c now id msg = some r ∧
      ((r.1.phase.session = some e ↔ msg.mismatched e = false) ↔ st.isConnected = true) := by
  have hdetached : ∀ (stay : MessageManager → States) (leave : States × CommonState),
      (∀ m, (stay m).phase.session = some e) → leave.1.phase.session = none →
      ∃ r, linkDetached m e c stay leave msg = some r ∧
        ((r.1.phase.session = some e ↔ msg.mismatched e = false) ↔ False) := by
    intro stay leave hstay hleave
    obtain ⟨r, hr, hiff⟩ := @linkDetached_request m e msg c stay hstay leave hleave hreq
    refine ⟨r, hr, ?_⟩
    rw [hiff]
    simp
  cases st with
  | connected s =>
      cases hsession
      cases hmis : msg.mismatched s.epoch with
      | true =>
          obtain ⟨st', c', hr, hnone⟩ := s.linkMsg_mismatched c now id hmis
          exact ⟨_, hr, by simp [hnone, isConnected]⟩
      | false =>
          have hserve : s.msgMgr.serve s.epoch msg = some s.msgMgr := by
            cases msg with
            | reset _ _ => rfl
            | _ => cases hreq
          obtain ⟨st', c', hr, hkept, _⟩ := s.linkMsg_keeps now id hlast hmis hserve
          exact ⟨_, hr, by simp [hkept, isConnected]⟩
  | reconnecting s =>
      cases hsession
      cases hmanager
      simp only [linkMsg, Reconnecting.linkMsg, isConnected, Bool.false_eq_true]
      exact hdetached _ _ (fun _ => rfl) rfl
  | gracePeriod s =>
      cases hsession
      cases hmanager
      simp only [linkMsg, GracePeriod.linkMsg, isConnected, Bool.false_eq_true]
      exact hdetached _ _ (fun _ => rfl) rfl
  | _ => cases hsession

end States

private theorem States.overAllocates_eq {st : States} {e : Epoch} {m : MessageManager}
    (hsession : st.phase.session = some e) (hmanager : st.manager = some m) (msg : LinkProtocol) :
    st.overAllocates msg = msg.overAllocates e m := by
  cases st with
  | connected s =>
      cases hsession
      cases hmanager
      rfl
  | reconnecting s =>
      cases hsession
      cases hmanager
      rfl
  | gracePeriod s =>
      cases hsession
      cases hmanager
      rfl
  | _ => cases hsession

private theorem LinkProtocol.overAllocates_of_isRequest {msg : LinkProtocol}
    (h : msg.isRequest = true) (e : Epoch) (m : MessageManager) :
    msg.overAllocates e m = false := by
  cases msg with
  | reset epoch request => rfl
  | _ => cases h

namespace Core

/-- A frame arrives while no command is given and no timer fires; the core may panic on it. -/
def roundOn (core : Core) (a : Arrival) : Option Core :=
  (core.round a.now (.frame a.id a.msg)).done?

/-- The session with epoch `e` and manager `m` ends only by a mismatched request: until the
first one arrives the core stays in the session and its manager serves every frame, and on that
one it leaves. -/
def EndsOnlyByMismatch (e : Epoch) : Core → MessageManager → List Arrival → Prop
  | _, _, [] => True
  | core, m, a :: arrivals =>
      if a.msg.mismatched e then
        ∃ core', core.roundOn a = some core' ∧ core'.state.phase.session ≠ some e
      else
        ∃ core' m', core.roundOn a = some core' ∧ core'.state.phase.session = some e ∧
          m.serve e a.msg = some m' ∧ core'.state.manager = some m' ∧
          EndsOnlyByMismatch e core' m' arrivals

/-- The arrivals up to the first mismatched request, this one included. -/
def upToMismatch (e : Epoch) : List Arrival → List Arrival
  | [] => []
  | a :: arrivals => if a.msg.mismatched e then [a] else a :: upToMismatch e arrivals

/-- The condition on an arrival: a request finds the core in `Connected`, and a slice of the
session is safe and asks for no more memory than a vector can have. -/
def Steady (core : Core) (a : Arrival) : Prop :=
  (a.msg.isRequest = true → core.state.isConnected = true) ∧
    ∀ e m, core.state.phase.session = some e → core.state.manager = some m →
      SafeFrame e m a.msg ∧ a.msg.overAllocates e m = false

/-- A session on which frames arrive: its timer is one that the clock can hold, and so are the
deadlines that its timeouts lead to. -/
structure InSession (e : Epoch) (m : MessageManager) (core : Core) : Prop where
  session : core.state.phase.session = some e
  manager : core.state.manager = some m
  receiving : ∃ n, Receiving m n
  lasting : core.common.Lasting
  timer : core.common.timer.Sane

/-- The frame comes from a reader, is one that a reader can decode, and comes at a time that the
timeouts can be added to. -/
structure Arrives (core : Core) (a : Arrival) : Prop where
  reader : a.id ∈ core.common.readers
  decoded : a.msg.Decoded
  addable : core.common.Addable a.now

section session

variable {core core' : Core} {e : Epoch} {m m' : MessageManager} {a : Arrival}

theorem roundOn_eq_some :
    core.roundOn a = some core' ↔ core.state.overAllocates a.msg = false ∧
      core.arrive a = some core' ∧ core'.common.timer.fits = true := by
  rw [roundOn]
  constructor
  · intro h
    cases hround : core.round a.now (.frame a.id a.msg) with
    | done core₁ =>
        rw [hround] at h
        cases h
        exact round_eq_done.mp hround
    | idle =>
        rw [hround] at h
        cases h
    | panicked record =>
        rw [hround] at h
        cases h
  · rintro ⟨halloc, hstep, hfits⟩
    have hround : core.round a.now (.frame a.id a.msg) = .done core' :=
      round_eq_done.mpr ⟨halloc, hstep, hfits⟩
    rw [hround]
    rfl

private theorem arrive_of_linkMsg {r : States × CommonState} (hid : a.id ∈ core.common.readers)
    (hr : core.state.linkMsg core.common a.now a.id a.msg = some r) :
    core.arrive a = some ⟨r.1, r.2⟩ := by
  rw [arrive_eq hid, hr, Option.map_some]

private theorem InSession.roundOn (h : core.InSession e m) (ha : core.Arrives a)
    (halloc : a.msg.overAllocates e m = false)
    (hstep : core.arrive a = some core') : core.roundOn a = some core' := by
  refine roundOn_eq_some.mpr ⟨?_, hstep, (sane_step h.timer ha.addable hstep).fits⟩
  rw [States.overAllocates_eq h.session h.manager]
  exact halloc

private theorem leaves_iff_steady (h : core.InSession e m) (ha : core.Arrives a)
    (hmis : a.msg.mismatched e = true) :
    (∃ core', core.roundOn a = some core' ∧ core'.state.phase.session ≠ some e) ↔
      Steady core a := by
  have hreq := LinkProtocol.isRequest_of_mismatched hmis
  have halloc := LinkProtocol.overAllocates_of_isRequest hreq
  obtain ⟨r, hr, hiff⟩ := States.linkMsg_request h.session h.manager h.lasting a.now a.id hreq
  rw [h.roundOn ha (halloc e m) (arrive_of_linkMsg ha.reader hr)]
  simp only [hmis, Bool.true_eq_false, iff_false] at hiff
  constructor
  · intro hleaves
    obtain ⟨core', hcore, hleft⟩ := hleaves
    cases hcore
    exact ⟨fun _ => hiff.mp hleft, fun e m _ _ => ⟨safeFrame_of_isRequest hreq e m, halloc e m⟩⟩
  · intro hsteady
    exact ⟨_, rfl, hiff.mpr (hsteady.1 hreq)⟩

private theorem stays_of_steady (h : core.InSession e m) (ha : core.Arrives a)
    (hcalm : a.msg.mismatched e = false) (hsteady : Steady core a) :
    ∃ core' m', core.roundOn a = some core' ∧ m.serve e a.msg = some m' ∧ core'.InSession e m' ∧
      core'.common.readers = core.common.readers ∧
      core'.common.durations = core.common.durations := by
  obtain ⟨n, hrec⟩ := h.receiving
  obtain ⟨hsafe, halloc⟩ := hsteady.2 e m h.session h.manager
  obtain ⟨m', hserve⟩ := (hrec.serve_isSome_iff ha.decoded).mpr hsafe
  obtain ⟨st, c, hr, hstays, hmgr, hsetup⟩ :=
    States.linkMsg_keeps h.session h.manager h.lasting a.now a.id hcalm hsteady.1 hserve
  have hstep := arrive_of_linkMsg ha.reader hr
  refine ⟨⟨st, c⟩, m', h.roundOn ha halloc hstep, hserve, ?_, hsetup.readers, ?_⟩
  · exact ⟨hstays, hmgr, hrec.serve ha.decoded hserve, hsetup.lasting h.lasting,
      sane_step h.timer ha.addable hstep⟩
  · simp only [CommonState.durations, hsetup.connectingTimeout, hsetup.reconnectingTimeout,
      hsetup.gracePeriodTimeout]

private theorem steady_of_stays (h : core.InSession e m) (ha : core.Arrives a)
    (hcalm : a.msg.mismatched e = false) (hcore : core.roundOn a = some core')
    (hstays : core'.state.phase.session = some e) (hserve : m.serve e a.msg = some m') :
    Steady core a := by
  obtain ⟨halloc, hstep, _⟩ := roundOn_eq_some.mp hcore
  constructor
  · intro hreq
    obtain ⟨r, hr, hiff⟩ := States.linkMsg_request h.session h.manager h.lasting a.now a.id hreq
    rw [arrive_of_linkMsg ha.reader hr] at hstep
    cases hstep
    apply hiff.mp
    simp only [hcalm, iff_true]
    exact hstays
  · intro e' m1 he' hm1
    obtain rfl := Option.some.inj (h.session.symm.trans he')
    obtain rfl := Option.some.inj (h.manager.symm.trans hm1)
    obtain ⟨n, hrec⟩ := h.receiving
    rw [States.overAllocates_eq h.session h.manager] at halloc
    exact ⟨(hrec.serve_isSome_iff ha.decoded).mp ⟨m', hserve⟩, halloc⟩

end session

/-- From every session that may last without links, and for every sequence of decoded frames at
times that the clock can add the timeouts to: the session ends only by a mismatched request exactly
when the frames up to that request are steady. -/
theorem endsOnlyByMismatch_iff_steady (e : Epoch) (arrivals : List Arrival) (core : Core)
    (m : MessageManager) (h : core.InSession e m) (harrives : ∀ a ∈ arrivals, core.Arrives a) :
    EndsOnlyByMismatch e core m arrivals ↔ AllSteps roundOn Steady core (upToMismatch e arrivals) := by
  induction arrivals generalizing core m with
  | nil => simp [EndsOnlyByMismatch, upToMismatch, AllSteps]
  | cons a arrivals ih =>
      have ha := harrives a (by simp)
      cases hmis : a.msg.mismatched e with
      | true =>
          simp only [EndsOnlyByMismatch, upToMismatch, hmis, if_true, AllSteps,
            leaves_iff_steady h ha hmis, implies_true, and_true]
      | false =>
          simp only [EndsOnlyByMismatch, upToMismatch, hmis, Bool.false_eq_true, if_false, AllSteps]
          by_cases hsteady : Steady core a
          · obtain ⟨core', m', hcore, hserve, h', hreaders, hdurations⟩ :=
              stays_of_steady h ha hmis hsteady
            have harrives' : ∀ b ∈ arrivals, core'.Arrives b := by
              intro b hb
              have hb' := harrives b (by simp [hb])
              refine ⟨by rw [hreaders]; exact hb'.reader, hb'.decoded, ?_⟩
              rw [CommonState.Addable, hdurations]
              exact hb'.addable
            have hrest := ih core' m' h' harrives'
            simp only [hcore, hserve, hsteady, true_and, Option.some.injEq, forall_eq']
            constructor
            · rintro ⟨_, _, rfl, _, rfl, _, hends⟩
              exact hrest.mp hends
            · intro hall
              exact ⟨core', m', rfl, h'.session, rfl, h'.manager, hrest.mpr hall⟩
          · simp only [hsteady, false_and, iff_false]
            rintro ⟨core', m', hcore, hstays, hserve, _⟩
            exact hsteady (steady_of_stays h ha hmis hcore hstays hserve)

/-- A session with one link, whose user allows it to last without links for a minute. -/
private def lastingSession : List (Nat × Event) :=
  [(0, .config (.reconnectTimeout (some (seconds 60)))), (0, .command (.addLink steadyLink)),
    (0, .frame 0 (.reset none true))]

private theorem decoded_request : LinkProtocol.Decoded (.reset none true) :=
  ⟨LinkProtocol.serialize (.reset none true), [], by decide⟩

theorem endsOnlyByMismatch_iff_steady_connected :
    ∃ core s, run step start lastingSession = some core ∧ core.state = .connected s ∧
      (EndsOnlyByMismatch s.epoch core s.msgMgr [⟨0, 0, .reset none true⟩] ↔
        AllSteps roundOn Steady core [⟨0, 0, .reset none true⟩]) := by
  refine ⟨_, _, rfl, rfl, ?_⟩
  apply endsOnlyByMismatch_iff_steady Epoch.one [⟨0, 0, .reset none true⟩]
  · refine ⟨rfl, rfl, ?_, Or.inl (by decide), ⟨by decide, ?_⟩⟩
    · refine @receiving_of_run lastingSession _ _ ?_ rfl rfl
      intro now id msg hmem
      simp only [lastingSession, List.mem_cons, Prod.mk.injEq, reduceCtorEq, and_false,
        Event.frame.injEq, List.not_mem_nil, or_false, false_or] at hmem
      rw [hmem.2.2]
      exact decoded_request
    · intro i hi
      cases hi
      exact le_refl _
  · intro a ha
    rw [List.mem_singleton] at ha
    subst ha
    exact ⟨by decide, decoded_request, by decide⟩

/-- After the only link is gone the session waits in `Reconnecting`; there a request for its own
epoch ends it and a request for another one does not. -/
theorem reconnecting_ends_on_matching_request :
    ∃ core s, run step start
        (lastingSession ++ [(0, .debug (.evictLink 0)), (seconds 10, .timer)]) = some core ∧
      core.state = .reconnecting s ∧ s.epoch = Epoch.one ∧
      (∃ core' s', core.roundOn ⟨seconds 10, 0, .reset (some Epoch.one) true⟩ = some core' ∧
        core'.state = .connecting s') ∧
      (∃ core' s', core.roundOn ⟨seconds 10, 0, .reset none true⟩ = some core' ∧
        core'.state = .reconnecting s' ∧ s'.epoch = Epoch.one) ∧
      ¬ EndsOnlyByMismatch Epoch.one core s.msgMgr
        [⟨seconds 10, 0, .reset (some Epoch.one) true⟩] := by
  refine ⟨_, _, rfl, rfl, rfl, ⟨_, _, rfl, rfl⟩, ⟨_, _, rfl, rfl, rfl⟩, ?_⟩
  intro h
  obtain ⟨core', _, hcore, hstays, _⟩ := h
  cases hcore
  cases hstays

end Core

end LinkSet
