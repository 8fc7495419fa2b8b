import LinkSet.Session.Decodable
import LinkSet.Session.InTurn
import LinkSet.Session.Resend
import LinkSet.Wire.Carriage

/-!
# Two endpoints over TCP

The frames of one endpoint go as chunks over the stream of a TCP connection, which is cut and decoded
at the other end by the tasks of the link there, and the core handles what they have decoded. A
connection may break at any time and be followed by another one. This system is a lane whose rows
are what the connections carry, so messages arrive exactly as long as the other endpoint reads one
connection at a time.
-/

namespace LinkSet

open Framework Relation

/-- A message with room for the header of a slice and the largest read in a chunk. -/
def Payload.Brief (data : Payload) : Prop := data.bytes.length ≤ 2 ^ 32 - 2048

def LinkProtocol.Short (f : LinkProtocol) : Prop := f.serialize.length ≤ 2 ^ 32 - 1024

def MessageManager.Brief (m : MessageManager) : Prop :=
  ∀ k sm, m.outgoingSlices.get k = some sm → sm.data.length ≤ 2 ^ 32 - 2048

private theorem LinkProtocol.short_of_data {f : LinkProtocol}
    (h : ∀ epoch seq seqLen firstIndex data, f = .msgSlice epoch seq seqLen firstIndex data →
      data.length ≤ 2 ^ 32 - 2048) : f.Short := by
  have hlen := f.serialize_length_le
  have hover : LinkEntry.overhead = 56 := rfl
  unfold Short
  cases f with
  | msgSlice epoch seq seqLen firstIndex data =>
      have hdata := h _ _ _ _ _ rfl
      simp only at hlen
      omega
  | _ =>
      simp only at hlen
      omega

private theorem guards_brief :
    Guards (fun _ => True) LinkProtocol.Short Payload.Brief MessageManager.Brief where
  control := by
    intro id f hf
    apply LinkProtocol.short_of_data
    rintro _ _ _ _ _ rfl
    cases hf
  new := by
    intro e k sm hget
    simp [MessageManager.new] at hget
  insertMsg := by
    intro m m' seq data hdata hi h
    exact MessageManager.insertMsg_outgoing h hi hdata
  recvAck := by
    intro m ack h
    apply MessageManager.recvAck_outgoing h
    intro sm epoch seq lastIndex hsm
    rw [SliceManager.ack_data]
    exact hsm
  slices := by
    intro m k sm size protos h hget hslices f hf
    obtain ⟨first, piece, rfl, hpiece, _⟩ := SliceManager.getSlices_pieces hslices f hf
    apply LinkProtocol.short_of_data
    rintro _ _ _ _ _ ⟨⟩
    have hle := IsPiece.length_le hpiece
    have hbrief := h k sm hget
    omega
  recv := by
    intro m m1 m2 seq seqLen firstIndex data b out e h _ hrecv htake
    refine ⟨LinkProtocol.short_of_data (fun _ _ _ _ _ heq => by cases heq), ?_⟩
    have hsame := ((MessageManager.SameOutgoing.refl m).recv hrecv).takeRecvd htake
    unfold MessageManager.Brief
    rw [hsame.outgoing]
    exact h

/-- A core whose frames can be read back, and fit into chunks if its messages are brief. -/
structure Core.Wired (core : Core) : Prop where
  orderly : core.Orderly
  readable : core.books.Guarded LinkProtocol.Readable MessageManager.Encodable
  short : (∀ x ∈ core.common.submitted, x.1.Brief) →
    core.books.Guarded LinkProtocol.Short MessageManager.Brief

namespace Core.Wired

variable {core core' : Core} {now : Nat} {ev : Event}

private theorem start :
    Core.start.Wired := ⟨orderly_start, guarded_start _ _, fun _ => guarded_start _ _⟩

private theorem step (h : core.Wired) (hev : ∀ id f, ev = .frame id f → f.Readable)
    (hstep : core.step (now, ev) = some core') : core'.Wired := by
  obtain ⟨hsub, hchain⟩ := h.orderly.dealt hstep
  refine ⟨h.orderly.step hstep,
    h.readable.chain guards_encodable hev (fun _ _ => trivial) hchain, ?_⟩
  intro hbrief
  rw [hsub] at hbrief
  obtain ⟨more, hmore⟩ := core.submittedBy_append ev
  have hbefore : ∀ x ∈ core.common.submitted, x.1.Brief := by
    intro x hx
    apply hbrief
    rw [hmore]
    exact List.mem_append_left _ hx
  exact (h.short hbefore).chain guards_brief (fun _ _ _ => trivial) hbrief hchain

private theorem carried (h : core.Wired) (hbrief : ∀ x ∈ core.common.submitted, x.1.Brief) :
    ∀ f ∈ sentFrames core.common.record, TcpLink.Carried f := by
  intro f hf
  obtain ⟨hfits, hdata⟩ := h.readable.sent f hf
  exact ⟨hfits, hdata, (h.short hbrief).sent f hf⟩

private theorem brief_step (h : core.Wired) (hbrief : ∀ x ∈ core.common.submitted, x.1.Brief)
    (hev : ∀ data ep, ev = .command (.message data ep) → data.Brief)
    (hstep : core.step (now, ev) = some core') : ∀ x ∈ core'.common.submitted, x.1.Brief := by
  rw [(h.orderly.dealt hstep).1]
  cases ev with
  | command cmd =>
      cases cmd with
      | message data ep =>
          intro x hx
          rcases List.mem_append.mp hx with hold | hnew
          · exact hbrief x hold
          · obtain rfl := List.mem_singleton.mp hnew
            exact hev data ep rfl
      | _ => exact hbrief
  | _ => exact hbrief

end Core.Wired

private theorem Pair.wired_step {p p' : Pair} {a : Pair.Action} (h : ∀ side, (p.core side).Wired)
    (hstep : p.step a = some p') : ∀ side, (p'.core side).Wired := by
  have hsent : ∀ core : Core, core.Wired → ∀ f ∈ sentFrames core.common.record, f.Readable :=
    fun core h => h.readable.sent
  exact Pair.each_step hsent (fun _ _ _ _ h hev hstep => h.step hev hstep) p a p' h hstep

/-- The frames among `sent` that go over a link. -/
def handedTo (link : Nat) (sent : List Sent) : List LinkProtocol :=
  sent.filterMap fun x => if x.1 = link then some x.2 else none

section handed

variable {link k n m : Nat} {sent more : List Sent} {f : LinkProtocol}

theorem handedTo_append (link : Nat) (sent more : List Sent) :
    handedTo link (sent ++ more) = handedTo link sent ++ handedTo link more := List.filterMap_append

/-- Frame `n` is the one with number `k` of those that go over the link. -/
structure Nth (link : Nat) (sent : List Sent) (k n : Nat) : Prop where
  linked : sent[n]?.map Prod.fst = some link
  before : (handedTo link (sent.take n)).length = k

private theorem Nth.append (h : Nth link sent k n) (more : List Sent) :
    Nth link (sent ++ more) k n := by
  have hlt : n < sent.length := by
    by_contra hge
    have hlink := h.linked
    rw [List.getElem?_eq_none (Nat.not_lt.mp hge)] at hlink
    cases hlink
  constructor
  · rw [List.getElem?_append_left hlt]
    exact h.linked
  · rw [List.take_append_of_le_length (Nat.le_of_lt hlt)]
    exact h.before

private theorem nth_of_handedTo (h : (handedTo link sent)[k]? = some f) :
    ∃ n, sent[n]? = some (link, f) ∧ Nth link sent k n := by
  induction sent generalizing k with
  | nil => cases h
  | cons x sent ih =>
      by_cases hx : x.1 = link
      · have hhead : ∀ l, handedTo link (x :: l) = x.2 :: handedTo link l := fun l => by
          simp [handedTo, hx]
        rw [hhead] at h
        cases k with
        | zero =>
            obtain rfl := Option.some.inj h
            subst hx
            exact ⟨0, rfl, rfl, rfl⟩
        | succ k =>
            obtain ⟨n, hn, hlink, hbefore⟩ := ih h
            refine ⟨n + 1, hn, hlink, ?_⟩
            rw [List.take_succ_cons, hhead, List.length_cons, hbefore]
      · have hhead : ∀ l, handedTo link (x :: l) = handedTo link l := fun l => by
          simp [handedTo, hx]
        rw [hhead] at h
        obtain ⟨n, hn, hlink, hbefore⟩ := ih h
        refine ⟨n + 1, hn, hlink, ?_⟩
        rw [List.take_succ_cons, hhead, hbefore]

private theorem Nth.length_succ (h : Nth link sent k n) :
    (handedTo link (sent.take (n + 1))).length = k + 1 := by
  obtain ⟨x, hx, hlink⟩ := Option.map_eq_some_iff.mp h.linked
  rw [List.take_add_one, hx, handedTo_append, List.length_append, h.before]
  simp [handedTo, hlink]

private theorem handedTo_take_le (link : Nat) (sent : List Sent) (h : n ≤ m) :
    (handedTo link (sent.take n)).length ≤ (handedTo link (sent.take m)).length :=
  ((List.take_prefix_take_left h).filterMap _).length_le

private theorem Nth.unique (h : Nth link sent k n) (h' : Nth link sent k m) : n = m := by
  rcases Nat.lt_trichotomy n m with hlt | heq | hlt
  · have hle := handedTo_take_le link sent (Nat.succ_le_of_lt hlt)
    rw [h.length_succ, h'.before] at hle
    omega
  · exact heq
  · have hle := handedTo_take_le link sent (Nat.succ_le_of_lt hlt)
    rw [h'.length_succ, h.before] at hle
    omega

private theorem Nth.begins_or_next (h : Nth link sent k n) :
    Lane.Begins sent n ∨ ∃ m k', n = m + 1 ∧ k = k' + 1 ∧ Nth link sent k' m := by
  cases n with
  | zero => exact Or.inl (Or.inl rfl)
  | succ m =>
      by_cases hlink : sent[m]?.map Prod.fst = some link
      · have hnth : Nth link sent _ m := ⟨hlink, rfl⟩
        exact Or.inr ⟨m, _, rfl, h.before.symm.trans hnth.length_succ, hnth⟩
      · refine Or.inl (Or.inr ?_)
        rw [Nat.add_sub_cancel, h.linked]
        exact hlink

end handed

/-- A connection that carries what one core gives to a link, and how many frames the other core has
handled. -/
structure Connection where
  link : Nat
  reader : Nat
  way : TcpLink.Carriage
  handled : Nat

/-- The reader of a new connection is taken at once. -/
def Connection.opened (link reader : Nat) : Connection :=
  ⟨link, reader, { TcpLink.Carriage.start with reader := some 0 }, 0⟩

/-- Two endpoints, and the connection that the receiving one reads. -/
structure Line where
  pair : Pair
  conn : Option Connection

namespace Line

inductive Action where
  /-- A command, a configuration change, the timer, a debug command or a connection task. -/
  | locally (side : Side) (now : Nat) (ev : Event)
  /-- A frame arrives at the sending endpoint. -/
  | deliver (now reader n : Nat)
  | connect (link reader : Nat)
  /-- The next frame given to the link is written. -/
  | write
  /-- Writing it fails after `count` bytes. -/
  | writeFails (count : Nat)
  | carry (action : TcpLink.Carriage.Action)
  /-- The receiving core handles the next frame that has been decoded. -/
  | receive (now : Nat)

def start : Line := ⟨Pair.start, none⟩

/-- The next frame given to the link is sent, as a whole or in part. -/
def give (side : Side) (l : Line) (send : LinkProtocol → TcpLink.Carriage.Action) : Option Line := do
  let conn ← l.conn
  let frame ← (handedTo conn.link (l.pair.core side).common.carried)[conn.way.sent.length]?
  let way ← conn.way.step (send frame)
  return { l with conn := some { conn with way } }

/-- Frames go from `side` over TCP, and in the other direction in any order, any number of times or
never. What is given to a link of which the connection is not read is lost. -/
def step (side : Side) (l : Line) : Action → Option Line
  | .locally s now ev => (l.pair.step (.locally s now ev)).map fun pair => { l with pair }
  | .deliver now reader n => (l.pair.step (.deliver side now reader n)).map fun pair => { l with pair }
  | .connect link reader => some { l with conn := some (.opened link reader) }
  | .write => l.give side fun frame => .send frame
  | .writeFails count => l.give side fun frame => .sendFails frame count
  | .carry action =>
      if action.msg.isSome then none
      else do
        let conn ← l.conn
        let way ← conn.way.step action
        return { l with conn := some { conn with way } }
  | .receive now => do
      let conn ← l.conn
      let frame ← conn.way.frames[conn.handled]?
      let pair ← l.pair.stepSide side.other (now, .frame conn.reader frame)
      return ⟨pair, some { conn with handled := conn.handled + 1 }⟩

/-- The message that is submitted on `side`. -/
def Action.submitted (side : Side) : Action → Option Payload
  | .locally s _ (.command (.message data _)) => if s = side then some data else none
  | _ => none

def Action.Brief (side : Side) (a : Action) : Prop := ∀ data ∈ a.submitted side, data.Brief

instance (side : Side) (a : Action) : Decidable (a.Brief side) :=
  inferInstanceAs (Decidable (∀ data ∈ a.submitted side, data.bytes.length ≤ 2 ^ 32 - 2048))

end Line

namespace Connection

/-- The connection carries the frames given to its link, in order and from the first one on. -/
structure Sound (conn : Connection) (sent : List Sent) : Prop where
  written : conn.way.sent <+: handedTo conn.link sent
  reader : conn.way.reader = some 0
  inv : (∀ msg ∈ conn.way.sent, TcpLink.Carried msg) → ∃ tail, conn.way.Inv tail

/-- The frame after which the next one is `next` is the last one handled. -/
def At (conn : Connection) (sent : List Sent) (next : Nat) : Prop :=
  ∀ k, conn.handled = k + 1 → ∃ n, next = n + 1 ∧ Nth conn.link sent k n

variable {conn : Connection} {sent : List Sent}

private theorem sound_opened (link reader : Nat) (sent : List Sent) :
    (opened link reader).Sound sent where
  written := List.nil_prefix
  reader := rfl
  inv := by
    apply TcpLink.Carriage.inv_step TcpLink.Carriage.start .takeReader
    · exact fun _ => ⟨[], TcpLink.Carriage.inv_start⟩
    · rfl

namespace Sound

private theorem grows (h : conn.Sound sent) {sent' : List Sent} (hsent : sent <+: sent') :
    conn.Sound sent' :=
  { h with written := h.written.trans (hsent.filterMap _) }

private theorem step (h : conn.Sound sent) {a : TcpLink.Carriage.Action} {way : TcpLink.Carriage}
    (hnext : ∀ msg, a.msg = some msg →
      (handedTo conn.link sent)[conn.way.sent.length]? = some msg)
    (hstep : conn.way.step a = some way) : Sound { conn with way } sent where
  written := by
    obtain ⟨rest, hrest⟩ := h.written
    simp only [(TcpLink.Carriage.step_keeps hstep).1]
    cases hmsg : a.msg with
    | none => exact ⟨rest, by rw [← hrest, Option.toList_none, List.append_nil]⟩
    | some msg =>
        have hget := hnext msg hmsg
        rw [← hrest, List.getElem?_append_right (Nat.le_refl _), Nat.sub_self] at hget
        cases rest with
        | nil => cases hget
        | cons x rest =>
            obtain rfl := Option.some.inj hget
            exact ⟨rest, by rw [← hrest, List.append_assoc]; rfl⟩
  reader := TcpLink.Carriage.reader_kept h.reader hstep
  inv := TcpLink.Carriage.inv_step conn.way a way h.inv hstep

private theorem frames_prefix (h : conn.Sound sent) (hcarried : ∀ x ∈ sent, TcpLink.Carried x.2) :
    conn.way.frames <+: handedTo conn.link sent := by
  have hsent : ∀ msg ∈ conn.way.sent, TcpLink.Carried msg := by
    intro msg hmsg
    obtain ⟨x, hx, heq⟩ := List.mem_filterMap.mp (h.written.subset hmsg)
    obtain ⟨_, heq⟩ := Option.ite_none_right_eq_some.mp heq
    cases heq
    exact hcarried x hx
  obtain ⟨tail, hinv⟩ := h.inv hsent
  have hframes := hinv.frames
  rw [h.reader, Option.getD_some, List.drop_zero] at hframes
  exact hframes.trans h.written

end Sound

private theorem At.grows {next : Nat} (h : conn.At sent next) {sent' : List Sent}
    (hsent : sent <+: sent') : conn.At sent' next := by
  intro k hk
  obtain ⟨n, hnext, hnth⟩ := h k hk
  obtain ⟨more, rfl⟩ := hsent
  exact ⟨n, hnext, hnth.append more⟩

private theorem At.next {next n : Nat} (h : conn.At sent next)
    (hnth : Nth conn.link sent conn.handled n) : n = next ∨ Lane.Begins sent n := by
  rcases hnth.begins_or_next with hbegins | ⟨m, k, rfl, hk, hprev⟩
  · exact Or.inr hbegins
  · obtain ⟨n, rfl, hlast⟩ := h k hk
    rw [hprev.unique hlast]
    exact Or.inl rfl

end Connection

/-- A lane with the same endpoints, which has come as far as the connection. -/
structure Line.Tracks (side : Side) (l : Line) (lane : Lane) : Prop where
  pair : lane.pair = l.pair
  wired : ∀ s, (l.pair.core s).Wired
  brief : ∀ x ∈ (l.pair.core side).common.submitted, x.1.Brief
  conn : ∀ conn, l.conn = some conn → conn.Sound (l.pair.core side).common.carried ∧
    conn.At (l.pair.core side).common.carried lane.next

namespace Line.Tracks

variable {side : Side} {l : Line} {lane : Lane} {pair : Pair}

private theorem start (side : Side) : Tracks side Line.start Lane.start where
  pair := rfl
  wired := by
    intro s
    cases s <;> exact Core.Wired.start
  brief := by
    intro x hx
    cases side <;> cases hx
  conn := by
    intro conn hconn
    cases hconn

private theorem carried (h : Tracks side l lane) :
    ∀ x ∈ (l.pair.core side).common.carried, TcpLink.Carried x.2 := by
  intro x hx
  apply (h.wired side).carried h.brief
  rw [sentFrames_eq_handed]
  exact List.mem_map_of_mem hx

private theorem grows (h : Tracks side l lane) {a : Pair.Action} (hstep : l.pair.step a = some pair)
    (hbrief : ∀ now data ep, a = .locally side now (.command (.message data ep)) → data.Brief) :
    (l.pair.core side).common.carried <+: (pair.core side).common.carried ∧
      ∀ x ∈ (pair.core side).common.submitted, x.1.Brief := by
  have hside : ∀ s now ev, l.pair.stepSide s (now, ev) = some pair →
      (s = side → ∀ data ep, ev = .command (.message data ep) → data.Brief) →
      (l.pair.core side).common.carried <+: (pair.core side).common.carried ∧
        ∀ x ∈ (pair.core side).common.submitted, x.1.Brief := by
    intro s now ev hside hev
    obtain ⟨hcore, hpeer⟩ := Pair.stepSide_eq_some hside
    by_cases hs : s = side
    · subst hs
      exact ⟨Core.carried_grows hcore, (h.wired s).brief_step h.brief (hev rfl) hcore⟩
    · have hsame : pair.core side = l.pair.core side := by
        rw [(Pair.peer_of_ne hs pair).2, hpeer, (Pair.peer_of_ne hs l.pair).2]
      rw [hsame]
      exact ⟨List.prefix_rfl, h.brief⟩
  rcases Pair.step_cases hstep with ⟨s, now, ev, rfl, _, hs⟩ | ⟨s, now, id, n, f, rfl, _, hs⟩
  · apply hside s now ev hs
    rintro rfl data ep rfl
    exact hbrief now data ep rfl
  · exact hside s now _ hs fun _ _ _ heq => by cases heq

private theorem endpoint (h : Tracks side l lane) {a : Pair.Action}
    (hstep : l.pair.step a = some pair)
    (hbrief : ∀ now data ep, a = .locally side now (.command (.message data ep)) → data.Brief)
    (hlane : ∀ p, lane.pair.step a = some p → lane.step side a = some { lane with pair := p }) :
    ∃ lane', Reaches (Lane.step side) (fun _ _ => True) lane lane' ∧
      Tracks side { l with pair } lane' := by
  obtain ⟨hgrows, hbrief'⟩ := h.grows hstep hbrief
  have hreach := hlane pair (h.pair ▸ hstep)
  refine ⟨_, .one trivial hreach, rfl, Pair.wired_step h.wired hstep, hbrief', ?_⟩
  intro conn hconn
  obtain ⟨hsound, hat⟩ := h.conn conn hconn
  exact ⟨hsound.grows hgrows, hat.grows hgrows⟩

private theorem stream (h : Tracks side l lane) {conn : Connection} (hconn : l.conn = some conn)
    {a : TcpLink.Carriage.Action} {way : TcpLink.Carriage}
    (hnext : ∀ msg, a.msg = some msg →
      (handedTo conn.link (l.pair.core side).common.carried)[conn.way.sent.length]? = some msg)
    (hway : conn.way.step a = some way) :
    Tracks side { l with conn := some { conn with way } } lane where
  pair := h.pair
  wired := h.wired
  brief := h.brief
  conn := by
    rintro _ ⟨⟩
    obtain ⟨hsound, hat⟩ := h.conn conn hconn
    exact ⟨hsound.step hnext hway, hat⟩

private theorem give (h : Tracks side l lane) {l' : Line}
    {send : LinkProtocol → TcpLink.Carriage.Action} (hsend : ∀ frame, (send frame).msg = some frame)
    (hgive : l.give side send = some l') : Tracks side l' lane := by
  obtain ⟨conn, hconn, hgive⟩ := Option.bind_eq_some_iff.mp hgive
  obtain ⟨frame, hframe, hgive⟩ := Option.bind_eq_some_iff.mp hgive
  obtain ⟨way, hway, hgive⟩ := Option.bind_eq_some_iff.mp hgive
  cases hgive
  refine h.stream hconn ?_ hway
  intro msg hmsg
  rw [hsend] at hmsg
  cases hmsg
  exact hframe

private theorem receive (h : Tracks side l lane) {conn : Connection} (hconn : l.conn = some conn)
    {now : Nat} {f : LinkProtocol} (hframe : conn.way.frames[conn.handled]? = some f)
    (hside : l.pair.stepSide side.other (now, .frame conn.reader f) = some pair) :
    ∃ lane', Reaches (Lane.step side) (fun _ _ => True) lane lane' ∧
      Tracks side ⟨pair, some { conn with handled := conn.handled + 1 }⟩ lane' := by
  obtain ⟨hsound, hat⟩ := h.conn conn hconn
  obtain ⟨rest, hrest⟩ := hsound.frames_prefix h.carried
  have hlt := (List.getElem?_eq_some_iff.mp hframe).1
  have hhanded : (handedTo conn.link (l.pair.core side).common.carried)[conn.handled]? = some f := by
    rw [← hrest, List.getElem?_append_left hlt, hframe]
  obtain ⟨n, hn, hnth⟩ := nth_of_handedTo hhanded
  have hne : side.other ≠ side := by cases side <;> exact fun heq => by cases heq
  have hstep : l.pair.step (.deliver side.other now conn.reader n) = some pair := by
    have hget : (sentFrames (l.pair.core side).common.record)[n]? = some f := by
      rw [sentFrames_eq_handed, List.getElem?_map]
      exact congrArg (Option.map Prod.snd) hn
    rw [Pair.step, Pair.peer_other, hget]
    exact hside
  have hlane : lane.step side (.deliver side.other now conn.reader n) = some ⟨pair, n + 1⟩ := by
    rw [Lane.step, if_neg hne, h.pair, if_pos (hat.next hnth), hstep]
    rfl
  obtain ⟨hgrows, hbrief⟩ := h.grows hstep fun _ _ _ heq => by cases heq
  refine ⟨⟨pair, n + 1⟩, .one trivial hlane, rfl, Pair.wired_step h.wired hstep, hbrief, ?_⟩
  rintro _ ⟨⟩
  refine ⟨⟨(hsound.grows hgrows).written, hsound.reader, hsound.inv⟩, ?_⟩
  rintro k ⟨⟩
  obtain ⟨more, hmore⟩ := hgrows
  rw [← hmore]
  exact ⟨n, rfl, hnth.append more⟩

end Line.Tracks

namespace Line

variable {side : Side} {l l' : Line}

/-- Every step is matched by at most one step of the lane. -/
private theorem tracks_step {lane : Lane} (h : Tracks side l lane) {a : Action}
    (hbrief : a.Brief side) (hstep : l.step side a = some l') :
    ∃ lane', Reaches (Lane.step side) (fun _ _ => True) lane lane' ∧ Tracks side l' lane' := by
  cases a with
  | locally s now ev =>
      obtain ⟨pair, hpair, rfl⟩ := Option.map_eq_some_iff.mp hstep
      refine h.endpoint hpair ?_ ?_
      · rintro _ data ep ⟨⟩
        exact hbrief data (if_pos rfl)
      · intro p hp
        rw [Lane.step, hp]
        rfl
  | deliver now reader n =>
      obtain ⟨pair, hpair, rfl⟩ := Option.map_eq_some_iff.mp hstep
      refine h.endpoint hpair (fun _ _ _ heq => by cases heq) ?_
      intro p hp
      rw [Lane.step, if_pos rfl, hp]
      rfl
  | connect link reader =>
      cases hstep
      refine ⟨lane, .refl lane, h.pair, h.wired, h.brief, ?_⟩
      rintro _ ⟨⟩
      exact ⟨Connection.sound_opened link reader _, fun k hk => by cases hk⟩
  | write => exact ⟨lane, .refl lane, h.give (fun _ => rfl) hstep⟩
  | writeFails count => exact ⟨lane, .refl lane, h.give (fun _ => rfl) hstep⟩
  | carry action =>
      obtain ⟨hnone, hstep⟩ := Option.ite_none_left_eq_some.mp hstep
      obtain ⟨conn, hconn, hstep⟩ := Option.bind_eq_some_iff.mp hstep
      obtain ⟨way, hway, hstep⟩ := Option.bind_eq_some_iff.mp hstep
      cases hstep
      refine ⟨lane, .refl lane, h.stream hconn ?_ hway⟩
      intro msg hmsg
      exact absurd (Option.isSome_of_eq_some hmsg) hnone
  | receive now =>
      obtain ⟨conn, hconn, hstep⟩ := Option.bind_eq_some_iff.mp hstep
      obtain ⟨frame, hframe, hstep⟩ := Option.bind_eq_some_iff.mp hstep
      obtain ⟨pair, hside, hstep⟩ := Option.bind_eq_some_iff.mp hstep
      cases hstep
      exact h.receive hconn hframe hside

/-- Over TCP, however the bytes are cut on the way, whenever connections break and whatever sessions
there are, the messages reported are exactly the first ones inserted by the peer, as long as no
message is larger than a chunk can be and one connection is read at a time. -/
theorem reported_over_tcp (side : Side) (actions : List Action) (l : Line)
    (hbrief : ∀ a ∈ actions, a.Brief side) (hrun : run (step side) start actions = some l)
    (e : Epoch) (hne : e ≠ Epoch.last) : l.pair.got side e <+: l.pair.given side e := by
  have hall : AllSteps (step side) (fun _ a => a.Brief side) start actions :=
    .of_forall_mem hbrief start
  obtain ⟨lane, ⟨as, _, hlane⟩, htracks⟩ :=
    run_simulated (fun _ _ _ _ h hbrief hstep => tracks_step h hbrief hstep) (Tracks.start side) hall
      hrun
  obtain ⟨st, hreach, hturn⟩ := Turn.of_run hne hlane
  rw [← htracks.pair]
  exact hturn.got_prefix hreach

/-- The slice of a message breaks off on its way, and is resent over another connection. -/
private def sliceBreaksOff : List Action :=
  [.locally .left 0 (.command (.addLink openLink)), .locally .right 0 (.command (.addLink openLink)),
    .connect 0 0, .write, .write, .carry (.socket .call), .carry (.socket (.read 7)),
    .carry .decode, .carry (.socket .call), .carry (.socket (.read 12)), .carry .decode, .receive 0,
    .receive 0, .deliver 0 0 1, .locally .left 0 (.command (.message ⟨[8, 6], by decide⟩ none)),
    .write, .writeFails 30, .locally .left 0 (.debug (.evictLink 0)),
    .locally .left 0 (.command (.addLink openLink)), .locally .right 0 (.command (.addLink openLink)),
    .connect 1 1, .locally .left 5000000000 .timer, .write, .carry (.socket .call),
    .carry (.socket (.read 47)), .carry .decode, .receive 5000000000]

theorem reported_over_tcp_break :
    ∃ l, run (step .left) start sliceBreaksOff = some l ∧
      l.pair.got .left Epoch.one = [[8, 6]] ∧
      l.pair.got .left Epoch.one <+: l.pair.given .left Epoch.one :=
  ⟨_, rfl, rfl, reported_over_tcp .left sliceBreaksOff _ (by decide) rfl Epoch.one
    (by decide)⟩

end Line

end LinkSet
