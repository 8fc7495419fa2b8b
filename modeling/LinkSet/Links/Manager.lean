import LinkSet.Slices.Slicing

/-!
# Links

A link is a carrier supplied from outside: whether it is closed and whether a send succeeds is
answered anew at every call. The `LinkManager` of a connected endpoint keeps the links newest
first, sends over the first usable one and measures their latency with pings. Times and
durations are in nanoseconds.
-/

namespace LinkSet

open Framework

def seconds (n : Nat) : Nat := n * 10 ^ 9

/-- A `Box<dyn PinnedLink>`: its answers to the successive calls of `is_closed` and `send`. -/
structure Link where
  scheme : String
  maxSize : Nat
  maxSize_lt : maxSize < 2 ^ 32
  takeReader : Bool
  isClosed : Nat → Bool
  send : Nat → Bool

/-- A frame handed to the link with the given id. -/
abbrev Sent := Nat × LinkProtocol

inductive SendResult where
  | ok
  | closed
  | linkError
deriving DecidableEq

structure LinkEntry where
  id : Nat
  link : Link
  /-- When the last unanswered ping was sent. -/
  ping : Option Nat
  recent : List Nat
  /-- How often `is_closed` and `send` were called. -/
  closedCalls : Nat
  sendCalls : Nat

def historyLen : Nat := 6

def defaultLatency : Nat := 10 ^ 8

def maxLatency : Nat := seconds 2

namespace LinkEntry

def overhead : Nat := 56

def new (link : Link) (id : Nat) : LinkEntry :=
  ⟨id, link, none, List.replicate historyLen defaultLatency, 0, 0⟩

def send (e : LinkEntry) : LinkEntry × SendResult :=
  ({ e with sendCalls := e.sendCalls + 1 },
    if e.link.send e.sendCalls then .ok else .linkError)

def addLatency (e : LinkEntry) (latency : Nat) : LinkEntry :=
  { e with recent := (latency :: e.recent).take historyLen }

def endPing (e : LinkEntry) (now : Nat) : LinkEntry :=
  match e.ping with
  | none => e
  | some sent => { e with ping := none }.addLatency (now - sent)

def sendPing (e : LinkEntry) (now : Nat) : LinkEntry :=
  ({ e.endPing now with ping := some now }.send).1

def latency (e : LinkEntry) : Nat :=
  if e.recent = [] then defaultLatency else e.recent.sum / e.recent.length

/-- The saturating subtraction leaves 0 for a link too small to carry a slice. -/
def maxSize (e : LinkEntry) : Nat := e.link.maxSize - overhead

/-- The answer of the next `is_closed` call. -/
def closed (e : LinkEntry) : Bool := e.link.isClosed e.closedCalls

def askClosed (e : LinkEntry) : LinkEntry := { e with closedCalls := e.closedCalls + 1 }

/-- The check at the front of the list. -/
def unusable (e : LinkEntry) : Bool := e.closed || decide (maxLatency < e.latency)

end LinkEntry

structure LinkManager where
  links : List LinkEntry

/-- What a send leaves: the links, the frames handed to one of them and the result. -/
structure Outcome where
  links : LinkManager
  frames : List Sent
  result : SendResult

namespace LinkManager

def new : LinkManager := ⟨[]⟩

def withLink (link : LinkEntry) : LinkManager := ⟨[link]⟩

def addLink (m : LinkManager) (link : LinkEntry) : LinkManager := ⟨link :: m.links⟩

def evictLink (m : LinkManager) (id : Nat) : LinkManager := ⟨m.links.filter fun e => e.id ≠ id⟩

def isEmpty (m : LinkManager) : Bool := m.links.isEmpty

/-- The front of the list after the unusable links there have been removed. -/
def dropUnusable : List LinkEntry → List LinkEntry
  | [] => []
  | link :: rest =>
      if link.unusable then dropUnusable rest else link.askClosed :: rest

def sendProto (m : LinkManager) (proto : LinkProtocol) : Outcome :=
  match dropUnusable m.links with
  | [] => ⟨⟨[]⟩, [], .closed⟩
  | link :: rest =>
      let (link, result) := link.send
      ⟨⟨link :: rest⟩, [(link.id, proto)], result⟩

def reset (m : LinkManager) (epoch : Option Epoch) (request : Bool) : Outcome :=
  m.sendProto (.reset epoch request)

def ack (m : LinkManager) (epoch : Epoch) (ack : Nat × Nat) : Outcome :=
  m.sendProto (.ack epoch.toInt ack.1 ack.2)

/-- The inner loop of `send_slices`; the first error ends it. -/
def sendAll : LinkEntry → List LinkProtocol → LinkEntry × List Sent × SendResult
  | link, [] => (link, [], .ok)
  | link, proto :: protos =>
      match link.send with
      | (link, .ok) =>
          let (link, frames, result) := sendAll link protos
          (link, (link.id, proto) :: frames, result)
      | (link, result) => (link, [(link.id, proto)], result)

def sendSlices (m : LinkManager) (sliceMgr : SliceManager) : Option Outcome :=
  match dropUnusable m.links with
  | [] => some ⟨⟨[]⟩, [], .closed⟩
  | link :: rest => do
      let protos ← sliceMgr.getSlices link.maxSize
      let (link, frames, result) := sendAll link protos
      return ⟨⟨link :: rest⟩, frames, result⟩

/-- All links are pinged at one time: the sends do not wait. -/
def pingAll (m : LinkManager) (now : Nat) : LinkManager × List Sent :=
  (⟨m.links.map fun e => e.sendPing now⟩, m.links.map fun e => (e.id, .ping))

/-- Update the first link with the given id. -/
def modifyFirst (id : Nat) (f : LinkEntry → LinkEntry) : List LinkEntry → List LinkEntry
  | [] => []
  | link :: rest => if link.id = id then f link :: rest else link :: modifyFirst id f rest

def pong (m : LinkManager) (id : Nat) : LinkManager × List Sent :=
  (⟨modifyFirst id (fun e => e.send.1) m.links⟩,
    if m.links.any fun e => e.id = id then [(id, .pong)] else [])

def endPing (m : LinkManager) (id now : Nat) : LinkManager :=
  ⟨modifyFirst id (fun e => e.endPing now) m.links⟩

/-- Unlike the check at the front, upkeep also removes a link whose latency is the maximum. -/
def upkeep (m : LinkManager) : LinkManager :=
  ⟨(m.links.filter fun e => !e.closed && decide (e.latency < maxLatency)).map LinkEntry.askClosed⟩

/-! Every send hands frames to links of the manager only, and one frame at a time. -/

theorem sendProto_frames (m : LinkManager) (proto : LinkProtocol) :
    (m.sendProto proto).frames = [] ∨ ∃ id, (m.sendProto proto).frames = [(id, proto)] := by
  unfold sendProto
  cases dropUnusable m.links with
  | nil => exact Or.inl rfl
  | cons link rest => exact Or.inr ⟨_, rfl⟩

theorem sendAll_frames (link : LinkEntry) (protos : List LinkProtocol) :
    (sendAll link protos).2.1.map Prod.snd <+: protos := by
  induction protos generalizing link with
  | nil => exact List.prefix_rfl
  | cons proto protos ih =>
      unfold sendAll
      split
      · exact (List.prefix_cons_inj proto).mpr (ih _)
      · exact (List.prefix_cons_inj proto).mpr List.nil_prefix

private theorem sendSlices_frames {m : LinkManager} {sliceMgr : SliceManager} {out : Outcome}
    (h : m.sendSlices sliceMgr = some out) :
    out.frames = [] ∨ ∃ size protos, sliceMgr.getSlices size = some protos ∧
      out.frames.map Prod.snd <+: protos := by
  unfold sendSlices at h
  cases hlinks : dropUnusable m.links with
  | nil =>
      rw [hlinks] at h
      cases h
      exact Or.inl rfl
  | cons link rest =>
      rw [hlinks] at h
      obtain ⟨protos, hprotos, h⟩ := Option.bind_eq_some_iff.mp h
      cases h
      exact Or.inr ⟨_, protos, hprotos, sendAll_frames link protos⟩

theorem sendSlices_pieces {m : LinkManager} {sliceMgr : SliceManager} {out : Outcome}
    (h : m.sendSlices sliceMgr = some out) :
    ∀ f ∈ out.frames, ∃ firstIndex piece,
      f.2 = .msgSlice sliceMgr.epoch.toInt sliceMgr.seq sliceMgr.data.length firstIndex piece ∧
        IsPiece sliceMgr.data firstIndex piece := by
  intro f hf
  rcases sendSlices_frames h with hnil | ⟨size, protos, hprotos, hpre⟩
  · rw [hnil] at hf
    cases hf
  · have hmem : f.2 ∈ protos := hpre.subset (List.mem_map_of_mem hf)
    obtain ⟨firstIndex, piece, hframe, hpiece, _⟩ :=
      SliceManager.getSlices_pieces hprotos f.2 hmem
    exact ⟨firstIndex, piece, hframe, hpiece⟩

/-- A link that is never closed, sends whatever it is given and is fast enough. -/
structure Reliable (e : LinkEntry) : Prop where
  stays : ∀ n, e.link.isClosed n = false
  sends : ∀ n, e.link.send n = true
  fast : e.latency ≤ maxLatency

/-- One reliable link. -/
def Joined (m : LinkManager) : Prop := ∃ e, m.links = [e] ∧ Reliable e

private theorem Reliable.send {e : LinkEntry} (h : Reliable e) :
    Reliable e.send.1 ∧ e.send.2 = .ok :=
  ⟨⟨h.stays, h.sends, h.fast⟩, if_pos (h.sends _)⟩

private theorem Reliable.dropUnusable {e : LinkEntry} (h : Reliable e) :
    dropUnusable [e] = [e.askClosed] ∧ Reliable e.askClosed := by
  have husable : e.unusable = false := by
    have hfast := h.fast
    simp only [LinkEntry.unusable, LinkEntry.closed, h.stays, Bool.false_or, decide_eq_false_iff_not]
    omega
  exact ⟨by simp [LinkManager.dropUnusable, husable], h.stays, h.sends, h.fast⟩

theorem Joined.sendProto {m : LinkManager} (h : m.Joined) (proto : LinkProtocol) :
    (m.sendProto proto).links.Joined ∧ ∃ id, (m.sendProto proto).frames = [(id, proto)] := by
  obtain ⟨e, hlinks, he⟩ := h
  obtain ⟨hdrop, he'⟩ := he.dropUnusable
  have hout : m.sendProto proto = ⟨⟨[e.askClosed.send.1]⟩, [(e.askClosed.send.1.id, proto)],
      e.askClosed.send.2⟩ := by
    simp only [LinkManager.sendProto, hlinks, hdrop]
  rw [hout]
  exact ⟨⟨_, rfl, he'.send.1⟩, _, rfl⟩

private theorem Reliable.sendAll {e : LinkEntry} (h : Reliable e) (protos : List LinkProtocol) :
    Reliable (sendAll e protos).1 := by
  induction protos generalizing e with
  | nil => exact h
  | cons proto protos ih =>
      obtain ⟨hsent, hok⟩ := h.send
      have hsplit : e.send = (e.send.1, .ok) := Prod.ext rfl hok
      unfold LinkManager.sendAll
      rw [hsplit]
      exact ih hsent

theorem Joined.sendSlices {m : LinkManager} (h : m.Joined) {sliceMgr : SliceManager}
    (hslices : ∀ size < 2 ^ 32, ∃ protos, sliceMgr.getSlices size = some protos) :
    ∃ out, m.sendSlices sliceMgr = some out ∧ out.links.Joined := by
  obtain ⟨e, hlinks, he⟩ := h
  obtain ⟨hdrop, he'⟩ := he.dropUnusable
  have hsize : e.askClosed.maxSize < 2 ^ 32 := by
    have hlt := e.link.maxSize_lt
    simp only [LinkEntry.askClosed, LinkEntry.maxSize]
    omega
  obtain ⟨protos, hprotos⟩ := hslices _ hsize
  let sent := LinkManager.sendAll e.askClosed protos
  have hout : m.sendSlices sliceMgr = some ⟨⟨[sent.1]⟩, sent.2.1, sent.2.2⟩ := by
    simp only [LinkManager.sendSlices, hlinks, hdrop, hprotos]
    rfl
  exact ⟨_, hout, _, rfl, he'.sendAll protos⟩

end LinkManager

end LinkSet
