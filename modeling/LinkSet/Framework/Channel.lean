import Mathlib.Data.List.Basic

/-!
# Channels with counted senders

A bounded queue with one receiver. Every sender belongs to an owner, and the receiver learns that
the channel is closed once the queue is empty and the last sender is gone.
-/

namespace Framework

structure Channel (ω α : Type) where
  capacity : Nat
  /-- The owners of the senders, one entry for each sender. -/
  senders : List ω
  queue : List α

/-- What the receiver gets. -/
inductive Received (α : Type) where
  | item (a : α)
  | closed
  | pending

namespace Channel

variable {ω α : Type}

def new (capacity : Nat) (owner : ω) : Channel ω α := ⟨capacity, [owner], []⟩

/-- A sender is cloned for each of the owners. -/
def clone (ch : Channel ω α) (owners : List ω) : Channel ω α :=
  { ch with senders := ch.senders ++ owners }

/-- The owners that satisfy `q` drop their senders. -/
def drop (ch : Channel ω α) (q : ω → Bool) : Channel ω α :=
  { ch with senders := ch.senders.filter fun o => !q o }

/-- One sender of the owner is dropped. -/
def dropOne [DecidableEq ω] (ch : Channel ω α) (owner : ω) : Channel ω α :=
  { ch with senders := ch.senders.erase owner }

/-- A sender waits while the queue is full. -/
def send (ch : Channel ω α) (a : α) : Option (Channel ω α) :=
  if ch.queue.length < ch.capacity then some { ch with queue := ch.queue ++ [a] } else none

def recv (ch : Channel ω α) : Received α × Channel ω α :=
  match ch.queue, ch.senders with
  | a :: queue, _ => (.item a, { ch with queue })
  | [], [] => (.closed, ch)
  | [], _ :: _ => (.pending, ch)

/-- The senders of the owners that satisfy `p`. -/
def held (ch : Channel ω α) (p : ω → Bool) : List ω := ch.senders.filter p

variable {ch ch' : Channel ω α} {p : ω → Bool}

theorem held_clone (owners : List ω) : (ch.clone owners).held p = ch.held p ++ owners.filter p := by
  simp [held, clone]

theorem held_drop (q : ω → Bool) : (ch.drop q).held p = (ch.held p).filter fun o => !q o := by
  simp [held, drop, List.filter_filter, Bool.and_comm]

theorem held_clone_others {owners : List ω} (h : ∀ o ∈ owners, p o = false) :
    (ch.clone owners).held p = ch.held p := by
  rw [held_clone, List.filter_eq_nil_iff.mpr, List.append_nil]
  intro o ho
  simp [h o ho]

theorem held_drop_others {q : ω → Bool} (h : ∀ o, p o = true → q o = false) :
    (ch.drop q).held p = ch.held p := by
  rw [held_drop, List.filter_eq_self]
  intro o ho
  simp [h o (List.mem_filter.mp ho).2]

theorem held_dropOne [DecidableEq ω] {owner : ω} (h : p owner = false) :
    (ch.dropOne owner).held p = ch.held p := by
  unfold held dropOne
  rw [← List.erase_filter]
  apply List.erase_of_not_mem
  intro hmem
  rw [List.mem_filter, h] at hmem
  cases hmem.2

theorem held_send {a : α} (h : ch.send a = some ch') : ch'.held p = ch.held p := by
  unfold send at h
  split at h
  · cases h
    rfl
  · cases h

theorem held_recv {out : Received α} (h : ch.recv = (out, ch')) : ch'.held p = ch.held p := by
  unfold recv at h
  split at h <;> cases h <;> rfl

theorem mem_senders {o : ω} {rest : List ω} (h : ch.held p = o :: rest) : o ∈ ch.senders := by
  have ho : o ∈ ch.held p := by
    rw [h]
    exact List.mem_cons_self
  exact (List.mem_filter.mp ho).1

theorem recv_ne_closed {o : ω} (h : o ∈ ch.senders) : ch.recv ≠ (.closed, ch') := by
  intro hrecv
  unfold recv at hrecv
  split at hrecv
  · cases hrecv
  · next hsenders =>
      rw [hsenders] at h
      cases h
  · cases hrecv

theorem recv_pending {o : ω} (h : o ∈ ch.senders) (hqueue : ch.queue = []) :
    ch.recv = (.pending, ch) := by
  cases hsenders : ch.senders with
  | nil =>
      rw [hsenders] at h
      cases h
  | cons o' senders => simp [recv, hqueue, hsenders]

end Channel

end Framework
