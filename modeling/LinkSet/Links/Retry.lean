import LinkSet.Framework.Run
import LinkSet.Links.Connector
import Mathlib.Tactic.SplitIfs

/-!
# The retry budget of an address

The task of an address uses up a permit of the address's semaphore for every attempt to connect,
unless the address repeats. A request for an address that is known already adds to the permits
available at that time, up to a limit. A permit that an attempt holds is not among them, and comes
back when the task is aborted, so the limit can be passed by that one permit. The address outlives
its tasks, so they never find its semaphore closed or its repeat flag gone.
-/

namespace LinkSet

open Framework

namespace ConnectorManagerAddress

def new (addr : Address) : ConnectorManagerAddress := ⟨addr, false, 0⟩

end ConnectorManagerAddress

/-- The two requests of the controller that send an address. -/
inductive AddressRequest where
  | addAddr
  | tryAddr
deriving DecidableEq

def AddressRequest.innerAddr (addr : Address) : AddressRequest → ConnectorManagerAddress
  | .addAddr => { ConnectorManagerAddress.new addr with repeats := true }
  | .tryAddr => (ConnectorManagerAddress.new addr).addCount 1

/-- Where the loop of `create_task` stands. -/
inductive RetryTask where
  /-- There is no task, or it has left its loop. -/
  | stopped
  /-- About to look at the repeat flag, as a new task or after the pause of five seconds. -/
  | looping
  /-- In the `select`. The semaphore hands a permit to a waiting `acquire` at once; the task takes
  notice of it later. -/
  | waiting (granted : Bool)
  /-- Connecting or sending the link to the core, with a permit unless the address repeats. -/
  | attempting (permit : Bool)
deriving DecidableEq

/-- The permits that are dropped with the task. -/
def RetryTask.permits : RetryTask → Nat
  | .waiting granted => granted.toNat
  | .attempting permit => permit.toNat
  | _ => 0

/-- An address with its task. -/
structure AddressEntry where
  addr : ConnectorManagerAddress
  task : RetryTask
deriving DecidableEq

inductive RetryEvent where
  /-- A further request for the address is merged. -/
  | merge (other : ConnectorManagerAddress)
  /-- `create_task`, by `start`, `add_addr` or `add_connector`. -/
  | create
  /-- The task runs from the top of its loop to the `select` or to the attempt. -/
  | poll
  /-- `semaphore.acquire()` wins the `select`. -/
  | acquired
  /-- `repeat.changed()` wins the `select`. -/
  | changed
  /-- No connection was made, or the link has been sent; the permit is forgotten. -/
  | finished
  /-- The core does not take the link; the loop is left. -/
  | unsent
  /-- By `cancel`, `add_connector` or the manager's `drop`. -/
  | abort

namespace AddressEntry

/-- A waiting `acquire` gets a permit as soon as there is one. -/
def grant (e : AddressEntry) : AddressEntry :=
  if e.task = .waiting false ∧ 0 < e.addr.count then
    { addr := { e.addr with count := e.addr.count - 1 }, task := .waiting true }
  else e

def merge (e : AddressEntry) (other : ConnectorManagerAddress) : AddressEntry :=
  grant { e with addr := e.addr.merge other }

/-- One round of the loop up to the first point where it waits. -/
def loop (e : AddressEntry) : AddressEntry :=
  if e.addr.repeats then { e with task := .attempting false }
  else if 0 < e.addr.count then
    { addr := { e.addr with count := e.addr.count - 1 }, task := .attempting true }
  else { e with task := .waiting false }

/-- The task goes on as `task` without the permit it had, which the semaphore gets back. -/
def giveBack (e : AddressEntry) (task : RetryTask) : AddressEntry :=
  { addr := { e.addr with count := e.addr.count + e.task.permits }, task }

/-- `none` where the task is not at the point that the event is about. -/
def step (e : AddressEntry) : RetryEvent → Option AddressEntry
  | .merge other => some (e.merge other)
  | .create => if e.task = .stopped then some { e with task := .looping } else none
  | .poll => if e.task = .looping then some e.loop else none
  | .acquired => if e.task = .waiting true then some { e with task := .attempting true } else none
  | .changed =>
      match e.task with
      | .waiting _ => if e.addr.repeats then some (e.giveBack .looping) else none
      | _ => none
  | .finished =>
      match e.task with
      | .attempting _ => some { e with task := .looping }
      | _ => none
  | .unsent =>
      match e.task with
      | .attempting _ => some (e.giveBack .stopped)
      | _ => none
  | .abort => some (e.giveBack .stopped)

/-- The event drops the permit that the task has. -/
def Drops (e : AddressEntry) : RetryEvent → Prop
  | .changed => e.task = .waiting true ∧ e.addr.repeats
  | .unsent => e.task = .attempting true
  | .abort => e.task = .waiting true ∨ e.task = .attempting true
  | _ => False

end AddressEntry

private theorem RetryTask.permits_le (t : RetryTask) : t.permits ≤ 1 := by
  cases t with
  | waiting granted => exact granted.toNat_le
  | attempting permit => exact permit.toNat_le
  | stopped => exact Nat.zero_le _
  | looping => exact Nat.zero_le _

theorem RetryTask.permits_pos_iff {t : RetryTask} :
    0 < t.permits ↔ t = .waiting true ∨ t = .attempting true := by
  cases t with
  | waiting granted => cases granted <;> simp [permits]
  | attempting permit => cases permit <;> simp [permits]
  | stopped => simp [permits]
  | looping => simp [permits]

private theorem ConnectorManagerAddress.merge_count_le (a other : ConnectorManagerAddress) :
    (a.merge other).count ≤ max a.count retriesMax := by
  simp only [merge, addCount]
  omega

namespace AddressEntry

/-- Permits available, or in the hands of the task. -/
def total (e : AddressEntry) : Nat := e.addr.count + e.task.permits

private theorem grant_spec (e : AddressEntry) : e.grant.addr.count ≤ e.addr.count ∧
    e.grant.total = e.total := by
  unfold grant total
  split_ifs with h
  · simp only [h.1, RetryTask.permits, Bool.toNat_true, Bool.toNat_false]
    omega
  · exact ⟨le_rfl, rfl⟩

private theorem loop_spec (e : AddressEntry) : e.loop.addr.count ≤ e.addr.count ∧
    e.loop.total ≤ e.total := by
  unfold loop total
  split_ifs
  · simp [RetryTask.permits]
  · simp only [RetryTask.permits, Bool.toNat_true]
    omega
  · simp [RetryTask.permits]

/-- What an event can do to the permits: a merge fills the count up to the limit, dropping a
permit adds it to the count, and nothing else makes either number larger. -/
private theorem step_cases {e e' : AddressEntry} {event : RetryEvent} (h : e.step event = some e') :
    (e'.addr.count ≤ max e.addr.count retriesMax ∧
      e'.total ≤ max e.addr.count retriesMax + e.task.permits ∧ ¬ e.Drops event) ∨
    (e'.addr.count = e.total ∧ e'.task.permits = 0 ∧ (e.Drops event ↔ 0 < e.task.permits)) ∨
    (e'.addr.count ≤ e.addr.count ∧ e'.total ≤ e.total ∧ ¬ e.Drops event) := by
  cases event with
  | merge other =>
      cases h
      apply Or.inl
      have hgrant := grant_spec { e with addr := e.addr.merge other }
      have hmerge := e.addr.merge_count_le other
      refine ⟨hgrant.1.trans hmerge, ?_, id⟩
      rw [merge, hgrant.2, total]
      exact Nat.add_le_add_right hmerge _
  | create =>
      simp only [step, Option.ite_none_right_eq_some, Option.some.injEq] at h
      obtain ⟨_, rfl⟩ := h
      exact .inr (.inr ⟨le_rfl, by simp [total, RetryTask.permits], id⟩)
  | poll =>
      simp only [step, Option.ite_none_right_eq_some, Option.some.injEq] at h
      obtain ⟨_, rfl⟩ := h
      exact .inr (.inr ⟨e.loop_spec.1, e.loop_spec.2, id⟩)
  | acquired =>
      simp only [step, Option.ite_none_right_eq_some, Option.some.injEq] at h
      obtain ⟨htask, rfl⟩ := h
      exact .inr (.inr ⟨le_rfl, by simp [total, htask, RetryTask.permits], id⟩)
  | changed =>
      simp only [step] at h
      split at h
      · next granted htask =>
          simp only [Option.ite_none_right_eq_some, Option.some.injEq] at h
          obtain ⟨hrepeats, rfl⟩ := h
          refine .inr (.inl ⟨rfl, rfl, ?_⟩)
          simp [Drops, htask, hrepeats, RetryTask.permits_pos_iff]
      · cases h
  | finished =>
      simp only [step] at h
      split at h
      · cases h
        exact .inr (.inr ⟨le_rfl, by simp [total, RetryTask.permits], id⟩)
      · cases h
  | unsent =>
      simp only [step] at h
      split at h
      · next permit htask =>
          cases h
          refine .inr (.inl ⟨rfl, rfl, ?_⟩)
          simp [Drops, htask, RetryTask.permits_pos_iff]
      · cases h
  | abort =>
      cases h
      exact .inr (.inl ⟨rfl, rfl, RetryTask.permits_pos_iff.symm⟩)

theorem step_capped_iff (e : AddressEntry) (event : RetryEvent) (e' : AddressEntry)
    (hcap : e.addr.count ≤ retriesMax) (h : e.step event = some e') :
    e'.addr.count ≤ retriesMax ↔ (e.Drops event → e.addr.count < retriesMax) := by
  have hpermits := e.task.permits_le
  rcases step_cases h with ⟨hcount, _, hdrops⟩ | ⟨hcount, _, hdrops⟩ | ⟨hcount, _, hdrops⟩
  · simp only [hdrops, false_imp_iff, iff_true]
    omega
  · rw [hcount, hdrops, total]
    omega
  · simp only [hdrops, false_imp_iff, iff_true]
    omega

private theorem not_drops_of_stuck {e : AddressEntry} {event : RetryEvent}
    (h : e.step event = none) : ¬ e.Drops event := by
  intro hdrops
  cases event with
  | changed => simp [step, hdrops.1, hdrops.2] at h
  | unsent => simp [step, show e.task = .attempting true from hdrops] at h
  | abort => simp [step] at h
  | merge _ => exact hdrops
  | create => exact hdrops
  | poll => exact hdrops
  | acquired => exact hdrops
  | finished => exact hdrops

private theorem step_total (e : AddressEntry) (event : RetryEvent) (e' : AddressEntry)
    (htotal : e.total ≤ retriesMax + 1) (h : e.step event = some e') :
    e'.total ≤ retriesMax + 1 := by
  have hpermits := e.task.permits_le
  unfold total at htotal
  rcases step_cases h with ⟨_, hle, _⟩ | ⟨hcount, hnone, _⟩ | ⟨_, hle, _⟩
  · omega
  · rw [total, hcount, hnone]
    exact htotal
  · exact hle.trans htotal

/-- An address as its first request leaves it. -/
def added (request : AddressRequest) (addr : Address) : AddressEntry :=
  ⟨request.innerAddr addr, .stopped⟩

private theorem added_total (request : AddressRequest) (addr : Address) :
    (added request addr).total ≤ 1 := by
  cases request with
  | addAddr => exact Nat.zero_le _
  | tryAddr => exact le_rfl

/-- The permits available stay within the limit exactly as long as no permit is dropped while the
limit is reached; they never pass it by more than one. -/
theorem permits_capped_iff (request : AddressRequest) (addr : Address) (events : List RetryEvent) :
    (AllReached step (fun e => e.addr.count ≤ retriesMax) (added request addr) events ↔
      AllSteps step (fun e event => e.Drops event → e.addr.count < retriesMax)
        (added request addr) events) ∧
    ∀ e, run step (added request addr) events = some e → e.addr.count ≤ retriesMax + 1 := by
  have hstart := added_total request addr
  constructor
  · apply allReached_iff_allSteps (fun e event e' (_ : True) => step_capped_iff e event e')
    · intros
      trivial
    · intro e event _ _ hstuck hdrops
      exact absurd hdrops (not_drops_of_stuck hstuck)
    · trivial
    · have hle : (added request addr).addr.count ≤ (added request addr).total := Nat.le_add_right _ _
      exact (hle.trans hstart).trans (by decide)
  · intro e hrun
    have htotal : e.total ≤ retriesMax + 1 := run_invariant step_total (hstart.trans (by decide)) hrun
    exact (Nat.le_add_right _ _).trans htotal

/-- One attempt is under way when ten more requests are merged; it is aborted. -/
theorem permits_exceed_cap :
    (run step (added .tryAddr ⟨"tcp", .string "host"⟩)
      (.create :: .poll :: List.replicate 10 (.merge (AddressRequest.tryAddr.innerAddr
        ⟨"tcp", .string "host"⟩)) ++ [.abort])).map (fun e => e.addr.count) =
      some (retriesMax + 1) := by
  decide

end AddressEntry

end LinkSet
