import LinkSet.Core.Transitions
import LinkSet.Framework.Run

/-!
# Connectors and addresses are never lost

They move between plain sets and the task table of a `ConnectorManager` with every transition,
and each state adds to them in its own way. Nothing is lost on the way, and while a manager is
active every address has the task that its scheme calls for.
-/

namespace LinkSet

open Framework

namespace States

def conns (s : States) : ConnectorSet := s.holding.conns

def addresses (s : States) : List Address := s.holding.handles.map Prod.fst

/-- The states with a `ConnectorManager`. -/
def Managed (s : States) : Prop := s.kind = .connecting ∨ s.kind = .reconnecting

/-- Every address has a task exactly when there is a connector for it, and the task uses it. -/
def Staffed (s : States) : Prop :=
  s.Managed → ∀ h ∈ s.holding.handles, h.2 = s.conns.get h.1.scheme

end States

/-- Nothing is added and nothing is lost. -/
structure Kept (s s' : States) : Prop where
  conns : s'.conns = s.conns
  addresses : s'.addresses = s.addresses
  staffed : s.Staffed → s'.Staffed

theorem Kept.trans {s s' s'' : States} (h : Kept s s') (h' : Kept s' s'') : Kept s s'' :=
  ⟨h'.conns.trans h.conns, h'.addresses.trans h.addresses, fun hs => h'.staffed (h.staffed hs)⟩

private theorem Kept.of_holding {s s' : States} (hkind : s'.kind = s.kind)
    (hconns : s'.conns = s.conns) (hhandles : s'.holding.handles = s.holding.handles) :
    Kept s s' := by
  refine ⟨hconns, congrArg (List.map Prod.fst) hhandles, ?_⟩
  intro h hmanaged
  unfold States.Managed at hmanaged
  rw [hkind] at hmanaged
  rw [hhandles, hconns]
  exact h hmanaged

private theorem Alike.kept {s : States} {c : CommonState} {r : States × CommonState}
    (h : Alike s c r) :
    Kept s r.1 :=
  .of_holding h.kind (congrArg Holding.conns h.holding) (congrArg Holding.handles h.holding)

private theorem Kept.plain {s s' : States} (hconns : s'.conns = s.conns)
    (haddresses : s'.addresses = s.addresses) (hplain : ¬s'.Managed) : Kept s s' :=
  ⟨hconns, haddresses, fun _ hmanaged => absurd hmanaged hplain⟩

private theorem AddressSet.handles_fst (addrs : AddressSet) :
    (AddressSet.handles addrs).map Prod.fst = addrs.map ConnectorManagerAddress.addr := by
  simp [AddressSet.handles, Function.comp_def]

namespace ConnectorManager

private theorem start_tasks (addrs : AddressSet) (conns : ConnectorSet) :
    (start addrs conns).tasks = addrs.map fun a => (a.addr, conns.get a.addr.scheme) := by
  simp [tasks, start, Function.comp_def]

private theorem cancel_handles (m : ConnectorManager) :
    (AddressSet.handles m.cancel.2).map Prod.fst = m.tasks.map Prod.fst := by
  simp [AddressSet.handles, cancel, tasks, Function.comp_def]

end ConnectorManager

private theorem Kept.start {s s' : States} {addrs : AddressSet} {conns : ConnectorSet}
    (hs : s.conns = conns ∧ s.holding.handles = AddressSet.handles addrs)
    (hs' : s'.conns = conns ∧
      s'.holding.handles = (ConnectorManager.start addrs conns).tasks) : Kept s s' := by
  refine ⟨hs'.1.trans hs.1.symm, ?_, ?_⟩
  · rw [States.addresses, States.addresses, hs.2, hs'.2, ConnectorManager.start_tasks,
      AddressSet.handles_fst]
    simp [Function.comp_def]
  · intro _ _ h hmem
    rw [hs'.2, ConnectorManager.start_tasks] at hmem
    obtain ⟨a, _, rfl⟩ := List.mem_map.mp hmem
    rw [hs'.1]

private theorem Transition.kept {now : Nat} {s : States} {c : CommonState}
    {r : States × CommonState} (t : Transition now s c r) : Kept s r.1 := by
  cases t with
  | connect s c => exact .start ⟨rfl, rfl⟩ ⟨rfl, rfl⟩
  | firstLink s c link => exact .plain rfl rfl nofun
  | giveUp s c => exact .plain rfl s.connector.cancel_handles nofun
  | linkMade s c link => exact .plain rfl s.connector.cancel_handles nofun
  | abandon s c => exact .plain rfl rfl nofun
  | retry s c => exact .start ⟨rfl, rfl⟩ ⟨rfl, rfl⟩
  | agree s c hagree =>
      obtain ⟨_, _, hagree⟩ := Option.bind_eq_some_iff.mp hagree
      cases hagree
      exact .plain rfl rfl nofun
  | lose s c => exact .plain rfl rfl nofun
  | mismatch s c => exact .plain rfl rfl nofun
  | reconnect s c => exact .start ⟨rfl, rfl⟩ ⟨rfl, rfl⟩
  | wait s c => exact .plain rfl rfl nofun
  | reconnectEnds s c => exact .plain rfl s.connector.cancel_handles nofun
  | reconnectRestarts s c => exact ⟨rfl, rfl, fun h _ => h (Or.inr rfl)⟩
  | reconnected s c link => exact .plain rfl s.connector.cancel_handles nofun
  | graceEnds s c => exact .plain rfl rfl nofun
  | graceRestarts s c => exact .start ⟨rfl, rfl⟩ ⟨rfl, rfl⟩
  | returned s c link => exact .plain rfl rfl nofun

private theorem Course.kept {now : Nat} {s : States} {c : CommonState} {r : States × CommonState}
    (h : Course now s c r) : Kept s r.1 := by
  cases h with
  | stays halike => exact halike.kept
  | leaves t halike => exact halike.kept.trans t.kept
  | clears _ => exact .of_holding rfl rfl rfl

section additions

/-- `addr` is added to a list of addresses, unless it is there. -/
def addOnce (addrs : List Address) (addr : Address) : List Address :=
  if addr ∈ addrs then addrs else addrs ++ [addr]

private theorem AddressSet.add_addresses (addrs : AddressSet) (addr : ConnectorManagerAddress) :
    (AddressSet.handles (AddressSet.add addrs addr)).map Prod.fst =
      addOnce ((AddressSet.handles addrs).map Prod.fst) addr.addr := by
  rw [AddressSet.handles_fst, AddressSet.handles_fst]
  have hany : (addrs.any fun a => a.addr = addr.addr) = true ↔
      addr.addr ∈ addrs.map ConnectorManagerAddress.addr := by
    simp
  unfold AddressSet.add addOnce
  by_cases h : addr.addr ∈ addrs.map ConnectorManagerAddress.addr
  · rw [if_pos h, if_pos (hany.mpr h), List.map_map]
    apply List.map_congr_left
    intro a _
    simp only [Function.comp_apply]
    split <;> rfl
  · rw [if_neg h, if_neg (fun hadd => h (hany.mp hadd)), List.map_append]
    rfl

private theorem ConnectorManager.addAddr_tasks (m : ConnectorManager)
    (addr : ConnectorManagerAddress) :
    (m.addAddr addr).tasks =
      if addr.addr ∈ m.tasks.map Prod.fst then m.tasks
      else m.tasks ++ [(addr.addr, m.conns.get addr.addr.scheme)] := by
  have hany : (m.handles.any fun h => h.1.addr = addr.addr) = true ↔
      addr.addr ∈ m.tasks.map Prod.fst := by
    simp [tasks]
  unfold addAddr
  by_cases h : addr.addr ∈ m.tasks.map Prod.fst
  · rw [if_pos h, if_pos (hany.mpr h), tasks, List.map_map]
    apply List.map_congr_left
    intro a _
    simp only [Function.comp_apply]
    split <;> rfl
  · rw [if_neg h, if_neg (fun hadd => h (hany.mp hadd)), tasks, List.map_append]
    rfl

private theorem ConnectorManager.addAddr_addresses (m : ConnectorManager)
    (addr : ConnectorManagerAddress) :
    (m.addAddr addr).tasks.map Prod.fst = addOnce (m.tasks.map Prod.fst) addr.addr := by
  rw [addAddr_tasks, addOnce]
  split
  · rfl
  · rw [List.map_append]
    rfl

private theorem ConnectorManager.addAddr_conns (m : ConnectorManager)
    (addr : ConnectorManagerAddress) : (m.addAddr addr).conns = m.conns := by
  unfold addAddr
  split <;> rfl

private theorem ConnectorManager.addAddr_staffed {m : ConnectorManager}
    (addr : ConnectorManagerAddress) (h : ∀ t ∈ m.tasks, t.2 = m.conns.get t.1.scheme) :
    ∀ t ∈ (m.addAddr addr).tasks, t.2 = (m.addAddr addr).conns.get t.1.scheme := by
  intro t ht
  rw [addAddr_conns]
  rw [addAddr_tasks] at ht
  split at ht
  · exact h t ht
  · rcases List.mem_append.mp ht with ht | ht
    · exact h t ht
    · obtain rfl := List.mem_singleton.mp ht
      rfl

/-- The assertion on new connectors holds, and the new connector takes over the tasks of its
scheme. -/
private theorem ConnectorManager.addConnector_spec {m : ConnectorManager} (conn : Connector)
    (h : ∀ t ∈ m.tasks, t.2 = m.conns.get t.1.scheme) :
    ∃ m', m.addConnector conn = some m' ∧ m'.conns = m.conns.insert conn.scheme conn ∧
      m'.tasks.map Prod.fst = m.tasks.map Prod.fst ∧
      ∀ t ∈ m'.tasks, t.2 = m'.conns.get t.1.scheme := by
  have hhandle : ∀ x ∈ m.handles, x.2 = m.conns.get x.1.addr.scheme := fun x hx =>
    h (x.1.addr, x.2) (List.mem_map_of_mem hx)
  have hassert : ¬((m.conns.get conn.scheme).isNone = true ∧ (m.handles.any fun x =>
      decide (x.1.addr.scheme = conn.scheme) && x.2.isSome) = true) := by
    rintro ⟨hnone, hany⟩
    obtain ⟨x, hx, htask⟩ := List.any_eq_true.mp hany
    simp only [Bool.and_eq_true, decide_eq_true_eq] at htask
    rw [hhandle x hx, htask.1] at htask
    simp [Option.isNone_iff_eq_none.mp hnone] at htask
  refine ⟨_, if_neg hassert, rfl, ?_, ?_⟩
  · simp only [tasks, List.map_map]
    apply List.map_congr_left
    intro x _
    simp only [Function.comp_apply]
    split <;> rfl
  · intro t ht
    simp only [tasks, List.map_map] at ht
    obtain ⟨x, hx, rfl⟩ := List.mem_map.mp ht
    simp only [Function.comp_apply]
    by_cases hours : x.1.addr.scheme = conn.scheme
    · simp [hours]
    · simp only [if_neg hours, SortedMap.get_insert_of_ne _ _ hours]
      exact hhandle x hx

private theorem States.addAddress_spec (s : States) (addr : ConnectorManagerAddress) :
    (s.addAddress addr).conns = s.conns ∧
      (s.addAddress addr).addresses = addOnce s.addresses addr.addr ∧
      (s.Staffed → (s.addAddress addr).Staffed) := by
  cases s with
  | connecting s =>
      refine ⟨s.connector.addAddr_conns addr, s.connector.addAddr_addresses addr, ?_⟩
      intro h _
      exact ConnectorManager.addAddr_staffed addr (h (Or.inl rfl))
  | reconnecting s =>
      refine ⟨s.connector.addAddr_conns addr, s.connector.addAddr_addresses addr, ?_⟩
      intro h _
      exact ConnectorManager.addAddr_staffed addr (h (Or.inr rfl))
  | _ => exact ⟨rfl, AddressSet.add_addresses _ addr, fun _ => nofun⟩

theorem States.addConnector_spec {s : States} (conn : Connector) (h : s.Staffed) :
    ∃ s', s.addConnector conn = some s' ∧ s'.conns = s.conns.insert conn.scheme conn ∧
      s'.addresses = s.addresses ∧ s'.Staffed := by
  cases s with
  | connecting s =>
      obtain ⟨m, hm, hconns, haddrs, hstaffed⟩ :=
        ConnectorManager.addConnector_spec conn (h (Or.inl rfl))
      exact ⟨.connecting { s with connector := m }, by simp [addConnector, hm], hconns, haddrs,
        fun _ => hstaffed⟩
  | reconnecting s =>
      obtain ⟨m, hm, hconns, haddrs, hstaffed⟩ :=
        ConnectorManager.addConnector_spec conn (h (Or.inr rfl))
      exact ⟨.reconnecting { s with connector := m }, by simp [addConnector, hm], hconns, haddrs,
        fun _ => hstaffed⟩
  | _ =>
      refine ⟨_, rfl, rfl, rfl, ?_⟩
      rintro (hkind | hkind)
      · cases hkind
      · cases hkind

private theorem States.enqueue_kept (s : States) (msg : Submission) : Kept s (s.enqueue msg) := by
  cases s <;> exact .of_holding rfl rfl rfl

end additions

namespace Core

/-- The addresses given by `AddAddress`. -/
def givenAddresses (inputs : List (Nat × Event)) : List Address :=
  inputs.filterMap fun
    | (_, .command (.addAddress addr)) => some addr.addr
    | _ => none

/-- The connectors given by `AddConnector`. -/
def givenConnectors (inputs : List (Nat × Event)) : List Connector :=
  inputs.filterMap fun
    | (_, .command (.addConnector conn)) => some conn
    | _ => none

/-- The connector given last for the scheme. -/
def latestConnector (inputs : List (Nat × Event)) (scheme : String) : Option Connector :=
  (givenConnectors inputs).reverse.find? fun conn => conn.scheme = scheme

/-- The core has what it was given. -/
structure HasGiven (inputs : List (Nat × Event)) (core : Core) : Prop where
  nodup : core.state.addresses.Nodup
  addresses : ∀ addr, addr ∈ core.state.addresses ↔ addr ∈ givenAddresses inputs
  conns : ∀ scheme, core.state.conns.get scheme = latestConnector inputs scheme
  staffed : core.state.Staffed

section steps

variable {inputs : List (Nat × Event)} {core core' : Core} {input : Nat × Event}

private theorem HasGiven.of_kept (h : HasGiven inputs core) (hkept : Kept core.state core'.state)
    (haddress : givenAddresses [input] = []) (hconn : givenConnectors [input] = []) :
    HasGiven (inputs ++ [input]) core' := by
  have haddrs : givenAddresses (inputs ++ [input]) = givenAddresses inputs := by
    rw [givenAddresses, List.filterMap_append]
    exact (congrArg _ haddress).trans (List.append_nil _)
  have hconns : givenConnectors (inputs ++ [input]) = givenConnectors inputs := by
    rw [givenConnectors, List.filterMap_append]
    exact (congrArg _ hconn).trans (List.append_nil _)
  refine ⟨?_, ?_, ?_, hkept.staffed h.staffed⟩
  · rw [hkept.addresses]
    exact h.nodup
  · rw [hkept.addresses, haddrs]
    exact h.addresses
  · intro scheme
    rw [hkept.conns, h.conns scheme, latestConnector, latestConnector, hconns]

private theorem addOnce_nodup {addrs : List Address} (h : addrs.Nodup) (addr : Address) :
    (addOnce addrs addr).Nodup := by
  unfold addOnce
  split
  · exact h
  · next hnew => exact List.Nodup.append h (List.nodup_singleton addr) (by simpa using hnew)

private theorem mem_addOnce {addrs : List Address} {addr a : Address} :
    a ∈ addOnce addrs addr ↔ a ∈ addrs ∨ a = addr := by
  unfold addOnce
  split
  · next hold =>
      constructor
      · exact Or.inl
      · rintro (ha | rfl)
        · exact ha
        · exact hold
  · simp

private theorem HasGiven.of_address {now : Nat} {addr : ConnectorManagerAddress}
    (h : HasGiven inputs core) (hinput : input = (now, .command (.addAddress addr)))
    (haddrs : core'.state.addresses = addOnce core.state.addresses addr.addr)
    (hconns : core'.state.conns = core.state.conns) (hstaffed : core'.state.Staffed) :
    HasGiven (inputs ++ [input]) core' := by
  subst hinput
  refine ⟨?_, ?_, ?_, hstaffed⟩
  · rw [haddrs]
    exact addOnce_nodup h.nodup addr.addr
  · intro a
    rw [haddrs, mem_addOnce, h.addresses a]
    simp [givenAddresses]
  · intro scheme
    rw [hconns, h.conns scheme]
    simp [latestConnector, givenConnectors]

private theorem HasGiven.of_connector {now : Nat} {conn : Connector} (h : HasGiven inputs core)
    (hinput : input = (now, .command (.addConnector conn)))
    (hconns : core'.state.conns = core.state.conns.insert conn.scheme conn)
    (haddrs : core'.state.addresses = core.state.addresses) (hstaffed : core'.state.Staffed) :
    HasGiven (inputs ++ [input]) core' := by
  subst hinput
  refine ⟨?_, ?_, ?_, hstaffed⟩
  · rw [haddrs]
    exact h.nodup
  · intro a
    rw [haddrs, h.addresses a]
    simp [givenAddresses]
  · intro scheme
    rw [hconns, SortedMap.get_insert, h.conns scheme]
    have hlast : givenConnectors (inputs ++ [(now, .command (.addConnector conn))]) =
        givenConnectors inputs ++ [conn] := by
      simp [givenConnectors]
    rw [latestConnector, latestConnector, hlast, List.reverse_append, List.reverse_singleton,
      List.singleton_append, List.find?_cons]
    by_cases hscheme : scheme = conn.scheme
    · simp [hscheme]
    · simp [hscheme, Ne.symm hscheme]

theorem hasGiven_step (inputs : List (Nat × Event)) (core : Core) (input : Nat × Event)
    (core' : Core) (h : HasGiven inputs core) (hstep : core.step input = some core') :
    HasGiven (inputs ++ [input]) core' := by
  obtain ⟨now, ev⟩ := input
  cases step_round hstep with
  | config conf => exact h.of_kept (.of_holding rfl rfl rfl) rfl rfl
  | fires _ _ hcourse => exact h.of_kept hcourse.kept rfl rfl
  | frame _ hcourse => exact h.of_kept hcourse.kept rfl rfl
  | debug _ halike => exact h.of_kept halike.kept rfl rfl
  | permits _ _ halike => exact h.of_kept halike.kept rfl rfl
  | @command cmd r hobeys =>
      cases cmd with
      | connect =>
          cases hobeys with
          | connect hcourse => exact h.of_kept hcourse.kept rfl rfl
      | disconnect =>
          cases hobeys with
          | disconnect hcourse => exact h.of_kept hcourse.kept rfl rfl
      | addLink link =>
          cases hobeys with
          | link _ hcourse => exact h.of_kept hcourse.kept rfl rfl
      | message data epoch =>
          cases hobeys with
          | enqueue _ _ => exact h.of_kept (core.state.enqueue_kept _) rfl rfl
          | connectFor hs _ _ =>
              refine h.of_kept ?_ rfl rfl
              rw [hs]
              exact .start ⟨rfl, rfl⟩ ⟨rfl, rfl⟩
          | message _ _ _ _ hcourse => exact h.of_kept hcourse.kept rfl rfl
      | addAddress addr =>
          cases hobeys with
          | address addr =>
              obtain ⟨hconns, haddrs, hstaffed⟩ := core.state.addAddress_spec addr
              exact h.of_address rfl haddrs hconns (hstaffed h.staffed)
      | addConnector conn =>
          cases hobeys with
          | connector hconn =>
              obtain ⟨s', hs', hconns, haddrs, hstaffed⟩ :=
                States.addConnector_spec conn h.staffed
              obtain rfl := Option.some.inj (hs'.symm.trans hconn)
              exact h.of_connector rfl hconns haddrs hstaffed

end steps

/-- In every run the addresses held are those ever given, each once, and the connector of a
scheme is the one given last. While a `ConnectorManager` is active, an address has a task
exactly when there is a connector for its scheme, and the task uses that connector; and a new
connector can always be added. -/
theorem holdings_never_lost (inputs : List (Nat × Event)) {core : Core}
    (hrun : run step start inputs = some core) :
    core.state.addresses.Nodup ∧
    (∀ addr, addr ∈ core.state.addresses ↔ addr ∈ givenAddresses inputs) ∧
    (∀ scheme, core.state.conns.get scheme = latestConnector inputs scheme) ∧
    (core.state.kind = .connecting ∨ core.state.kind = .reconnecting →
      ∀ h ∈ core.state.holding.handles, h.2 = core.state.conns.get h.1.scheme) ∧
    (∀ now conn, (core.step (now, .command (.addConnector conn))).isSome = true) := by
  have hstart : HasGiven [] start := by
    refine ⟨?_, ?_, ?_, nofun⟩
    · exact List.nodup_nil
    · intro addr
      exact Iff.rfl
    · intro scheme
      rfl
  have hgiven := run_history hasGiven_step hstart hrun
  rw [List.nil_append] at hgiven
  refine ⟨hgiven.nodup, hgiven.addresses, hgiven.conns, hgiven.staffed, ?_⟩
  intro now conn
  obtain ⟨s', hs', -⟩ := States.addConnector_spec conn hgiven.staffed
  have hhandle : core.handle now (.command (.addConnector conn)) = some (s', core.common) := by
    simp only [handle, tagged, States.ctrlMsg_addConnector, hs', Option.map_some]
  rw [step, hhandle]
  rfl

/-- An address without a connector, an attempt to connect, and then its connector, twice. -/
def lateConnectors : List (Nat × Event) :=
  [(0, .command (.addAddress ⟨⟨"tcp", .string "peer"⟩, true, 0⟩)), (0, .command .connect),
    (0, .command (.addConnector ⟨"tcp", 1⟩)), (0, .command (.addConnector ⟨"tcp", 2⟩))]

theorem holdings_never_lost_late :
    ∃ core, run step start lateConnectors = some core ∧ core.state.kind = .connecting ∧
      core.state.holding.handles = [(⟨"tcp", .string "peer"⟩, some ⟨"tcp", 2⟩)] ∧
      core.state.conns.get "tcp" = latestConnector lateConnectors "tcp" ∧
      latestConnector lateConnectors "tcp" = some ⟨"tcp", 2⟩ :=
  ⟨_, rfl, rfl, rfl, (holdings_never_lost lateConnectors rfl).2.2.1 "tcp", rfl⟩

end Core

end LinkSet
