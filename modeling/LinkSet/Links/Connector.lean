import LinkSet.Framework.SortedMap
import Mathlib.Data.String.Basic

/-!
# Connectors and addresses

While an endpoint tries to connect, a `ConnectorManager` runs one task for every address whose
scheme has a connector. A task is represented by the connector it uses; the links it makes
arrive as commands.
-/

namespace LinkSet

open Framework

inductive AddressRepr where
  | string (s : String)
  | bytes (b : List UInt8)
deriving DecidableEq

structure Address where
  scheme : String
  addr : AddressRepr
deriving DecidableEq

/-- An `Arc<dyn PinnedLinkConnector>`; the tag tells apart connectors of one scheme. -/
structure Connector where
  scheme : String
  tag : Nat
deriving DecidableEq

def retriesMax : Nat := 10

/-- An address with its retry budget: the permits of the semaphore and the repeat flag. -/
structure ConnectorManagerAddress where
  addr : Address
  repeats : Bool
  count : Nat
deriving DecidableEq

namespace ConnectorManagerAddress

def addCount (a : ConnectorManagerAddress) (count : Nat) : ConnectorManagerAddress :=
  { a with count := a.count + min count (retriesMax - a.count) }

def merge (a other : ConnectorManagerAddress) : ConnectorManagerAddress :=
  let a := a.addCount (min other.count (2 ^ 16 - 1))
  { a with repeats := a.repeats || other.repeats }

end ConnectorManagerAddress

/-- A `HashMap` from schemes; no function depends on the order of its entries. -/
abbrev ConnectorSet := SortedMap String Connector

/-- A `HashSet` of addresses, equal when their `addr` is. -/
abbrev AddressSet := List ConnectorManagerAddress

/-- `AddAddress` in a state that holds the addresses itself. -/
def AddressSet.add (addrs : AddressSet) (addr : ConnectorManagerAddress) : AddressSet :=
  if addrs.any fun a => a.addr = addr.addr then
    addrs.map fun a => if a.addr = addr.addr then a.merge addr else a
  else addrs ++ [addr]

/-- `AddConnector` in a state that holds the connectors itself. -/
def ConnectorSet.add (conns : ConnectorSet) (conn : Connector) : ConnectorSet :=
  conns.insert conn.scheme conn

structure ConnectorManager where
  conns : ConnectorSet
  /-- The addresses, each with the connector its task uses, if it has a task. -/
  handles : List (ConnectorManagerAddress × Option Connector)

namespace ConnectorManager

def start (addrs : AddressSet) (conns : ConnectorSet) : ConnectorManager :=
  ⟨conns, addrs.map fun addr => (addr, conns.get addr.addr.scheme)⟩

def addAddr (m : ConnectorManager) (addr : ConnectorManagerAddress) : ConnectorManager :=
  if m.handles.any fun h => h.1.addr = addr.addr then
    { m with handles := m.handles.map fun h =>
        if h.1.addr = addr.addr then (h.1.merge addr, h.2) else h }
  else { m with handles := m.handles ++ [(addr, m.conns.get addr.addr.scheme)] }

/-- Fails where the `debug_assert` does: a task without a connector. -/
def addConnector (m : ConnectorManager) (conn : Connector) : Option ConnectorManager :=
  let ours := fun h : ConnectorManagerAddress × Option Connector => h.1.addr.scheme = conn.scheme
  if (m.conns.get conn.scheme).isNone ∧ m.handles.any (fun h => ours h && h.2.isSome) then none
  else some {
    conns := m.conns.insert conn.scheme conn
    handles := m.handles.map fun h => if ours h then (h.1, some conn) else h }

/-- A task has acquired, returned or used up permits of its address. -/
def setPermits (m : ConnectorManager) (addr : Address) (count : Nat) : ConnectorManager :=
  { m with handles := m.handles.map fun h =>
      if h.1.addr = addr ∧ h.2.isSome then ({ h.1 with count }, h.2) else h }

def cancel (m : ConnectorManager) : ConnectorSet × AddressSet := (m.conns, m.handles.map Prod.fst)

end ConnectorManager

end LinkSet
