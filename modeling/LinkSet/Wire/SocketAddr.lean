import LinkSet.Framework.Machine
import LinkSet.Links.Connector
import Mathlib.Data.Vector.Basic

/-!
# Socket addresses

The TCP link shares its addresses as bytes: the octets of the IP address and the port. The
families are told apart by the number of bytes alone, and the flow info and the scope id of an
IPv6 address are not written.
-/

namespace LinkSet

open Framework

structure SocketAddrV4 where
  ip : List.Vector UInt8 4
  port : UInt16
deriving DecidableEq

structure SocketAddrV6 where
  ip : List.Vector UInt8 16
  port : UInt16
  flowinfo : UInt32
  scopeId : UInt32
deriving DecidableEq

inductive SocketAddr where
  | v4 (addr : SocketAddrV4)
  | v6 (addr : SocketAddrV6)
deriving DecidableEq

/-- The one error the conversion of an address returns. -/
inductive TcpLinkError where
  | invalidAddr
deriving DecidableEq

/-- `ip().octets()` and then `port().to_be_bytes()`, in both families. -/
def octetsAndPort {n : Nat} (ip : List.Vector UInt8 n) (port : UInt16) : List UInt8 :=
  ip.toList ++ toBeBytes 2 port.toNat

/-- `bytes[0..n]` as an array; the length is what makes the source's `unwrap` succeed. -/
def readOctets {n : Nat} (bytes : List UInt8) (h : bytes.length = n + 2) : List.Vector UInt8 n :=
  ⟨bytes.take n, by
    rw [List.length_take]
    omega⟩

/-- `u16::from_be_bytes` of `bytes[n..n + 2]`. -/
def readPort (n : Nat) (bytes : List UInt8) : UInt16 :=
  UInt16.ofNat (fromBeBytes ((bytes.drop n).take 2))

def AddressRepr.fromSocketAddr : SocketAddr → AddressRepr
  | .v4 addr => .bytes (octetsAndPort addr.ip addr.port)
  | .v6 addr => .bytes (octetsAndPort addr.ip addr.port)

/-- `parse` is the standard library's parser of socket addresses. -/
def SocketAddr.tryFrom (parse : String → Option SocketAddr) :
    AddressRepr → Except TcpLinkError SocketAddr
  | .string addr =>
      match parse addr with
      | some sa => .ok sa
      | none => .error .invalidAddr
  | .bytes bytes =>
      if h : bytes.length = 6 then .ok (.v4 ⟨readOctets bytes h, readPort 4 bytes⟩)
      else if h : bytes.length = 18 then .ok (.v6 ⟨readOctets bytes h, readPort 16 bytes, 0, 0⟩)
      else .error .invalidAddr

section

variable {n : Nat} (ip : List.Vector UInt8 n) (port : UInt16)

@[simp]
theorem octetsAndPort_length : (octetsAndPort ip port).length = n + 2 := by
  simp [octetsAndPort]

private theorem readOctets_octetsAndPort (h : (octetsAndPort ip port).length = n + 2) :
    readOctets (octetsAndPort ip port) h = ip := by
  apply Subtype.ext
  exact List.take_left' ip.toList_length

private theorem readPort_octetsAndPort : readPort n (octetsAndPort ip port) = port := by
  have hdrop : (octetsAndPort ip port).drop n = toBeBytes 2 port.toNat :=
    List.drop_left' ip.toList_length
  have hlen : (toBeBytes 2 port.toNat).length = 2 := toBeBytes_length 2 port.toNat
  rw [readPort, hdrop, List.take_of_length_le hlen.le, fromBeBytes_toBeBytes port.toNat_lt,
    UInt16.ofNat_toNat]

end

private theorem octetsAndPort_read {n : Nat} {bytes : List UInt8} (h : bytes.length = n + 2) :
    octetsAndPort (readOctets bytes h) (readPort n bytes) = bytes := by
  have hlen : (bytes.drop n).length = 2 := by
    rw [List.length_drop]
    omega
  have hlt : fromBeBytes (bytes.drop n) < 2 ^ 16 := by
    have hbytes := fromBeBytes_lt (bytes.drop n)
    rwa [hlen] at hbytes
  have hport : toBeBytes 2 (readPort n bytes).toNat = bytes.drop n := by
    rw [readPort, List.take_of_length_le hlen.le, UInt16.toNat_ofNat_of_lt' hlt]
    have hword := toBeBytes_fromBeBytes (bytes.drop n)
    rwa [hlen] at hword
  rw [octetsAndPort, hport]
  exact List.take_append_drop n bytes

namespace SocketAddr

/-- The part of an address that is written. -/
def bare : SocketAddr → SocketAddr
  | .v4 addr => .v4 addr
  | .v6 addr => .v6 { addr with flowinfo := 0, scopeId := 0 }

theorem bare_eq_self_iff {sa : SocketAddr} :
    sa.bare = sa ↔ ∀ addr, sa = .v6 addr → addr.flowinfo = 0 ∧ addr.scopeId = 0 := by
  cases sa with
  | v4 addr => simp [bare]
  | v6 addr =>
      obtain ⟨ip, port, flowinfo, scopeId⟩ := addr
      simp [bare, eq_comm]

private theorem tryFrom_fromSocketAddr (parse : String → Option SocketAddr) (sa : SocketAddr) :
    tryFrom parse (AddressRepr.fromSocketAddr sa) = .ok sa.bare := by
  cases sa with
  | v4 addr =>
      have hlen : (octetsAndPort addr.ip addr.port).length = 6 := octetsAndPort_length _ _
      rw [AddressRepr.fromSocketAddr, tryFrom, dif_pos hlen, readOctets_octetsAndPort,
        readPort_octetsAndPort, bare]
  | v6 addr =>
      have hlen : (octetsAndPort addr.ip addr.port).length = 18 := octetsAndPort_length _ _
      rw [AddressRepr.fromSocketAddr, tryFrom, dif_neg (by omega), dif_pos hlen,
        readOctets_octetsAndPort, readPort_octetsAndPort, bare]

private theorem fromSocketAddr_of_tryFrom {parse : String → Option SocketAddr} {bytes : List UInt8}
    {sa : SocketAddr} (h : tryFrom parse (.bytes bytes) = .ok sa) :
    AddressRepr.fromSocketAddr sa = .bytes bytes := by
  rw [tryFrom] at h
  by_cases hv4 : bytes.length = 6
  · rw [dif_pos hv4] at h
    cases h
    exact congrArg AddressRepr.bytes (octetsAndPort_read hv4)
  rw [dif_neg hv4] at h
  by_cases hv6 : bytes.length = 18
  · rw [dif_pos hv6] at h
    cases h
    exact congrArg AddressRepr.bytes (octetsAndPort_read hv6)
  · rw [dif_neg hv6] at h
    cases h

/-- Exactly the addresses without flow info and scope id survive being shared. What is read
from bytes is always written as the same bytes. -/
theorem survives_sharing_iff (parse : String → Option SocketAddr) :
    (∀ sa, tryFrom parse (AddressRepr.fromSocketAddr sa) = .ok sa ↔
      ∀ addr, sa = .v6 addr → addr.flowinfo = 0 ∧ addr.scopeId = 0) ∧
    ∀ bytes sa, tryFrom parse (.bytes bytes) = .ok sa →
      AddressRepr.fromSocketAddr sa = .bytes bytes := by
  constructor
  · intro sa
    rw [tryFrom_fromSocketAddr, Except.ok.injEq]
    exact bare_eq_self_iff
  · intro bytes sa h
    exact fromSocketAddr_of_tryFrom h

/-- The bytes of `127.0.0.1:80`. -/
theorem survives_sharing_iff_localhost :
    AddressRepr.fromSocketAddr (.v4 ⟨⟨[127, 0, 0, 1], rfl⟩, 80⟩) = .bytes [127, 0, 0, 1, 0, 80] :=
  (survives_sharing_iff fun _ => none).2 _ _ (by decide)

/-- The address `fe80::1` at port 443 in the zone of one interface. -/
def linkLocal (scopeId : UInt32) : SocketAddr :=
  .v6 ⟨⟨[254, 128, 0, 0, 0, 0, 0, 0, 0, 0, 0, 0, 0, 0, 0, 1], rfl⟩, 443, 0, scopeId⟩

/-- A link-local address comes back without its scope id. -/
theorem sharing_loses_scope :
    tryFrom (fun _ => none) (AddressRepr.fromSocketAddr (linkLocal 3)) = .ok (linkLocal 0) ∧
      linkLocal 0 ≠ linkLocal 3 := by
  decide

end SocketAddr

end LinkSet
