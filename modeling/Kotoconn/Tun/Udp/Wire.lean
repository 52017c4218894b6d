import Kotoconn.Lib.OnesComplement
import Kotoconn.Tun.Packet.Wire

/-! # What the UDP code writes and reads through smoltcp -/

namespace Kotoconn.Tun

open Lib

/-- The accessors of `UdpPacket` on a buffer. -/
structure UdpPacket where
  srcPort : Nat
  dstPort : Nat
  len : Nat
  checksum : Nat
  deriving DecidableEq

structure UdpWire where
  /-- `Ipv4Repr::emit` -/
  ipv4Header : Ipv4Repr → Bytes
  /-- `Ipv4Repr::emit`, then `set_ident`, `set_dont_frag(false)`, `set_more_frags`, `set_frag_offset` and
  `fill_checksum` -/
  ipv4Fragment : Ipv4Repr → (ident : Nat) → (more : Bool) → (offset : Nat) → Bytes
  /-- `Ipv6Repr::emit` -/
  ipv6Header : Ipv6Repr → Bytes
  /-- `Ipv6FragmentRepr::emit`, the six bytes after the next header and the reserved byte -/
  ipv6Fragment : Ipv6FragmentRepr → Bytes
  udpHeader : (srcPort dstPort len checksum : Nat) → Bytes
  /-- `UdpRepr::emit` with the payload copied in -/
  udpEmit : (srcPort dstPort : Nat) → (src dst : IpAddress) → (payload : Bytes) → Bytes
  /-- `checksum::pseudo_header` -/
  pseudoHeader : (src dst : IpAddress) → IpProtocol → (length : Nat) → Nat
  /-- `checksum::data` -/
  checksumData : Bytes → Nat
  /-- `checksum::combine` -/
  checksumCombine : List Nat → Nat
  /-- `UdpPacket::new_checked` succeeds -/
  udpChecked : Bytes → Bool
  udp : Bytes → UdpPacket
  /-- `UdpRepr::parse` succeeds; `verified` turns its checksum test off -/
  udpParse : (data : Bytes) → (src dst : IpAddress) → (verified : Bool) → Bool

structure IpWire.IsIpv4 (w : IpWire) (data : Bytes) (packet : Ipv4Packet) : Prop where
  version : w.ofPacket data = some .ipv4
  checked : w.ipv4Checked data = true
  fields : w.ipv4 data = packet

/-- The UDP checksum of `data` verifies. -/
def UdpWire.Verifies (u : UdpWire) (src dst : IpAddress) (data : Bytes) : Prop :=
  u.checksumCombine [u.pseudoHeader src dst .udp data.length, u.checksumData data] = 0xffff

structure UdpWire.Inverse (u : UdpWire) (w : IpWire) : Prop where
  ipv4Header_length : ∀ r, (u.ipv4Header r).length = 20
  ipv4Header_reads : ∀ r payload, r.nextHeader = .udp → r.hopLimit < 256 → payload.length = r.payloadLen →
    20 + r.payloadLen < 65536 → ∃ ident, w.IsIpv4 (u.ipv4Header r ++ payload)
      ⟨4, 20, 20 + r.payloadLen, ident, false, 0, r.hopLimit, .udp, r.srcAddr, r.dstAddr, true⟩
  ipv4Fragment_length : ∀ r ident more offset, (u.ipv4Fragment r ident more offset).length = 20
  ipv4Fragment_reads : ∀ r ident more offset payload, r.nextHeader = .udp → r.hopLimit < 256 →
    payload.length = r.payloadLen → 20 + r.payloadLen < 65536 → ident < 65536 → offset < 65536 → offset % 8 = 0 →
    w.IsIpv4 (u.ipv4Fragment r ident more offset ++ payload)
      ⟨4, 20, 20 + r.payloadLen, ident, more, offset, r.hopLimit, .udp, r.srcAddr, r.dstAddr, true⟩
  ipv6Header_length : ∀ r, (u.ipv6Header r).length = 40
  ipv6Header_reads : ∀ r payload, r.nextHeader = .udp ∨ r.nextHeader = .ipv6Frag → r.hopLimit < 256 →
    payload.length = r.payloadLen → r.payloadLen < 65536 →
    w.ofPacket (u.ipv6Header r ++ payload) = some .ipv6 ∧ w.ipv6 (u.ipv6Header r ++ payload) = some r
  ipv6Fragment_length : ∀ f, (u.ipv6Fragment f).length = 6
  ipv6Fragment_reads : ∀ f, f.fragOffset < 8192 → f.ident < 2 ^ 32 → w.fragmentHeader (u.ipv6Fragment f) = some f
  udpHeader_length : ∀ src dst len checksum, (u.udpHeader src dst len checksum).length = 8
  udpHeader_checksum : ∀ src dst len checksum, checksum < 65536 →
    u.udpHeader src dst len checksum = (u.udpHeader src dst len 0).take 6 ++ toBytes 2 checksum
  udp_reads : ∀ src dst checksum payload, src < 65536 → dst < 65536 → 8 + payload.length < 65536 → checksum < 65536 →
    u.udpChecked (u.udpHeader src dst (8 + payload.length) checksum ++ payload) = true ∧
    u.udp (u.udpHeader src dst (8 + payload.length) checksum ++ payload) = ⟨src, dst, 8 + payload.length, checksum⟩
  udpEmit_eq : ∀ srcPort dstPort src dst payload, 8 + payload.length < 65536 → ∃ checksum, 0 < checksum ∧
    checksum < 65536 ∧ u.udpEmit srcPort dstPort src dst payload =
      u.udpHeader srcPort dstPort (8 + payload.length) checksum ++ payload ∧
    u.Verifies src dst (u.udpEmit srcPort dstPort src dst payload)
  udpParse_accepts : ∀ data src dst, u.udpChecked data = true → (u.udp data).len = data.length →
    (u.udp data).dstPort ≠ 0 → u.Verifies src dst data → u.udpParse data src dst false = true
  checksumData_eq : ∀ data, u.checksumData data = onesSum data
  checksumCombine_eq : ∀ sums, u.checksumCombine sums = fold sums.sum

end Kotoconn.Tun
