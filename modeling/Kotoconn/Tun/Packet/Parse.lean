import Kotoconn.Lib.Exec
import Kotoconn.Tun.Packet.Wire

/-!
# `packet.rs`: validating an IP packet

`parse` checks the IP header, walks IPv4 options or IPv6 extension headers, and returns the transport payload with
the fragment it belongs to, if any.

`parse`, `ipv4Options`, `ipv6Extensions`, `unicast`: the code, in `Exec`, so that each slice, index and subtraction is
checked and each loop turn counted.

A borrowed payload is its bytes and the offset `start` at which it stands in the buffer.
-/

namespace Kotoconn.Tun

open Lib

structure SocketAddr where
  ip : IpAddress
  port : Nat
  deriving DecidableEq

structure Flow where
  source : SocketAddr
  destination : SocketAddr
  deriving DecidableEq

structure FragmentKey where
  ipv4Protocol : Option IpProtocol
  source : IpAddress
  destination : IpAddress
  id : Nat
  deriving DecidableEq

structure Fragment where
  id : Nat
  offset : Nat
  more : Bool
  prefixLen : Nat
  deriving DecidableEq

inductive RouteKey where
  | flow (protocol : UInt8) (flow : Flow)
  | fragment (key : FragmentKey)
  deriving DecidableEq

structure Parsed where
  ip : IpRepr
  payload : Bytes
  start : Nat
  fragment : Option Fragment
  deriving DecidableEq

/-! ## Addresses -/

namespace Ipv4Address

def octet0 (a : Ipv4Address) : Nat := a.toNat / 2 ^ 24

def isUnspecified (a : Ipv4Address) : Bool := a == 0

def isMulticast (a : Ipv4Address) : Bool := a.octet0 / 16 == 14

def isBroadcast (a : Ipv4Address) : Bool := a == BitVec.allOnes 32

end Ipv4Address

namespace Ipv6Address

def isUnspecified (a : Ipv6Address) : Bool := a == 0

def isMulticast (a : Ipv6Address) : Bool := a.toNat / 2 ^ 120 == 255

/-- `to_ipv4_mapped` of `::ffff:a.b.c.d`. -/
def toIpv4Mapped (a : Ipv6Address) : Option Ipv4Address :=
  if a.toNat / 2 ^ 32 = 0xffff then some (BitVec.ofNat 32 a.toNat) else none

end Ipv6Address

def unicast : IpAddress → Bool
  | .ipv4 ip => !ip.isUnspecified && !ip.isMulticast && !ip.isBroadcast && ip.octet0 != 0 && ip.octet0 < 240
  | .ipv6 ip => !ip.isUnspecified && !ip.isMulticast && ip.toIpv4Mapped.isNone

/-! ## The walks -/

open Exec in
/-- `ipv4_options` with `n` bytes of options at most: one turn for each option. -/
def ipv4OptionsFrom : Nat → Bytes → Exec Bool
  | _, [] => pure true
  | 0, _ :: _ => panic
  | n + 1, kind :: rest => do
      tick
      let options := kind :: rest
      if kind = 0 then pure true
      else if kind = 1 then ipv4OptionsFrom n (← slice options 1 options.length)
      -- loose and strict source route
      else if kind = 131 ∨ kind = 137 then pure false
      else match options[1]? with
        | none => pure false
        | some len =>
          if len.toNat < 2 ∨ options.length < len.toNat then pure false
          else ipv4OptionsFrom n (← slice options len.toNat options.length)

def ipv4Options (options : Bytes) : Exec Bool := ipv4OptionsFrom options.length options

open Exec in
/-- The options of one extension header: each must be well formed, and an unknown one must ask to be skipped. -/
def ipv6Options (w : IpWire) : List (Option Ipv6OptionRepr) → Exec Unit
  | [] => pure ()
  | option :: options => do
      tick
      match ← ofOption option with
      | .known => ipv6Options w options
      | .unknown type => do
          guard (w.failureType type == .skip)
          ipv6Options w options

open Exec in
/-- The chain from the header numbered `8 - n` on. -/
def ipv6ExtensionsFrom (w : IpWire) (initialLen : Nat) :
    Nat → IpProtocol → Bytes → Exec (IpProtocol × Bytes × Option Fragment)
  | 0, _, _ => reject
  | n + 1, protocol, payload => do
      tick
      match protocol with
      | .hopByHop | .ipv6Opts =>
        guard !(protocol == .hopByHop && n + 1 != 8)
        let repr ← ofOption (w.extHeader payload)
        ipv6Options w (w.options repr.data)
        let rest ← slice payload (repr.headerLen + repr.data.length) payload.length
        ipv6ExtensionsFrom w initialLen n repr.nextHeader rest
      | .ipv6Frag =>
        guard (8 ≤ payload.length)
        let header ← slice payload 0 8
        let fragment ← ofOption (w.fragmentHeader (← slice header 2 header.length))
        let protocol := IpProtocol.ofNumber (← index header 0)
        guard (protocol == .tcp || protocol == .udp || protocol == .icmpv6)
        let offset := fragment.fragOffset * 8
        let rest ← slice payload 8 payload.length
        let prefixLen ← sub initialLen payload.length
        pure (protocol, rest, if offset ≠ 0 ∨ fragment.moreFrags then
          some ⟨fragment.ident, offset, fragment.moreFrags, prefixLen⟩ else none)
      | .tcp | .udp | .icmpv6 => pure (protocol, payload, none)
      | .unknown _ => reject

def ipv6Extensions (w : IpWire) (protocol : IpProtocol) (payload : Bytes) :
    Exec (IpProtocol × Bytes × Option Fragment) :=
  ipv6ExtensionsFrom w payload.length 8 protocol payload

/-! ## The packet -/

open Exec in
def parseIpv4 (w : IpWire) (data : Bytes) : Exec Parsed := do
  guard (w.ipv4Checked data)
  let packet := w.ipv4 data
  guard (packet.version == 4 && packet.verifyChecksum)
  let payload ← slice data packet.headerLen packet.totalLen
  let options ← slice data 20 packet.headerLen
  guard (← ipv4Options options)
  let fragment : Option Fragment := if packet.moreFrags ∨ packet.fragOffset ≠ 0 then
    some ⟨packet.ident, packet.fragOffset, packet.moreFrags, packet.headerLen⟩ else none
  guard !(fragment.any fun f => payload.isEmpty || f.offset + payload.length > 65515 ||
    (f.more && payload.length % 8 != 0))
  pure ⟨.ipv4 ⟨packet.srcAddr, packet.dstAddr, packet.nextHeader, payload.length, packet.hopLimit⟩, payload,
    packet.headerLen, fragment⟩

open Exec in
def parseIpv6 (w : IpWire) (data : Bytes) : Exec Parsed := do
  let repr ← ofOption (w.ipv6 data)
  let initial ← slice data 40 (40 + repr.payloadLen)
  let (protocol, payload, fragment) ← ipv6Extensions w repr.nextHeader initial
  -- the payload is a suffix of `initial`
  pure ⟨.ipv6 { repr with nextHeader := protocol, payloadLen := payload.length }, payload,
    40 + (initial.length - payload.length), fragment⟩

open Exec in
def parse (w : IpWire) (data : Bytes) : Exec Parsed := do
  let _ ← ofOption data.head?
  let parsed ← match ← ofOption (w.ofPacket data) with
    | .ipv4 => parseIpv4 w data
    | .ipv6 => parseIpv6 w data
  guard (unicast parsed.ip.srcAddr && unicast parsed.ip.dstAddr && parsed.ip.hopLimit != 0)
  pure parsed

namespace Parsed

def fragmentKey (p : Parsed) : Option FragmentKey :=
  p.fragment.map fun f =>
    ⟨if p.ip.isIpv4 then some p.ip.nextHeader else none, p.ip.srcAddr, p.ip.dstAddr, f.id⟩

def firstRoute (p : Parsed) : Option RouteKey :=
  if p.fragment.any (fun f => f.offset != 0) then none
  else if p.ip.nextHeader ≠ .tcp ∧ p.ip.nextHeader ≠ .udp then none
  else match p.payload with
    | s1 :: s0 :: d1 :: d0 :: _ =>
      let source := s1.toNat * 256 + s0.toNat
      let destination := d1.toNat * 256 + d0.toNat
      if destination ≠ 0 then
        some (.flow p.ip.nextHeader.number ⟨⟨p.ip.srcAddr, source⟩, ⟨p.ip.dstAddr, destination⟩⟩)
      else none
    | _ => none

def route (p : Parsed) : Option RouteKey :=
  match p.fragmentKey with
  | some key => some (.fragment key)
  | none => p.firstRoute

end Parsed

open Exec in
def offloadTransport (w : IpWire) (data : Bytes) : Exec (IpProtocol × Nat) := do
  let parsed ← parse w data
  guard parsed.fragment.isNone
  pure (parsed.ip.nextHeader, parsed.start)

end Kotoconn.Tun
