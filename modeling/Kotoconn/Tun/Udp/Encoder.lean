import Kotoconn.Tun.Packet.Decoder
import Kotoconn.Tun.Udp.Wire

/-! # `udp.rs`: UDP packetization -/

namespace Kotoconn.Tun

open Lib

def IpAddress.isIpv4 : IpAddress → Bool
  | ipv4 _ => true
  | ipv6 _ => false

/-- `udp_with_checksum`; `udp` is the case `verified = false`. -/
def Packet.udpWithChecksum (u : UdpWire) (p : Packet) (verified : Bool) : Option (Flow × Bytes) :=
  if u.udpChecked p.payload then
    let packet := u.udp p.payload
    if !verified && !p.ip.isIpv4 && packet.checksum == 0 then none
    else if u.udpParse p.payload p.ip.srcAddr p.ip.dstAddr verified then
      if packet.dstPort ≠ 0 then
        some (⟨⟨p.ip.srcAddr, packet.srcPort⟩, ⟨p.ip.dstAddr, packet.dstPort⟩⟩, slice p.payload 8 packet.len)
      else none
    else none
  else none

structure Encoder where
  mtu : Nat
  mtu_range : 1280 ≤ mtu ∧ mtu ≤ 65535
  ipv4Id : UInt16
  ipv6Id : UInt32

open Exec in
/-- The `len` bytes at `offset` of the datagram `header ++ payload`. -/
def copyFragment (header payload : Bytes) (offset len : Nat) : Exec Bytes :=
  if offset = 0 then do
    let rest ← slice payload 0 (← sub len header.length)
    pure (header ++ rest)
  else do
    let start ← sub offset header.length
    slice payload start (start + len)

open Exec in
/-- The fragments of a datagram of `length` bytes, `size` bytes each; `header index len` is the IP header. -/
def fragmentFrames (udp payload : Bytes) (length size : Nat) (header : (index len : Nat) → Bytes) : Exec (List Bytes) :=
  collect (fun index => do
    let len := min (← sub length (index * size)) size
    let body ← copyFragment udp payload (index * size) len
    pure (header index len ++ body)) (List.range ((length + size - 1) / size))

def udpFragmentHeader (u : UdpWire) (source destination : SocketAddr) (payload : Bytes) : Bytes :=
  let length := 8 + payload.length
  let sum := 65535 - u.checksumCombine [u.pseudoHeader source.ip destination.ip .udp length,
    u.checksumData (u.udpHeader source.port destination.port length 0), u.checksumData payload]
  u.udpHeader source.port destination.port length (if sum = 0 then 0xffff else sum)

namespace Encoder

open Exec in
/-- The IPv4 branches of `encode`. -/
def encodeIpv4 (u : UdpWire) (enc : Encoder) (source destination : SocketAddr) (src dst : Ipv4Address)
    (payload : Bytes) : Exec (List Bytes × Encoder) := do
  let length := 8 + payload.length
  let repr : Ipv4Repr := ⟨src, dst, .udp, length, 64⟩
  guard (payload.length ≤ 65507)
  if 20 + length ≤ enc.mtu then
    pure ([u.ipv4Header repr ++ u.udpEmit source.port destination.port source.ip destination.ip payload], enc)
  else do
    let header := udpFragmentHeader u source destination payload
    let size := (enc.mtu - 20) / 8 * 8
    let count := (length + size - 1) / size
    let frames ← fragmentFrames header payload length size fun index len =>
      u.ipv4Fragment { repr with payloadLen := len } enc.ipv4Id.toNat (index + 1 < count) (index * size)
    pure (frames, { enc with ipv4Id := enc.ipv4Id + 1 })

open Exec in
/-- The IPv6 branches of `encode`. -/
def encodeIpv6 (u : UdpWire) (enc : Encoder) (source destination : SocketAddr) (src dst : Ipv6Address)
    (payload : Bytes) : Exec (List Bytes × Encoder) := do
  let length := 8 + payload.length
  let repr : Ipv6Repr := ⟨src, dst, .udp, length, 64⟩
  guard (payload.length ≤ 65527)
  if 40 + length ≤ enc.mtu then
    pure ([u.ipv6Header repr ++ u.udpEmit source.port destination.port source.ip destination.ip payload], enc)
  else do
    let header := udpFragmentHeader u source destination payload
    let size := (enc.mtu - 48) / 8 * 8
    let count := (length + size - 1) / size
    let frames ← fragmentFrames header payload length size fun index len =>
      u.ipv6Header { repr with nextHeader := .ipv6Frag, payloadLen := len + 8 } ++
        [IpProtocol.udp.number, 0] ++ u.ipv6Fragment ⟨index * size / 8, index + 1 < count, enc.ipv6Id.toNat⟩
    pure (frames, { enc with ipv6Id := enc.ipv6Id + 1 })

open Exec in
def encode (u : UdpWire) (enc : Encoder) (source destination : SocketAddr) (payload : Bytes) :
    Exec (List Bytes × Encoder) := do
  guard (source.port != 0)
  match source.ip, destination.ip with
  | .ipv4 src, .ipv4 dst => enc.encodeIpv4 u source destination src dst payload
  | .ipv6 src, .ipv6 dst => enc.encodeIpv6 u source destination src dst payload
  | _, _ => reject

def canOffload (enc : Encoder) (source destination : SocketAddr) (size : Nat) : Bool :=
  source.ip.isIpv4 == destination.ip.isIpv4 && source.port != 0 &&
    decide (size + (if source.ip.isIpv4 then 28 else 48) ≤ enc.mtu)

/-- The header of an aggregate of `total` bytes; the checksum is that of the pseudo header, for the device to finish. -/
def header (u : UdpWire) (enc : Encoder) (source destination : SocketAddr) (size total : Nat) : Option Bytes :=
  if !enc.canOffload source destination size || (if source.ip.isIpv4 then 65507 else 65527) < total then none
  else
    let udp := u.udpHeader source.port destination.port ((8 + total) % 65536)
      (u.pseudoHeader source.ip destination.ip .udp (8 + total))
    match source.ip, destination.ip with
    | .ipv4 src, .ipv4 dst => some (u.ipv4Header ⟨src, dst, .udp, 8 + total, 64⟩ ++ udp)
    | .ipv6 src, .ipv6 dst => some (u.ipv6Header ⟨src, dst, .udp, 8 + total, 64⟩ ++ udp)
    | _, _ => none

end Encoder

end Kotoconn.Tun
