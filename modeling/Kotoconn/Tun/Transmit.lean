import Kotoconn.Lib.Loop
import Kotoconn.Tun.Udp.Encoder

/-!
# `endpoint.rs`: the transmit worker

The calls on the device succeed: an error ends `transmit`. The counters of sent packets are left out.
-/

namespace Kotoconn.Tun
open Lib

inductive Transmit where
  | packet (packet : Bytes)
  | tcpGso (packet : Bytes) (payload : List Bytes) (segmentSize : Nat)
  | datagrams (source destination : SocketAddr) (payload : List Bytes)

def charge (len : Nat) : Nat := 2 * len

/-- `Transmit::size`; `size_of::<Bytes>()` is `handle`. -/
def Transmit.size (handle : Nat) : Transmit → Nat
  | .packet bytes => charge bytes.length
  | .tcpGso header payload _ => charge (header.length + (payload.map List.length).sum) + payload.length * handle
  | .datagrams _ _ payload => (payload.map fun bytes => bytes.length + 48).sum

inductive Send where
  | batch (packets : List Bytes)
  | tcpSegments (packet : Bytes) (payload : List Bytes) (segmentSize : Nat)
  | udpSegments (header : Bytes) (parts : List Bytes) (segmentSize : Nat)

/-- `packets` wait for the next flush; `sent` are the calls so far. -/
structure Writer where
  packets : List Bytes
  encoder : Encoder
  sent : List Send

namespace Writer

def send (s : Writer) (call : Send) : Writer := { s with sent := s.sent ++ [call] }

def flush (s : Writer) : Writer := if s.packets = [] then s else { s.send (.batch s.packets) with packets := [] }

/-- The inner loop: further datagrams of the same size join `parts`. -/
def gather (size : Nat) (parts : List Bytes) : List Bytes → List Bytes × List Bytes
  | [] => (parts, [])
  | payload :: pending =>
    if parts.length < 64 ∧ (parts.length + 1) * size ≤ 65507 ∧ payload.length = size then
      gather size (parts ++ [payload]) pending
    else (parts, payload :: pending)

variable (u : UdpWire) (gso : Bool)

def datagramTurn (source destination : SocketAddr) : List Bytes × Writer → Turn (List Bytes × Writer) Writer
  | ([], s) => .done s
  | (payload :: pending, s) =>
    let size := payload.length
    if gso && size != 0 && s.encoder.canOffload source destination size then
      let (parts, pending) := gather size [payload] pending
      match s.encoder.header u source destination size (size * parts.length) with
      | none => .fail
      | some header => .again (pending, s.flush.send (.udpSegments header parts (size % 65536)))
    else
      match (s.encoder.encode u source destination payload).result with
      | .ok (frames, encoder) => .again (pending, { s with packets := s.packets ++ frames, encoder := encoder })
      | .reject => .again (pending, s)
      | .panic => .fail

def item (s : Writer) : Transmit → Option Writer
  | .packet packet => some { s with packets := s.packets ++ [packet] }
  | .tcpGso packet payload segmentSize => some (s.flush.send (.tcpSegments packet payload segmentSize))
  | .datagrams source destination payload => loop (datagramTurn u gso source destination) (payload.length + 1) (payload, s)

/-- One batch of `recv_many`, with the flush after it. -/
def batch (s : Writer) (items : List Transmit) : Option Writer := do
  let s ← items.foldlM (item u gso) s
  some { s.send (.batch s.packets) with packets := [] }

end Writer

inductive Visible where
  | frame (bytes : Bytes)
  | tcp (packet : Bytes) (payload : List Bytes) (segmentSize : Nat)

def wholeFrame (u : UdpWire) (source destination : SocketAddr) (payload : Bytes) : Bytes :=
  let udp := u.udpEmit source.port destination.port source.ip destination.ip payload
  match source.ip, destination.ip with
  | .ipv4 src, .ipv4 dst => u.ipv4Header ⟨src, dst, .udp, 8 + payload.length, 64⟩ ++ udp
  | .ipv6 src, .ipv6 dst => u.ipv6Header ⟨src, dst, .udp, 8 + payload.length, 64⟩ ++ udp
  | _, _ => udp

def headerFlow (w : IpWire) (u : UdpWire) (packet : Bytes) : Option Flow :=
  match w.ofPacket packet with
  | some .ipv4 =>
    let udp := u.udp (packet.drop 20)
    some ⟨⟨.ipv4 (w.ipv4 packet).srcAddr, udp.srcPort⟩, ⟨.ipv4 (w.ipv4 packet).dstAddr, udp.dstPort⟩⟩
  | some .ipv6 =>
    let udp := u.udp (packet.drop 40)
    (w.ipv6 packet).map fun ip => ⟨⟨.ipv6 ip.srcAddr, udp.srcPort⟩, ⟨.ipv6 ip.dstAddr, udp.dstPort⟩⟩
  | none => none

def Send.visible (w : IpWire) (u : UdpWire) : Send → List Visible
  | batch packets => packets.map .frame
  | tcpSegments packet payload segmentSize => [.tcp packet payload segmentSize]
  | udpSegments header parts _ =>
    match headerFlow w u (header ++ parts.flatten) with
    | some flow => parts.map fun part => .frame (wholeFrame u flow.source flow.destination part)
    | none => []

end Kotoconn.Tun
