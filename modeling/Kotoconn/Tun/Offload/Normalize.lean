import Kotoconn.Tun.Endpoint
import Kotoconn.Tun.Packet.Parse

/-!
# `offload.rs`: frames with a virtio header

`normalize`, `pollFrame`: the code; a failed bounds check is `ReceiveError.panic`.
-/

namespace Kotoconn.Tun

open Lib

/-! ## The platform -/

structure VirtioNetHdr where
  flags : Nat
  gsoType : Nat
  hdrLen : Nat
  gsoSize : Nat
  csumStart : Nat
  csumOffset : Nat
  deriving DecidableEq

def virtioNetHdrLen : Nat := 10
def virtioNetHdrGsoTcpv4 : Nat := 1
def virtioNetHdrGsoTcpv6 : Nat := 4
def virtioNetHdrGsoUdpL4 : Nat := 5

def maxIpPacket : Nat := 65575

structure OffloadWire where
  ip : IpWire
  /-- `VirtioNetHdr::decode` -/
  decode : Bytes → Option VirtioNetHdr
  /-- `Ipv6Packet::set_payload_len` -/
  setPayloadLen : Bytes → Nat → Bytes
  /-- `Ipv4Packet::set_total_len` -/
  setTotalLen : Bytes → Nat → Bytes
  /-- `Ipv4Packet::fill_checksum` -/
  fillChecksum : Bytes → Bytes
  /-- `TcpPacket::new_checked` succeeds -/
  tcpChecked : Bytes → Bool
  /-- `UdpPacket::new_checked` succeeds -/
  udpChecked : Bytes → Bool
  /-- `UdpPacket::set_len` -/
  setLen : Bytes → Nat → Bytes

/-! ## The code -/

/-- Why `poll_frame` fails. -/
inductive ReceiveError where
  /-- `VirtioNetHdr::decode` fails -/
  | short
  | invalid (message : String)
  | panic
  deriving DecidableEq

abbrev Receive := Except ReceiveError

def invalid {α : Type} (message : String) : Receive α := .error (.invalid message)

/-- `data[lo..]` -/
def sliceFrom (data : Bytes) (lo : Nat) : Receive Bytes := if lo ≤ data.length then .ok (data.drop lo) else .error .panic

namespace OffloadWire

def header (e : OffloadWire) (frame : Bytes) : Receive VirtioNetHdr :=
  match e.decode frame with
  | some header => .ok header
  | none => .error .short

def isV6 (packet : Bytes) : Receive Bool :=
  match packet.head?.map (·.toNat / 16) with
  | some 4 => .ok false
  | some 6 => .ok true
  | _ => invalid "invalid offload IP version"

def resize (e : OffloadWire) (isV6 : Bool) (packet : Bytes) : Receive Bytes :=
  if isV6 then
    if 40 ≤ packet.length ∧ packet.length - 40 ≤ 65535 then .ok (e.setPayloadLen packet (packet.length - 40))
    else invalid "invalid GSO IPv6 size"
  else if 65535 < packet.length then invalid "invalid GSO IPv4 size"
  else if e.ip.ipv4Checked packet then .ok (e.fillChecksum (e.setTotalLen packet packet.length))
  else invalid "short GSO IPv4 header"

def lengths (e : OffloadWire) (gso isV6 : Bool) (packet : Bytes) : Receive Bytes :=
  if gso then e.resize isV6 packet else .ok packet

def transport (e : OffloadWire) (packet : Bytes) : Receive (IpProtocol × Nat) :=
  match (offloadTransport e.ip packet).result with
  | .ok found => .ok found
  | .reject => invalid "invalid offload IP header or fragmented frame"
  | .panic => .error .panic

def expectedOffset : IpProtocol → Receive Nat
  | .tcp => .ok 16
  | .udp => .ok 6
  | _ => invalid "unsupported offload transport"

def segment (e : OffloadWire) (header : VirtioNetHdr) (isV6 : Bool) (protocol : IpProtocol) (packet : Bytes)
    (start : Nat) : Receive (Option Nat × Bytes) := do
  let gso := header.gsoType != 0
  let body ← sliceFrom packet start
  if protocol == .tcp then
    if !e.tcpChecked body then invalid "short offload TCP header"
    else if gso && header.gsoType != (if isV6 then virtioNetHdrGsoTcpv6 else virtioNetHdrGsoTcpv4) then
      invalid "GSO type does not match TCP"
    else .ok (none, packet)
  else if 65535 < body.length then invalid "invalid offload UDP size"
  else if !e.udpChecked body then invalid "short offload UDP header"
  else if !gso then .ok (none, packet)
  else if header.gsoType != virtioNetHdrGsoUdpL4 then invalid "GSO type does not match UDP"
  else .ok (some header.gsoSize, packet.take start ++ e.setLen body body.length)

def describe (e : OffloadWire) (header : VirtioNetHdr) (isV6 : Bool) (packet : Bytes) : Receive (Option Nat × Bytes) := do
  let gso := header.gsoType != 0
  let (protocol, start) ← e.transport packet
  let offset ← expectedOffset protocol
  if (gso || header.flags % 2 != 0) && (header.csumStart != start || header.csumOffset != offset) then
    invalid "offload checksum metadata does not match transport"
  else e.segment header isV6 protocol packet start

/-- `normalize`, with the frame it leaves. -/
def normalize (e : OffloadWire) (frame : Bytes) : Receive (Bool × Option Nat × Bytes) := do
  let header ← e.header frame
  let packet ← sliceFrom frame virtioNetHdrLen
  let gso := header.gsoType != 0
  let verified := header.flags % 4 != 0
  if !gso && !verified then .ok (false, none, frame)
  else if gso && (header.gsoSize == 0 || !verified) then invalid "invalid GSO checksum or segment size"
  else do
    let isV6 ← isV6 packet
    let packet ← e.lengths gso isV6 packet
    let (size, packet) ← e.describe header isV6 packet
    .ok (true, size, frame.take virtioNetHdrLen ++ packet)

/-- `Receiver::poll_frame` on the bytes that the device returned. -/
def pollFrame (e : OffloadWire) (offload : Bool) (frame : Bytes) : Receive Received := do
  let lease := maxIpPacket + if offload then virtioNetHdrLen else 0
  if lease < frame.length then .error .panic
  else do
    let (verified, size, frame) ← if offload then e.normalize frame else .ok (false, none, frame)
    let (bytes, allocationSize) := ReceiveBuffer.publish lease frame
    let bytes ← if offload then sliceFrom bytes virtioNetHdrLen else .ok bytes
    .ok ⟨bytes, allocationSize, verified, size⟩

/-! ## The frames that pass -/

section Passes
variable {α β : Type} {c : Prop} [Decidable c] {error : ReceiveError} {x : Receive α} {f : α → Receive β} {a : α}

theorem exists_ok_bind : (∃ r, (x >>= f) = .ok r) ↔ ∃ a, x = .ok a ∧ ∃ r, f a = .ok r := by
  simp only [except_bind_eq_ok]
  exact ⟨fun ⟨r, a, h, hr⟩ => ⟨a, h, r, hr⟩, fun ⟨a, h, r, hr⟩ => ⟨r, a, h, hr⟩⟩

theorem exists_ok_check : (∃ r, (if c then .error error else x) = .ok r) ↔ ¬ c ∧ ∃ r, x = .ok r := by
  split_ifs with h <;> simp [h]

theorem exists_ok_early : (∃ r, (if c then .ok a else x) = .ok r) ↔ c ∨ ∃ r, x = .ok r := by
  split_ifs with h <;> simp [h]

end Passes

theorem sliceFrom_eq_ok {data body : Bytes} {lo : Nat} :
    sliceFrom data lo = .ok body ↔ lo ≤ data.length ∧ body = data.drop lo := by
  unfold sliceFrom
  split_ifs with h
  · simp [h, eq_comm]
  · simp [h]

variable {e : OffloadWire} {header : VirtioNetHdr} {frame frame' packet : Bytes} {v6 : Bool} {size : Option Nat}

theorem header_eq_ok_iff : e.header frame = .ok header ↔ e.decode frame = some header := by
  unfold OffloadWire.header
  cases e.decode frame <;> simp

theorem parseIpv4_start_le {w : IpWire} {p : Parsed} (h : (parseIpv4 w packet).result = .ok p) :
    p.start ≤ packet.length := by
  obtain ⟨_, -, h⟩ := Exec.bind_eq_ok.1 h
  obtain ⟨_, -, h⟩ := Exec.bind_eq_ok.1 h
  obtain ⟨_, hpayload, h⟩ := Exec.bind_eq_ok.1 h
  obtain ⟨_, -, h⟩ := Exec.bind_eq_ok.1 h
  obtain ⟨_, -, h⟩ := Exec.bind_eq_ok.1 h
  obtain ⟨_, -, h⟩ := Exec.bind_eq_ok.1 h
  obtain ⟨_, -, h⟩ := Exec.bind_eq_ok.1 h
  cases h
  obtain ⟨⟨hlo, hhi⟩, -⟩ := Exec.slice_eq_ok.1 hpayload
  exact le_trans hlo hhi

theorem parseIpv6_start_le {w : IpWire} {p : Parsed} (h : (parseIpv6 w packet).result = .ok p) :
    p.start ≤ packet.length := by
  obtain ⟨_, -, h⟩ := Exec.bind_eq_ok.1 h
  obtain ⟨_, hinitial, h⟩ := Exec.bind_eq_ok.1 h
  obtain ⟨⟨_, _, _⟩, -, h⟩ := Exec.bind_eq_ok.1 h
  cases h
  obtain ⟨⟨-, _⟩, rfl⟩ := Exec.slice_eq_ok.1 hinitial
  simp only [length_slice]
  omega

theorem parse_start_le {w : IpWire} {p : Parsed} (h : (parse w packet).result = .ok p) : p.start ≤ packet.length := by
  obtain ⟨_, -, h⟩ := Exec.bind_eq_ok.1 h
  obtain ⟨version, -, h⟩ := Exec.bind_eq_ok.1 h
  cases version with
  | ipv4 =>
    obtain ⟨q, hq, h⟩ := Exec.bind_eq_ok.1 h
    obtain ⟨_, -, h⟩ := Exec.bind_eq_ok.1 h
    cases h
    exact parseIpv4_start_le hq
  | ipv6 =>
    obtain ⟨_, hq, h⟩ := Exec.bind_eq_ok.1 h
    obtain ⟨_, -, h⟩ := Exec.bind_eq_ok.1 h
    cases h
    exact parseIpv6_start_le hq

theorem transport_eq_ok {protocol : IpProtocol} {start : Nat} : e.transport packet = .ok (protocol, start) ↔
    ∃ p, (parse e.ip packet).result = .ok p ∧ p.fragment = none ∧ protocol = p.ip.nextHeader ∧ start = p.start := by
  have hfound : ∀ {found}, e.transport packet = .ok found ↔ (offloadTransport e.ip packet).result = .ok found := by
    intro found
    unfold transport invalid
    cases (offloadTransport e.ip packet).result <;> simp
  rw [hfound, offloadTransport, Exec.bind_eq_ok]
  refine exists_congr fun p => and_congr_right fun _ => ?_
  rw [Exec.bind_eq_ok]
  constructor
  · rintro ⟨⟨⟩, hnone, hpure⟩
    cases hpure
    exact ⟨Option.isNone_iff_eq_none.1 (Exec.guard_eq_ok.1 hnone), rfl, rfl⟩
  · rintro ⟨hnone, rfl, rfl⟩
    exact ⟨(), Exec.guard_eq_ok.2 (Option.isNone_iff_eq_none.2 hnone), rfl⟩

/-- The metadata fits the packet: an unfragmented TCP or UDP packet, with its checksum where the metadata says. -/
structure Fits (e : OffloadWire) (header : VirtioNetHdr) (v6 : Bool) (packet : Bytes) (p : Parsed) : Prop where
  parsed : (parse e.ip packet).result = .ok p
  whole : p.fragment = none
  checksum : header.gsoType ≠ 0 ∨ header.flags % 2 ≠ 0 →
    header.csumStart = p.start ∧ expectedOffset p.ip.nextHeader = .ok header.csumOffset
  transport : (p.ip.nextHeader = .tcp ∧ e.tcpChecked (packet.drop p.start) = true ∧ (header.gsoType ≠ 0 →
      header.gsoType = if v6 then virtioNetHdrGsoTcpv6 else virtioNetHdrGsoTcpv4)) ∨
    (p.ip.nextHeader = .udp ∧ (packet.drop p.start).length ≤ 65535 ∧ e.udpChecked (packet.drop p.start) = true ∧
      (header.gsoType ≠ 0 → header.gsoType = virtioNetHdrGsoUdpL4))

theorem segment_eq_ok {protocol : IpProtocol} {start : Nat} (hprotocol : protocol = .tcp ∨ protocol = .udp)
    (hstart : start ≤ packet.length) : (∃ r, e.segment header v6 protocol packet start = .ok r) ↔
    (protocol = .tcp ∧ e.tcpChecked (packet.drop start) = true ∧ (header.gsoType ≠ 0 →
      header.gsoType = if v6 then virtioNetHdrGsoTcpv6 else virtioNetHdrGsoTcpv4)) ∨
    (protocol = .udp ∧ (packet.drop start).length ≤ 65535 ∧ e.udpChecked (packet.drop start) = true ∧
      (header.gsoType ≠ 0 → header.gsoType = virtioNetHdrGsoUdpL4)) := by
  have hbody : sliceFrom packet start = .ok (packet.drop start) := sliceFrom_eq_ok.2 ⟨hstart, rfl⟩
  unfold segment invalid
  rw [hbody, exists_ok_bind]
  rcases hprotocol with rfl | rfl
  · simp only [Except.ok.injEq, exists_eq_left', beq_self_eq_true, if_true, exists_ok_check]
    simp
  · have hudp : (IpProtocol.udp == IpProtocol.tcp) = false := rfl
    simp only [Except.ok.injEq, exists_eq_left', hudp, Bool.false_eq_true, if_false, exists_ok_check, exists_ok_early]
    simp [imp_iff_not_or]

theorem expectedOffset_eq_ok {protocol : IpProtocol} {n : Nat} (h : expectedOffset protocol = .ok n) :
    protocol = .tcp ∨ protocol = .udp := by
  cases protocol <;> first | exact .inl rfl | exact .inr rfl | cases h

theorem describe_eq_ok : (∃ r, e.describe header v6 packet = .ok r) ↔ ∃ p, Fits e header v6 packet p := by
  unfold describe invalid
  simp only [exists_ok_bind, exists_ok_check]
  constructor
  · rintro ⟨⟨_, _⟩, htransport, offset, hoffset, hchecksum, hsegment⟩
    obtain ⟨p, hparse, hwhole, rfl, rfl⟩ := transport_eq_ok.1 htransport
    refine ⟨p, hparse, hwhole, fun hset => ?_, ?_⟩
    · simp only [Bool.and_eq_true, Bool.or_eq_true, bne_iff_ne, not_and_or, not_or, ne_eq, not_not] at hchecksum
      obtain ⟨hstart, rfl⟩ := hchecksum.resolve_left fun hunset => hset.elim (· hunset.1) (· hunset.2)
      exact ⟨hstart, hoffset⟩
    · exact (segment_eq_ok (expectedOffset_eq_ok hoffset) (parse_start_le hparse)).1 hsegment
  · rintro ⟨p, hparse, hwhole, hchecksum, hprotocol⟩
    have htransport : p.ip.nextHeader = .tcp ∨ p.ip.nextHeader = .udp := hprotocol.imp And.left And.left
    obtain ⟨offset, hoffset⟩ : ∃ n, expectedOffset p.ip.nextHeader = .ok n := by
      rcases htransport with h | h <;> exact ⟨_, by rw [h]; rfl⟩
    refine ⟨_, transport_eq_ok.2 ⟨p, hparse, hwhole, rfl, rfl⟩, offset, hoffset, fun hbad => ?_, ?_⟩
    · simp only [Bool.and_eq_true, Bool.or_eq_true, bne_iff_ne, ne_eq] at hbad
      obtain ⟨hstart, hoffset'⟩ := hchecksum hbad.1
      exact hbad.2.elim (· hstart) (· (Except.ok.inj (hoffset'.symm.trans hoffset)))
    · exact (segment_eq_ok htransport (parse_start_le hparse)).2 hprotocol

theorem normalize_halves (h : e.normalize frame = .ok (true, size, frame')) : ∃ header v6 packet packet',
    e.decode frame = some header ∧ virtioNetHdrLen ≤ frame.length ∧ (header.gsoType ≠ 0 → header.gsoSize ≠ 0) ∧
    isV6 (frame.drop virtioNetHdrLen) = .ok v6 ∧
    e.lengths (header.gsoType != 0) v6 (frame.drop virtioNetHdrLen) = .ok packet ∧
    e.describe header v6 packet = .ok (size, packet') ∧ frame' = frame.take virtioNetHdrLen ++ packet' := by
  unfold normalize at h
  obtain ⟨header, hheader, h⟩ := except_bind_eq_ok.1 h
  obtain ⟨packet, hpacket, h⟩ := except_bind_eq_ok.1 h
  obtain ⟨hlen, rfl⟩ := sliceFrom_eq_ok.1 hpacket
  simp only [invalid] at h
  split_ifs at h with hplain hgso
  · cases h
  · obtain ⟨v6, hv6, h⟩ := except_bind_eq_ok.1 h
    obtain ⟨packet, hlengths, h⟩ := except_bind_eq_ok.1 h
    obtain ⟨⟨_, packet'⟩, hdescribe, h⟩ := except_bind_eq_ok.1 h
    cases h
    refine ⟨header, v6, packet, packet', header_eq_ok_iff.1 hheader, hlen, fun htype hzero => hgso ?_,
      hv6, hlengths, hdescribe, rfl⟩
    simp [htype, hzero]

theorem normalize_unverified (h : e.normalize frame = .ok (false, size, frame')) : size = none ∧ frame' = frame := by
  unfold normalize at h
  obtain ⟨_, -, h⟩ := except_bind_eq_ok.1 h
  obtain ⟨packet, -, h⟩ := except_bind_eq_ok.1 h
  simp only [invalid] at h
  split_ifs at h
  · cases h
    exact ⟨rfl, rfl⟩
  · obtain ⟨_, -, h⟩ := except_bind_eq_ok.1 h
    obtain ⟨_, -, h⟩ := except_bind_eq_ok.1 h
    obtain ⟨_, -, h⟩ := except_bind_eq_ok.1 h
    cases h

theorem normalize_length {verified : Bool} (h : e.normalize frame = .ok (verified, size, frame')) :
    virtioNetHdrLen ≤ frame'.length := by
  cases verified with
  | true =>
    obtain ⟨_, _, _, _, -, hlen, -, -, -, -, rfl⟩ := normalize_halves h
    rw [List.length_append, List.length_take, min_eq_left hlen]
    exact le_self_add
  | false =>
    obtain ⟨-, rfl⟩ := normalize_unverified h
    obtain ⟨_, -, h⟩ := except_bind_eq_ok.1 h
    obtain ⟨_, hpacket, -⟩ := except_bind_eq_ok.1 h
    exact (sliceFrom_eq_ok.1 hpacket).1

theorem publish_fst (lease : Nat) (bytes : Bytes) : (ReceiveBuffer.publish lease bytes).1 = bytes := by
  unfold ReceiveBuffer.publish
  split_ifs <;> rfl

theorem pollFrame_of_normalize {verified : Bool}
    (hfits : frame.length ≤ maxIpPacket + virtioNetHdrLen) (h : e.normalize frame = .ok (verified, size, frame')) :
    e.pollFrame true frame = .ok ⟨frame'.drop virtioNetHdrLen,
      (ReceiveBuffer.publish (maxIpPacket + virtioNetHdrLen) frame').2, verified, size⟩ := by
  have hslice := sliceFrom_eq_ok.2 ⟨normalize_length h, rfl⟩
  unfold pollFrame
  simp only [if_true, if_neg (not_lt.2 hfits), h, publish_fst]
  exact except_bind_eq_ok.2 ⟨_, rfl, except_bind_eq_ok.2 ⟨_, hslice, rfl⟩⟩

theorem pollFrame_eq_ok (hfits : frame.length ≤ maxIpPacket + virtioNetHdrLen) :
    (∃ r, e.pollFrame true frame = .ok r) ↔ ∃ r, e.normalize frame = .ok r := by
  constructor
  · rintro ⟨r, h⟩
    unfold pollFrame at h
    simp only [if_true, if_neg (not_lt.2 hfits)] at h
    obtain ⟨r, h, -⟩ := except_bind_eq_ok.1 h
    exact ⟨r, h⟩
  · rintro ⟨⟨_, _, _⟩, h⟩
    exact ⟨_, pollFrame_of_normalize hfits h⟩

end OffloadWire

end Kotoconn.Tun
