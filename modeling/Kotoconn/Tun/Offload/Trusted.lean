import Kotoconn.Tun.Offload.Dispatch
import Kotoconn.Tun.Offload.Marked
import Kotoconn.Tun.WorkerSound

/-! # What offload metadata vouches for -/

namespace Kotoconn.Tun

open Lib List Option

namespace OffloadWire

/-- The first half of `normalize`, which writes the IP length. -/
def relength (e : OffloadWire) (frame : Bytes) : Receive Bytes := do
  let header ← e.header frame
  let packet ← sliceFrom frame virtioNetHdrLen
  let gso := header.gsoType != 0
  let verified := header.flags % 4 != 0
  if !gso && !verified then .ok frame
  else if gso && (header.gsoSize == 0 || !verified) then invalid "invalid GSO checksum or segment size"
  else do
    let isV6 ← isV6 packet
    let packet ← e.lengths gso isV6 packet
    .ok (frame.take virtioNetHdrLen ++ packet)

/-- The frame in the buffer after `normalize`. It may fail after the IP length is written, not after the UDP length. -/
def buffer (e : OffloadWire) (frame : Bytes) : Bytes :=
  match e.normalize frame with
  | .ok (_, _, frame') => frame'
  | .error _ => match e.relength frame with
    | .ok frame' => frame'
    | .error _ => frame

structure Fields (e : OffloadWire) : Prop where
  setPayloadLen : ∀ packet n, 40 ≤ packet.length → n ≤ 65535 → e.setPayloadLen packet n = writeAt packet 4 (toBytes 2 n)
  setTotalLen : ∀ packet n, e.ip.ipv4Checked packet = true → n ≤ 65535 →
    e.setTotalLen packet n = writeAt packet 2 (toBytes 2 n)
  fillChecksum : ∀ packet, 20 ≤ packet.length → ∃ sum, e.fillChecksum packet = writeAt packet 10 (toBytes 2 sum)
  setLen : ∀ body n, e.udpChecked body = true → n ≤ 65535 → e.setLen body n = writeAt body 4 (toBytes 2 n)
  tcpChecked : ∀ body, e.tcpChecked body = true →
    20 ≤ 4 * (numberAt body 12 1 / 16) ∧ 4 * (numberAt body 12 1 / 16) ≤ body.length
  udpChecked : ∀ body, e.udpChecked body = true → 8 ≤ body.length

end OffloadWire

/-! ## The statement -/

def CompleteHeader : IpProtocol → Bytes → Prop
  | .tcp, body => 20 ≤ 4 * (numberAt body 12 1 / 16) ∧ 4 * (numberAt body 12 1 / 16) ≤ body.length
  | .udp, body => 8 ≤ body.length
  | _, _ => False

def ipLength (v6 : Bool) (packet : Bytes) : Nat := if v6 then 40 + numberAt packet 4 2 else numberAt packet 2 2

/-- `normalize` accepts the metadata of `packet`. -/
structure Trusted (e : OffloadWire) (header : VirtioNetHdr) (size : Option Nat) (packet : Bytes) (p : Parsed) :
    Prop where
  parsed : (parse e.ip packet).result = .ok p
  whole : p.fragment = none
  transport : p.ip.nextHeader = .tcp ∨ p.ip.nextHeader = .udp
  unicast : unicast p.ip.srcAddr = true ∧ unicast p.ip.dstAddr = true
  complete : CompleteHeader p.ip.nextHeader (packet.drop p.start)
  /-- `VIRTIO_NET_HDR_F_NEEDS_CSUM` is bit 0 -/
  checksum : header.flags % 2 ≠ 0 ∨ header.gsoType ≠ 0 →
    header.csumStart = p.start ∧ header.csumOffset = if p.ip.nextHeader = .tcp then 16 else 6
  segmented : header.gsoType ≠ 0 → ipLength (!p.ip.isIpv4) packet = packet.length
  tcp : header.gsoType ≠ 0 → p.ip.nextHeader = .tcp →
    header.gsoType = if p.ip.isIpv4 then virtioNetHdrGsoTcpv4 else virtioNetHdrGsoTcpv6
  udp : header.gsoType ≠ 0 → p.ip.nextHeader = .udp → header.gsoType = virtioNetHdrGsoUdpL4 ∧
    numberAt (packet.drop p.start) 4 2 = packet.length - p.start
  size_eq : size = if header.gsoType ≠ 0 ∧ p.ip.nextHeader = .udp then some header.gsoSize else none
  size_ne : size ≠ some 0

/-- Where `normalize` writes the IP length and the header checksum of a packet. -/
def IpField (v6 : Bool) (i : Nat) : Prop :=
  if v6 then 4 ≤ i ∧ i < 6 else (2 ≤ i ∧ i < 4) ∨ (10 ≤ i ∧ i < 12)

def UdpLengthField (e : OffloadWire) (frame : Bytes) (i : Nat) : Prop :=
  ∃ size frame' p, e.normalize frame = .ok (true, some size, frame') ∧
    (parse e.ip (frame'.drop virtioNetHdrLen)).result = .ok p ∧ p.start + 4 ≤ i ∧ i < p.start + 6

/-- The bytes of a GSO frame that `normalize` may write. -/
def GsoField (e : OffloadWire) (frame : Bytes) (i : Nat) : Prop :=
  ∃ header v6, e.decode frame = some header ∧ header.gsoType ≠ 0 ∧
    OffloadWire.isV6 (frame.drop virtioNetHdrLen) = .ok v6 ∧ virtioNetHdrLen ≤ i ∧
    (IpField v6 (i - virtioNetHdrLen) ∨ UdpLengthField e frame (i - virtioNetHdrLen))

/-- The sum over `data` and its pseudo header is right. -/
def TransportWire.Sums (t : TransportWire) (protocol : IpProtocol) (src dst : IpAddress) (data : Bytes) : Prop :=
  t.udp.checksumCombine [t.udp.pseudoHeader src dst protocol data.length, t.udp.checksumData data] = 0xffff

structure TransportWire.Tests (t : TransportWire) : Prop where
  tcp : ∀ data src dst repr, t.tcpChecked data = true → t.tcpParse data src dst false = some repr → t.Sums .tcp src dst data
  udp : ∀ data src dst, t.udp.udpChecked data = true → t.udp.udpParse data src dst false = true →
    (t.udp.udp data).checksum = 0 ∨ t.Sums .udp src dst (data.take (t.udp.udp data).len)

def Packet.Verified (t : TransportWire) (p : Packet) : Prop :=
  match p.ip.nextHeader with
  | .tcp => t.Sums .tcp p.ip.srcAddr p.ip.dstAddr p.payload
  | .udp => (p.ip.isIpv4 = true ∧ (t.udp.udp p.payload).checksum = 0) ∨
      t.Sums .udp p.ip.srcAddr p.ip.dstAddr (p.payload.take (t.udp.udp p.payload).len)
  | _ => False

/-! ## Later validation -/

section Later
variable {t : TransportWire} {p : Packet}

theorem tcp_verified (ht : t.Tests) (hnext : p.ip.nextHeader = .tcp) {found : Flow × TcpRepr}
    (h : p.tcpWithChecksum t false = some found) : p.Verified t := by
  unfold Packet.tcpWithChecksum at h
  split_ifs at h with hchecked
  obtain ⟨repr, hparse, -⟩ := bind_eq_some_iff.1 h
  rw [Packet.Verified, hnext]
  exact ht.tcp _ _ _ repr hchecked hparse

theorem udp_verified (ht : t.Tests) (hnext : p.ip.nextHeader = .udp) {found : Flow × Bytes}
    (h : p.udpWithChecksum t.udp false = some found) : p.Verified t := by
  unfold Packet.udpWithChecksum at h
  simp only [Bool.not_false, Bool.true_and] at h
  split_ifs at h with hchecked hzero hparse
  rw [Packet.Verified, hnext]
  rcases ht.udp _ _ _ hchecked hparse with hsum | hsum
  · exact .inl ⟨by simpa [hsum] using hzero, hsum⟩
  · exact .inr hsum

/-- **A packet whose checksum does not verify is dropped**, unless its frame vouches for it. -/
theorem Worker.packet_unverified {env : WorkerEnv} (ht : env.transport.Tests) {s : Worker env} {w : env.World}
    {frame : Option Received} (hframe : frame.any Received.checksumVerified = false)
    (hp : ¬ p.Verified env.transport) : s.packet w p frame = .ok (.ignored, s, w) := by
  unfold Worker.packet
  simp only [hframe]
  split
  · next hnext =>
    cases hfound : p.tcpWithChecksum env.transport false with
    | none => rfl
    | some => exact absurd (tcp_verified ht hnext hfound) hp
  · next hnext =>
    cases hfound : p.udpWithChecksum env.transport.udp false with
    | none => exact ite_self _
    | some => exact absurd (udp_verified ht hnext hfound) hp
  · rfl

end Later

/-! ## The lengths -/

theorem ipLength_of_take {v6 : Bool} {packet packet' : Bytes} {n : Nat} (h : packet'.take n = packet.take n)
    (hn : 6 ≤ n) : ipLength v6 packet' = ipLength v6 packet := by
  unfold ipLength
  rw [numberAt_of_take h 4 2 (by omega), numberAt_of_take h 2 2 (by omega)]

namespace OffloadWire
variable {e : OffloadWire} {header : VirtioNetHdr} {v6 : Bool} {packet packet' frame frame' : Bytes} {size : Option Nat}

theorem resize_eq_ok (hw : e.ip.LengthChecks) (hf : e.Fields) (h : e.resize v6 packet = .ok packet') :
    Rewritten (IpField v6) packet packet' ∧ ipLength v6 packet' = packet.length := by
  unfold resize invalid at h
  cases v6 with
  | true =>
    simp only [if_true] at h
    split_ifs at h with hlen
    obtain rfl := Except.ok.inj h
    rw [hf.setPayloadLen _ _ hlen.1 hlen.2]
    refine ⟨Rewritten.number packet 4 2 (packet.length - 40) (by omega), ?_⟩
    simp only [ipLength, if_true]
    rw [numberAt_writeAt (by omega) (show packet.length - 40 < 256 ^ 2 by omega)]
    omega
  | false =>
    simp only [Bool.false_eq_true, if_false] at h
    split_ifs at h with hlen hchecked
    obtain rfl := Except.ok.inj h
    have h20 : 20 ≤ packet.length := ((hw.ipv4_checked packet).1 hchecked).1
    have htotal : Rewritten (fun i => 2 ≤ i ∧ i < 4) packet (writeAt packet 2 (toBytes 2 packet.length)) :=
      Rewritten.number packet 2 2 packet.length (by omega)
    have h20' : 20 ≤ (writeAt packet 2 (toBytes 2 packet.length)).length := htotal.length.symm ▸ h20
    rw [hf.setTotalLen packet packet.length hchecked (by omega)]
    obtain ⟨sum, hsum⟩ := hf.fillChecksum _ h20'
    have hfill : Rewritten (fun i => 10 ≤ i ∧ i < 12) (writeAt packet 2 (toBytes 2 packet.length))
        (writeAt (writeAt packet 2 (toBytes 2 packet.length)) 10 (toBytes 2 sum)) :=
      Rewritten.number _ 10 2 sum (by omega)
    rw [hsum]
    refine ⟨(htotal.mono fun i hi => .inl hi).trans (hfill.mono fun i hi => .inr hi), ?_⟩
    have hbefore := hfill.take_eq fun i (hi : i < 4) hin => by omega
    simp only [ipLength, Bool.false_eq_true, if_false]
    rw [numberAt_of_take hbefore 2 2 (by decide),
      numberAt_writeAt (by omega) (show packet.length < 256 ^ 2 by omega)]

theorem lengths_eq_ok (hw : e.ip.LengthChecks) (hf : e.Fields) {gso : Bool} (h : e.lengths gso v6 packet = .ok packet') :
    Rewritten (fun i => gso = true ∧ IpField v6 i) packet packet' ∧
      (gso = true → ipLength v6 packet' = packet'.length) := by
  unfold lengths at h
  cases gso with
  | false =>
    obtain rfl := Except.ok.inj h
    exact ⟨.refl _ _, nofun⟩
  | true =>
    obtain ⟨hrewritten, hlength⟩ := resize_eq_ok hw hf h
    exact ⟨hrewritten.mono fun i hi => ⟨rfl, hi⟩, fun _ => hlength.trans hrewritten.length.symm⟩

theorem isV6_eq (hl : e.ip.Local) (hip : e.ip.Fields) (hv6 : isV6 packet = .ok v6)
    (hsame : packet'.take 1 = packet.take 1) {p : Parsed} (hp : (parse e.ip packet').result = .ok p) :
    v6 = !p.ip.isIpv4 := by
  obtain ⟨-, hversion, -⟩ := parse_eq_ok.1 hp
  rw [hl.ofPacket hsame] at hversion
  unfold isV6 invalid at hv6
  cases packet with
  | nil => cases hv6
  | cons =>
    rw [hip.version, IpRepr.version] at hversion
    simp only [head?_cons, map_some] at hv6
    split at hv6
    · next hfour =>
      rw [if_pos (some.inj hfour)] at hversion
      cases hipv4 : p.ip.isIpv4 with
      | true => exact (Except.ok.inj hv6).symm
      | false => simp [hipv4] at hversion
    · next hsix =>
      have hsix := some.inj hsix
      rw [if_neg (by omega), if_pos hsix] at hversion
      cases hipv4 : p.ip.isIpv4 with
      | true => simp [hipv4] at hversion
      | false => exact (Except.ok.inj hv6).symm
    · cases hv6

/-! ## The transport -/

theorem describe_eq (h : e.describe header v6 packet = .ok (size, packet')) : ∃ p, Fits e header v6 packet p ∧
    (size, packet') = if header.gsoType ≠ 0 ∧ p.ip.nextHeader = .udp then
      (some header.gsoSize, packet.take p.start ++ e.setLen (packet.drop p.start) (packet.drop p.start).length)
    else (none, packet) := by
  obtain ⟨p, hfits⟩ := describe_eq_ok.1 ⟨_, h⟩
  refine ⟨p, hfits, ?_⟩
  unfold describe at h
  obtain ⟨⟨_, _⟩, htransport, h⟩ := except_bind_eq_ok.1 h
  obtain ⟨_, hq, -, rfl, rfl⟩ := transport_eq_ok.1 htransport
  obtain rfl := Result.ok.inj (hfits.parsed.symm.trans hq)
  obtain ⟨_, -, h⟩ := except_bind_eq_ok.1 h
  simp only [invalid] at h
  split_ifs at h
  unfold segment at h
  obtain ⟨_, hbody, h⟩ := except_bind_eq_ok.1 h
  obtain ⟨-, rfl⟩ := sliceFrom_eq_ok.1 hbody
  simp only [invalid] at h
  rcases hfits.transport with ⟨htcp, -⟩ | ⟨hudp, -⟩
  · rw [htcp] at h ⊢
    simp only [beq_self_eq_true, if_true] at h
    rw [if_neg (by simp)]
    split_ifs at h <;> exact (Except.ok.inj h).symm
  · have hne : (IpProtocol.udp == IpProtocol.tcp) = false := rfl
    rw [hudp] at h ⊢
    simp only [hne, Bool.false_eq_true, if_false] at h
    split_ifs at h with _ _ hgso
    · rw [if_neg fun hudp => hudp.1 (by simpa using hgso)]
      exact (Except.ok.inj h).symm
    · rw [if_pos ⟨by simpa using hgso, rfl⟩]
      exact (Except.ok.inj h).symm

theorem Fits.complete {p : Parsed} (hf : e.Fields) (h : Fits e header v6 packet p) :
    CompleteHeader p.ip.nextHeader (packet.drop p.start) := by
  rcases h.transport with ⟨htcp, hchecked, -⟩ | ⟨hudp, -, hchecked, -⟩
  · rw [htcp]
    exact hf.tcpChecked _ hchecked
  · rw [hudp]
    exact hf.udpChecked _ hchecked

/-- **The metadata that `describe` accepts matches the packet.** -/
theorem describe_trusted (hw : e.ip.LengthChecks) (hl : e.ip.Local) (hip : e.ip.Fields) (hf : e.Fields)
    (h : e.describe header v6 packet = .ok (size, packet'))
    (hversion : ∀ {p}, (parse e.ip packet).result = .ok p → v6 = !p.ip.isIpv4)
    (hlength : header.gsoType ≠ 0 → ipLength v6 packet = packet.length)
    (hsize : header.gsoType ≠ 0 → header.gsoSize ≠ 0) : ∃ p, Trusted e header size packet' p ∧
      Rewritten (fun i => size.isSome = true ∧ p.start + 4 ≤ i ∧ i < p.start + 6) packet packet' := by
  obtain ⟨p, hfits, heq⟩ := describe_eq h
  obtain rfl := hversion hfits.parsed
  obtain ⟨-, -, hparse, hsrc, hdst, -⟩ := parse_eq_ok.1 hfits.parsed
  have hprotocol : p.ip.nextHeader = .tcp ∨ p.ip.nextHeader = .udp := hfits.transport.imp And.left And.left
  have hoffset : header.flags % 2 ≠ 0 ∨ header.gsoType ≠ 0 →
      header.csumStart = p.start ∧ header.csumOffset = if p.ip.nextHeader = .tcp then 16 else 6 := by
    intro hset
    obtain ⟨hstart, hoffset⟩ := hfits.checksum hset.symm
    rcases hprotocol with htcp | hudp
    · rw [htcp] at hoffset ⊢
      exact ⟨hstart, (Except.ok.inj hoffset).symm⟩
    · rw [hudp] at hoffset ⊢
      exact ⟨hstart, (Except.ok.inj hoffset).symm⟩
  have htcp : header.gsoType ≠ 0 → p.ip.nextHeader = .tcp →
      header.gsoType = if p.ip.isIpv4 then virtioNetHdrGsoTcpv4 else virtioNetHdrGsoTcpv6 := by
    intro hgso hnext
    rcases hfits.transport with ⟨-, -, htype⟩ | ⟨hudp, -⟩
    · rw [htype hgso]
      cases p.ip.isIpv4 <;> rfl
    · cases hnext.symm.trans hudp
  by_cases hudp : header.gsoType ≠ 0 ∧ p.ip.nextHeader = .udp
  · obtain ⟨-, -, hbody, hchecked, htype⟩ : _ ∧ p.ip.nextHeader = .udp ∧ _ :=
      ⟨trivial, hfits.transport.resolve_left fun htcp => by cases htcp.1.symm.trans hudp.2⟩
    rw [if_pos hudp, Prod.mk.injEq, hf.setLen _ _ hchecked hbody] at heq
    obtain ⟨rfl, rfl⟩ := heq
    have h8 : 8 ≤ (packet.drop p.start).length := hf.udpChecked _ hchecked
    have hstart : p.start ≤ packet.length := parse_start_le hfits.parsed
    have hbefore : (packet.take p.start).length = p.start := length_take_of_le hstart
    have hwrite : Rewritten (fun i => 4 ≤ i ∧ i < 6) (packet.drop p.start)
        (writeAt (packet.drop p.start) 4 (toBytes 2 (packet.drop p.start).length)) :=
      Rewritten.number (packet.drop p.start) 4 2 _ (by omega)
    have hrewritten := hwrite.append (packet.take p.start)
    rw [take_append_drop, hbefore] at hrewritten
    have hfront := hrewritten.take_eq fun i (hi : i < p.start) hin => by omega
    obtain ⟨payload, hparsed⟩ := parse_congr hw hl hip hfits.parsed hrewritten.length hfront
    have h20 : 20 ≤ p.start := parseVersion_start hparse
    refine ⟨{ p with payload }, ⟨hparsed, hfits.whole, hprotocol, ⟨hsrc, hdst⟩, ?_, hoffset, fun hgso => ?_, htcp,
      fun hgso _ => ⟨htype hgso, ?_⟩, (if_pos hudp).symm, fun hzero => hsize hudp.1 (some.inj hzero)⟩,
      hrewritten.mono fun i hi => ⟨rfl, by dsimp only; omega⟩⟩
    · simp only
      rw [hudp.2, drop_left' hbefore]
      exact le_trans h8 (le_of_eq hwrite.length.symm)
    · rw [ipLength_of_take hfront (by omega), hlength hgso, hrewritten.length]
    · simp only
      rw [drop_left' hbefore, hrewritten.length, numberAt_writeAt (by omega) (by omega), length_drop]
  · rw [if_neg hudp, Prod.mk.injEq] at heq
    obtain ⟨rfl, rfl⟩ := heq
    refine ⟨p, ⟨hfits.parsed, hfits.whole, hprotocol, ⟨hsrc, hdst⟩, hfits.complete hf, hoffset, hlength, htcp,
      fun hgso hnext => absurd ⟨hgso, hnext⟩ hudp, (if_neg hudp).symm, nofun⟩, .refl _ _⟩

/-! ## The frame -/

theorem Rewritten.behind {W : Nat → Prop} (h : Rewritten W (frame.drop virtioNetHdrLen) packet)
    (hlen : virtioNetHdrLen ≤ frame.length) : Rewritten (fun i => virtioNetHdrLen ≤ i ∧ W (i - virtioNetHdrLen)) frame
      (frame.take virtioNetHdrLen ++ packet) := by
  have happend := h.append (frame.take virtioNetHdrLen)
  rwa [take_append_drop, length_take_of_le hlen] at happend

theorem normalize_trusted (hw : e.ip.LengthChecks) (hl : e.ip.Local) (hip : e.ip.Fields) (hf : e.Fields)
    (h : e.normalize frame = .ok (true, size, frame')) : (∃ header p, e.decode frame = some header ∧
      Trusted e header size (frame'.drop virtioNetHdrLen) p) ∧ Rewritten (GsoField e frame) frame frame' := by
  obtain ⟨header, v6, packet, packet', hdecode, hlen, hsize, hv6, hlengths, hdescribe, rfl⟩ := normalize_halves h
  have hdrop : (frame.take virtioNetHdrLen ++ packet').drop virtioNetHdrLen = packet' :=
    drop_left' (length_take_of_le hlen)
  obtain ⟨hip_written, hlength⟩ := lengths_eq_ok hw hf hlengths
  have hfirst : packet.take 1 = (frame.drop virtioNetHdrLen).take 1 := hip_written.take_eq fun i hi hin => by
    have hfield := hin.2
    unfold IpField at hfield
    split_ifs at hfield <;> omega
  obtain ⟨p, htrusted, hudp_written⟩ := describe_trusted hw hl hip hf hdescribe
    (fun hp => isV6_eq hl hip hv6 hfirst hp) (fun hgso => hlength (by simpa using hgso)) hsize
  refine ⟨⟨header, p, hdecode, hdrop.symm ▸ htrusted⟩, ?_⟩
  have hpacket : Rewritten (fun i => header.gsoType ≠ 0 ∧ (IpField v6 i ∨ UdpLengthField e frame i))
      (frame.drop virtioNetHdrLen) packet' := by
    refine (hip_written.mono fun i hi => ⟨by simpa using hi.1, .inl hi.2⟩).trans
      (hudp_written.mono fun i ⟨hsome, hfield⟩ => ?_)
    obtain ⟨n, rfl⟩ := isSome_iff_exists.1 hsome
    have hgso : header.gsoType ≠ 0 ∧ p.ip.nextHeader = .udp := by
      by_contra hne
      have hnone := htrusted.size_eq
      rw [if_neg hne] at hnone
      cases hnone
    exact ⟨hgso.1, .inr ⟨n, _, p, h, hdrop.symm ▸ htrusted.parsed, hfield⟩⟩
  exact (Rewritten.behind hpacket hlen).mono fun i ⟨hi, hgso, hfield⟩ => ⟨header, v6, hdecode, hgso, hv6, hi, hfield⟩

theorem relength_rewritten (hw : e.ip.LengthChecks) (hf : e.Fields) (h : e.relength frame = .ok frame') :
    Rewritten (GsoField e frame) frame frame' := by
  unfold relength at h
  obtain ⟨header, hheader, h⟩ := except_bind_eq_ok.1 h
  obtain ⟨packet, hpacket, h⟩ := except_bind_eq_ok.1 h
  obtain ⟨hlen, rfl⟩ := sliceFrom_eq_ok.1 hpacket
  simp only [invalid] at h
  split_ifs at h
  · obtain rfl := Except.ok.inj h
    exact .refl _ _
  · obtain ⟨v6, hv6, h⟩ := except_bind_eq_ok.1 h
    obtain ⟨_, hlengths, h⟩ := except_bind_eq_ok.1 h
    obtain rfl := Except.ok.inj h
    refine (Rewritten.behind (lengths_eq_ok hw hf hlengths).1 hlen).mono fun i hi => ?_
    obtain ⟨hi, hgso, hfield⟩ := hi
    exact ⟨header, v6, header_eq_ok_iff.1 hheader, by simpa using hgso, hv6, hi, .inl hfield⟩

/-- **`normalize` writes the IP length, the header checksum and the UDP length of GSO frames only**, also where it
fails. -/
theorem buffer_rewritten (hw : e.ip.LengthChecks) (hl : e.ip.Local) (hip : e.ip.Fields) (hf : e.Fields)
    (frame : Bytes) : Rewritten (GsoField e frame) frame (e.buffer frame) := by
  unfold buffer
  split
  · next verified size frame' h =>
    cases verified with
    | true => exact (normalize_trusted hw hl hip hf h).2
    | false =>
      obtain ⟨-, rfl⟩ := normalize_unverified h
      exact .refl _ _
  · split
    · next h => exact relength_rewritten hw hf h
    · exact .refl _ _

theorem pollFrame_received {received : Received} (h : e.pollFrame true frame = .ok received)
    (hnormal : e.normalize frame = .ok (false, size, frame')) : received.bytes = frame.drop virtioNetHdrLen ∧
      received.checksumVerified = false ∧ received.udpSegmentSize = none := by
  have hfits : frame.length ≤ maxIpPacket + virtioNetHdrLen := by
    by_contra hlong
    unfold pollFrame at h
    simp only [if_true, if_pos (Nat.not_le.1 hlong)] at h
    cases h
  obtain ⟨rfl, rfl⟩ := normalize_unverified hnormal
  rw [pollFrame_of_normalize hfits hnormal] at h
  obtain rfl := Except.ok.inj h
  exact ⟨rfl, rfl, rfl⟩

/-- **Offload metadata is trusted only when it matches the packet.** `normalize` writes nothing but lengths and the
header checksum of GSO frames; what it accepts with metadata parses, and the metadata matches; what it accepts without
is unchanged, and later validation verifies the checksum of the IPv4 header and of the transport. -/
theorem normalize_trusts (hw : e.ip.LengthChecks) (hl : e.ip.Local) (hip : e.ip.Fields) (hf : e.Fields)
    {env : WorkerEnv} (ht : env.transport.Tests) (frame : Bytes) :
    Rewritten (GsoField e frame) frame (e.buffer frame) ∧ ∀ verified size frame',
    e.normalize frame = .ok (verified, size, frame') → e.buffer frame = frame' ∧
    (verified = true → ∃ header p, e.decode frame = some header ∧
      Trusted e header size (frame'.drop virtioNetHdrLen) p) ∧
    (verified = false → size = none ∧ frame' = frame ∧ ∀ received, e.pollFrame true frame = .ok received →
      received.bytes = frame.drop virtioNetHdrLen ∧
      (∀ p, (parse e.ip received.bytes).result = .ok p → p.ip.isIpv4 = true →
        (e.ip.ipv4 received.bytes).verifyChecksum = true) ∧
      ∀ (s : Worker env) w packet, ∀ backing ∈ [none, some received], ¬ packet.Verified env.transport →
        s.packet w packet backing = .ok (.ignored, s, w)) := by
  refine ⟨buffer_rewritten hw hl hip hf frame, fun verified size frame' h => ⟨by rw [buffer, h], ?_, ?_⟩⟩
  · rintro rfl
    exact (normalize_trusted hw hl hip hf h).1
  · rintro rfl
    obtain ⟨hsize, hframe⟩ := normalize_unverified h
    refine ⟨hsize, hframe, fun received hreceived => ?_⟩
    obtain ⟨hbytes, hverified, -⟩ := pollFrame_received hreceived h
    refine ⟨hbytes, fun p hp hipv4 => ?_, fun s w packet backing hbacking hunverified => ?_⟩
    · obtain ⟨-, -, hparse, -⟩ := parse_eq_ok.1 hp
      rw [IpRepr.version, if_pos hipv4] at hparse
      exact (parseIpv4_eq_ok hparse).2.2.1
    · refine Worker.packet_unverified ht ?_ hunverified
      rcases mem_pair.1 hbacking with rfl | rfl
      · rfl
      · exact hverified

end OffloadWire

/-! ## Over octets -/

theorem octetsOffload_fields : octetsOffload.Fields where
  setPayloadLen _ _ _ _ := rfl
  setTotalLen _ _ _ _ := rfl
  fillChecksum packet h := ⟨_, writeAt_writeAt (d := [0, 0]) (by rw [length_toBytes]; rfl)
    (le_trans (by decide) h)⟩
  setLen _ _ _ _ := rfl
  tcpChecked body h := by
    simp only [octetsOffload, Octets.tcpChecked, Bool.and_eq_true, decide_eq_true_eq] at h
    exact ⟨h.1.2, h.2⟩
  udpChecked body h := by
    simp only [octetsOffload, Octets.udpChecked, Bool.and_eq_true, decide_eq_true_eq] at h
    exact h.1.1

/-- The workers of `Worker.scriptedEnv`, with readers on octets that test the checksum. -/
def testingWorker : WorkerEnv :=
  { Worker.scriptedEnv with
    transport := ⟨udpOctets, Octets.tcpChecked, fun data src dst verified =>
      if verified || fold (Octets.pseudoHeader src dst .tcp data.length + onesSum data) == 0xffff then
        some ⟨numberAt data 0 2, numberAt data 2 2, .syn, none⟩
      else none⟩ }

theorem testingWorker_tests : testingWorker.transport.Tests where
  tcp data src dst repr _ h := by
    simp only [testingWorker, Bool.false_or] at h
    split_ifs at h with hsum
    simpa [TransportWire.Sums, testingWorker, udpOctets] using hsum
  udp data src dst hchecked h := by
    simp only [testingWorker, udpOctets, Octets.udpChecked, Bool.and_eq_true, decide_eq_true_eq] at hchecked
    simp only [testingWorker, udpOctets, Octets.udpParse, Bool.false_or, Bool.and_eq_true, Bool.or_eq_true,
      beq_iff_eq] at h
    refine h.2.imp id fun hsum => ?_
    simpa [TransportWire.Sums, testingWorker, udpOctets, min_eq_left hchecked.2] using hsum

def gsoFrame : Bytes := [1, 5, 0, 0, 2, 0, 20, 0, 6, 0] ++ [0x45, 0, 0, 28, 0, 0, 0, 0, 64, 17, 0, 0, 10, 0, 0, 1,
  10, 0, 0, 2, 0x14, 0xe9, 0, 53, 0, 8, 0, 0, 1, 2, 3, 4]

theorem normalize_trusts_gso : octetsOffload.buffer gsoFrame ≠ gsoFrame ∧
    ∃ frame' header p, octetsOffload.normalize gsoFrame = .ok (true, some 2, frame') ∧
      Trusted octetsOffload header (some 2) (frame'.drop virtioNetHdrLen) p := by
  obtain ⟨frame', hnormal⟩ : ∃ frame', octetsOffload.normalize gsoFrame = .ok (true, some 2, frame') := ⟨_, rfl⟩
  have htrusts := OffloadWire.normalize_trusts octets_lengthChecks octets_local octets_fields octetsOffload_fields
    testingWorker_tests gsoFrame
  obtain ⟨header, p, -, htrusted⟩ := (htrusts.2 _ _ _ hnormal).2.1 rfl
  exact ⟨by decide, frame', header, p, hnormal, htrusted⟩

/-! ## Filtered frames -/

theorem Trusted.not_filtered {e : OffloadWire} {header : VirtioNetHdr} {size : Option Nat} {packet : Bytes}
    {p : Parsed} (h : Trusted e header size packet p) : ¬ Filtered e.ip packet := by
  rintro (hreject | ⟨q, hparse, hq⟩)
  · cases hreject.symm.trans h.parsed
  · obtain rfl := Result.ok.inj (hparse.symm.trans h.parsed)
    rcases hq with hfragment | ⟨htcp, hudp⟩
    · rw [h.whole] at hfragment
      cases hfragment
    · exact h.transport.elim htcp hudp

theorem OffloadWire.plain_of_unverified {e : OffloadWire} {header : VirtioNetHdr} {frame frame' : Bytes}
    {size : Option Nat} (hheader : e.decode frame = some header) (h : e.normalize frame = .ok (false, size, frame')) :
    header.Plain := by
  unfold normalize at h
  obtain ⟨_, hdecoded, h⟩ := except_bind_eq_ok.1 h
  obtain rfl := some.inj (hheader.symm.trans (header_eq_ok_iff.1 hdecoded))
  obtain ⟨_, -, h⟩ := except_bind_eq_ok.1 h
  simp only [invalid] at h
  split_ifs at h with hplain
  · simpa [VirtioNetHdr.Plain] using hplain
  · obtain ⟨_, -, h⟩ := except_bind_eq_ok.1 h
    obtain ⟨_, -, h⟩ := except_bind_eq_ok.1 h
    obtain ⟨_, -, h⟩ := except_bind_eq_ok.1 h
    cases h

/-- **A filtered frame stops `dispatch`, or not**, wherever it is read: `poll_frame` does not fail, and what it hands on
is unverified or filtered, exactly if the frame has no offload metadata. Without metadata the frame is unverified, and
if it is not a fragment it is dropped and the worker goes on. -/
theorem filtered_frame_iff {W E : Type} {e : DispatchEnv W E} (hw : e.wire.ip.LengthChecks) (hl : e.wire.ip.Local)
    (hip : e.wire.ip.Fields) (hf : e.wire.Fields) {start w : W} {inputs : List (Input W E)} {before : List Bytes}
    {frame : Bytes} {header : VirtioNetHdr} (hreading : e.Reading start inputs before w)
    (hheader : e.wire.decode frame = some header) (hlen : virtioNetHdrLen ≤ frame.length)
    (hlease : frame.length ≤ maxIpPacket + virtioNetHdrLen)
    (hfiltered : Filtered e.wire.ip (frame.drop virtioNetHdrLen)) :
    (((∀ error, e.dispatch start (inputs ++ [.read (before ++ [frame])]) ≠ .error (.receive error)) ∧
      ∀ received, e.wire.pollFrame true frame = .ok received →
        received.checksumVerified = false ∨ Filtered e.wire.ip received.bytes) ↔ header.Plain) ∧
    (header.Plain → ∃ size, e.dispatch start (inputs ++ [.read (before ++ [frame])]) =
        e.frame w ⟨frame.drop virtioNetHdrLen, size, false, none⟩ ∧
      ((∀ p, (parse e.wire.ip (frame.drop virtioNetHdrLen)).result = .ok p → p.fragment = none) →
        e.dispatch start (inputs ++ [.read (before ++ [frame])]) = .ok (e.account w (frame.drop virtioNetHdrLen)))) := by
  rw [hreading.next, DispatchEnv.read_ok_iff]
  have hpoll (hplain : header.Plain) :=
    OffloadWire.pollFrame_of_normalize hlease (normalize_plain hheader hlen hplain)
  refine ⟨⟨fun ⟨hok, hhanded⟩ => ?_, fun hplain => ⟨⟨_, hpoll hplain⟩, fun received h => .inl ?_⟩⟩, fun hplain => ?_⟩
  · obtain ⟨⟨verified, size, frame'⟩, hnormal⟩ := (OffloadWire.pollFrame_eq_ok hlease).1 hok
    cases verified with
    | false => exact OffloadWire.plain_of_unverified hheader hnormal
    | true =>
      -- a frame that is verified is one the decoder takes
      obtain ⟨⟨_, _, -, htrusted⟩, -⟩ := OffloadWire.normalize_trusted hw hl hip hf hnormal
      have hreceived := OffloadWire.pollFrame_of_normalize hlease hnormal
      exact absurd ((hhanded _ hreceived).resolve_left (by simp)) htrusted.not_filtered
  · obtain rfl := Except.ok.inj ((hpoll hplain).symm.trans h)
    rfl
  · refine ⟨_, DispatchEnv.read_of_pollFrame (hpoll hplain), fun hwhole => ?_⟩
    rw [DispatchEnv.read_of_pollFrame (hpoll hplain)]
    exact DispatchEnv.frame_filtered hfiltered hwhole

theorem filtered_frame_iff_plain : octetsDispatch.Reading 0 [] [plainFrame] 28 ∧
    Filtered octetsOffload.ip (plainFrame.drop virtioNetHdrLen) ∧
    octetsDispatch.dispatch 0 [.read [plainFrame, plainFrame]] = .ok 56 := by
  have hreading : octetsDispatch.Reading 0 [] [plainFrame] 28 := ⟨by decide, 0, rfl, rfl⟩
  have hheader : octetsDispatch.wire.decode plainFrame = some ⟨0, 0, 0, 0, 0, 0⟩ := rfl
  have hiff := filtered_frame_iff octets_lengthChecks octets_local octets_fields octetsOffload_fields
    hreading hheader (by decide) (by decide) (.inl multicastPacket_rejected)
  obtain ⟨_, -, hdropped⟩ := hiff.2 ⟨rfl, rfl⟩
  refine ⟨hreading, .inl multicastPacket_rejected, hdropped fun p hp => ?_⟩
  cases multicastPacket_rejected.symm.trans hp

end Kotoconn.Tun
