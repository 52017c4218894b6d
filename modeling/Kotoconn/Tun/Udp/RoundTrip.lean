import Kotoconn.Tun.Packet.AnyOrder
import Kotoconn.Tun.Udp.Encoder
import Kotoconn.Tun.Udp.Octets

/-! # UDP packetization and reassembly are inverse -/

namespace Kotoconn.Tun

open Lib Protocol List

/-! ## Reading the encoder's headers -/

section Parse
open Exec
variable {w : IpWire} {header payload : Bytes}

theorem head?_append_ok {header : Bytes} (h : header ≠ []) (payload : Bytes) :
    ∃ b, (ofOption (header ++ payload).head?).result = .ok b := by
  cases header with
  | nil => exact absurd rfl h
  | cons b => exact ⟨b, rfl⟩

theorem parse_ipv4_eq {ident offset hop : Nat} {more : Bool} {protocol : IpProtocol} {src dst : Ipv4Address}
    (hlen : header.length = 20) (h : w.IsIpv4 (header ++ payload)
      ⟨4, 20, 20 + payload.length, ident, more, offset, hop, protocol, src, dst, true⟩)
    (hsrc : unicast (.ipv4 src) = true) (hdst : unicast (.ipv4 dst) = true) (hhop : hop ≠ 0)
    (hfits : more = true ∨ offset ≠ 0 → payload ≠ [] ∧ offset + payload.length ≤ 65515 ∧
      (more = true → payload.length % 8 = 0)) :
    (parse w (header ++ payload)).result = .ok ⟨.ipv4 ⟨src, dst, protocol, payload.length, hop⟩, payload, 20,
      if more = true ∨ offset ≠ 0 then some ⟨ident, offset, more, 20⟩ else none⟩ := by
  have hslice : Lib.slice (header ++ payload) 20 (20 + payload.length) = payload := by
    have := slice_append header payload []
    rwa [append_nil, hlen] at this
  have hbody : (parseIpv4 w (header ++ payload)).result = .ok ⟨.ipv4 ⟨src, dst, protocol, payload.length, hop⟩,
      payload, 20, if more = true ∨ offset ≠ 0 then some ⟨ident, offset, more, 20⟩ else none⟩ := by
    unfold parseIpv4
    refine bind_eq_ok.2 ⟨(), guard_eq_ok.2 h.checked, ?_⟩
    simp only [h.fields]
    refine bind_eq_ok.2 ⟨(), rfl, bind_eq_ok.2 ⟨payload, slice_eq_ok.2 ⟨?_, hslice.symm⟩, ?_⟩⟩
    · rw [length_append]
      omega
    refine bind_eq_ok.2 ⟨[], slice_eq_ok.2 ⟨by rw [length_append]; omega, ?_⟩, ?_⟩
    · exact (eq_nil_of_length_eq_zero (by rw [length_slice]; omega)).symm
    refine bind_eq_ok.2 ⟨true, rfl, bind_eq_ok.2 ⟨(), rfl, bind_eq_ok.2 ⟨(), guard_eq_ok.2 ?_, rfl⟩⟩⟩
    split_ifs with hfrag
    · obtain ⟨h1, h2, h3⟩ := hfits hfrag
      have h3' : more = false ∨ payload.length % 8 = 0 := by
        cases more with
        | false => exact .inl rfl
        | true => exact .inr (h3 rfl)
      simpa [h1] using ⟨h2, h3'⟩
    · rfl
  obtain ⟨b, hb⟩ := head?_append_ok (ne_nil_of_length_eq_add_one hlen) payload
  unfold parse
  refine bind_eq_ok.2 ⟨b, hb, bind_eq_ok.2 ⟨.ipv4, ofOption_eq_ok.2 h.version, ?_⟩⟩
  refine bind_eq_ok.2 ⟨_, hbody, bind_eq_ok.2 ⟨(), guard_eq_ok.2 ?_, rfl⟩⟩
  simp [IpRepr.srcAddr, IpRepr.dstAddr, IpRepr.hopLimit, hsrc, hdst, hhop]

/-- The part of `parse` that IPv6 packets share, for a given result of the extension walk. -/
theorem parse_ipv6_of_extensions {r : Ipv6Repr} {protocol : IpProtocol} {body : Bytes} {fragment : Option Fragment}
    (hlen : header.length = 40) (hversion : w.ofPacket (header ++ payload) = some .ipv6)
    (hrepr : w.ipv6 (header ++ payload) = some r) (hpayload : r.payloadLen = payload.length)
    (hext : (ipv6Extensions w r.nextHeader payload).result = .ok (protocol, body, fragment))
    (hsrc : unicast (.ipv6 r.srcAddr) = true) (hdst : unicast (.ipv6 r.dstAddr) = true) (hhop : r.hopLimit ≠ 0) :
    (parse w (header ++ payload)).result = .ok ⟨.ipv6 { r with nextHeader := protocol, payloadLen := body.length },
      body, 40 + (payload.length - body.length), fragment⟩ := by
  have hslice : Lib.slice (header ++ payload) 40 (40 + payload.length) = payload := by
    have := slice_append header payload []
    rwa [append_nil, hlen] at this
  have hbody : (parseIpv6 w (header ++ payload)).result = .ok ⟨.ipv6 { r with
      nextHeader := protocol, payloadLen := body.length }, body, 40 + (payload.length - body.length), fragment⟩ := by
    unfold parseIpv6
    refine bind_eq_ok.2 ⟨r, ofOption_eq_ok.2 hrepr, ?_⟩
    refine bind_eq_ok.2 ⟨payload, slice_eq_ok.2 ⟨by rw [length_append]; omega, ?_⟩, ?_⟩
    · rw [hpayload]
      exact hslice.symm
    exact bind_eq_ok.2 ⟨_, hext, rfl⟩
  obtain ⟨b, hb⟩ := head?_append_ok (ne_nil_of_length_eq_add_one hlen) payload
  unfold parse
  refine bind_eq_ok.2 ⟨b, hb, bind_eq_ok.2 ⟨.ipv6, ofOption_eq_ok.2 hversion, ?_⟩⟩
  refine bind_eq_ok.2 ⟨_, hbody, bind_eq_ok.2 ⟨(), guard_eq_ok.2 ?_, rfl⟩⟩
  simp [IpRepr.srcAddr, IpRepr.dstAddr, IpRepr.hopLimit, hsrc, hdst, hhop]

theorem ipv6Extensions_fragment {f : Ipv6FragmentRepr} {six : Bytes} (hlen : six.length = 6)
    (hread : w.fragmentHeader six = some f) (body : Bytes) :
    (ipv6Extensions w .ipv6Frag ([IpProtocol.udp.number, 0] ++ six ++ body)).result = .ok (.udp, body,
      if f.fragOffset * 8 ≠ 0 ∨ f.moreFrags = true then some ⟨f.ident, f.fragOffset * 8, f.moreFrags, 0⟩
        else none) := by
  have hhead : Lib.slice ([IpProtocol.udp.number, 0] ++ six ++ body) 0 8 = [IpProtocol.udp.number, 0] ++ six := by
    have := slice_append [] ([IpProtocol.udp.number, 0] ++ six) body
    simpa [hlen] using this
  have hsix : Lib.slice ([IpProtocol.udp.number, 0] ++ six) 2 ([IpProtocol.udp.number, 0] ++ six).length = six := by
    rw [slice_to_end]
    rfl
  have hbody : Lib.slice ([IpProtocol.udp.number, 0] ++ six ++ body) 8
      ([IpProtocol.udp.number, 0] ++ six ++ body).length = body := by
    rw [slice_to_end, drop_left' (by simp [hlen])]
  have htotal : 8 ≤ ([IpProtocol.udp.number, 0] ++ six ++ body).length := by
    simp only [length_append, hlen, length_cons, length_nil]
    omega
  unfold ipv6Extensions
  rw [ipv6ExtensionsFrom]
  refine bind_eq_ok.2 ⟨(), rfl, bind_eq_ok.2 ⟨(), guard_eq_ok.2 (decide_eq_true htotal), ?_⟩⟩
  refine bind_eq_ok.2 ⟨_, slice_eq_ok.2 ⟨⟨zero_le, htotal⟩, hhead.symm⟩, ?_⟩
  refine bind_eq_ok.2 ⟨_, slice_eq_ok.2 ⟨⟨by simp, le_rfl⟩, hsix.symm⟩, ?_⟩
  refine bind_eq_ok.2 ⟨f, ofOption_eq_ok.2 hread, bind_eq_ok.2 ⟨_, rfl, bind_eq_ok.2 ⟨(), rfl, ?_⟩⟩⟩
  refine bind_eq_ok.2 ⟨_, slice_eq_ok.2 ⟨⟨htotal, le_rfl⟩, hbody.symm⟩, ?_⟩
  refine bind_eq_ok.2 ⟨0, ?_, rfl⟩
  simp [sub]

theorem ipv6Extensions_udp (payload : Bytes) : (ipv6Extensions w .udp payload).result = .ok (.udp, payload, none) := rfl

end Parse

/-! ## Writing fragments -/

section Frames
open Exec
variable {u : UdpWire} {w : IpWire}

theorem copyFragment_eq {header payload : Bytes} (hheader : header.length = 8) {offset len : Nat} (h8 : offset % 8 = 0)
    (hfirst : offset = 0 → 8 ≤ len) (hin : offset + len ≤ 8 + payload.length) :
    (copyFragment header payload offset len).result = .ok (Lib.slice (header ++ payload) offset (offset + len)) := by
  unfold copyFragment
  split_ifs with h0
  · subst h0
    have := hfirst rfl
    refine bind_eq_ok.2 ⟨len - 8, ?_, bind_eq_ok.2 ⟨_, slice_eq_ok.2 ⟨by omega, rfl⟩, ?_⟩⟩
    · simp only [sub, hheader]
      rw [if_pos this]
      rfl
    · have htake : header.take len = header := take_of_length_le (by omega)
      simp only [Lib.slice, drop_zero, zero_add, take_append, hheader, htake]
      rfl
  · refine bind_eq_ok.2 ⟨offset - 8, ?_, slice_eq_ok.2 ⟨by omega, ?_⟩⟩
    · simp only [sub, hheader]
      rw [if_pos (by omega)]
      rfl
    · simp only [Lib.slice, take_append, drop_append, length_take, hheader]
      rw [drop_eq_nil_of_le (by rw [length_take]; omega), nil_append,
        show offset - min (offset + len) 8 = offset - 8 by omega, show offset + len - 8 = offset - 8 + len by omega]

theorem fragmentFrames_eq (t : Cut) {header payload : Bytes} (hheader : header.length = 8)
    (hdatagram : t.datagram = header ++ payload) (ip : Nat → Nat → Bytes) :
    (fragmentFrames header payload t.datagram.length t.size ip).result =
      .ok ((List.range t.count).map fun i => ip i (t.chunk i).length ++ t.chunk i) := by
  have hlarge := t.large
  have hseveral := t.several
  refine collect_eq_ok fun i hi => ?_
  have hi : i < t.count := mem_range.1 hi
  have hlt := t.lt_count_iff.1 hi
  have hlen := t.length_chunk hi
  have htotal : t.datagram.length = 8 + payload.length := by rw [hdatagram, length_append, hheader]
  have hcopy : (copyFragment header payload (i * t.size) (min (t.datagram.length - i * t.size) t.size)).result =
      .ok (t.chunk i) := by
    rw [copyFragment_eq hheader (t.offset_aligned i) (by omega) (by omega),
      Cut.chunk, ← hdatagram, Nat.min_comm]
  refine bind_eq_ok.2 ⟨t.datagram.length - i * t.size, ?_, bind_eq_ok.2 ⟨_, hcopy, ?_⟩⟩
  · simp only [sub]
    rw [if_pos (by omega)]
    rfl
  · rw [hlen, Nat.min_comm]
    rfl

/-- **The checksum of the separately summed parts verifies over the whole datagram.** -/
theorem udp_verifies (hu : u.Inverse w) (source destination : SocketAddr) (payload : Bytes) :
    u.Verifies source.ip destination.ip (udpFragmentHeader u source destination payload ++ payload) ∧
      ∃ checksum, 0 < checksum ∧ checksum < 65536 ∧ udpFragmentHeader u source destination payload =
        u.udpHeader source.port destination.port (8 + payload.length) checksum := by
  obtain ⟨zeroed, hzeroed⟩ : ∃ h, h = u.udpHeader source.port destination.port (8 + payload.length) 0 := ⟨_, rfl⟩
  obtain ⟨pseudo, hpseudo⟩ : ∃ p, p = u.pseudoHeader source.ip destination.ip .udp (8 + payload.length) := ⟨_, rfl⟩
  have hzero : zeroed = zeroed.take 6 ++ toBytes 2 0 := by
    have := hu.udpHeader_checksum source.port destination.port (8 + payload.length) 0 (by decide)
    rwa [← hzeroed] at this
  have hsix : (zeroed.take 6).length % 2 = 0 := by
    rw [length_take, hzeroed, hu.udpHeader_length]
    rfl
  -- the sum of all parts with a zero checksum
  obtain ⟨total, htotal⟩ : ∃ n, n = pseudo + wordSum zeroed + wordSum payload := ⟨_, rfl⟩
  have hsum : u.checksumCombine [pseudo, u.checksumData zeroed, u.checksumData payload] = fold total := by
    rw [hu.checksumCombine_eq, hu.checksumData_eq, hu.checksumData_eq, htotal]
    simp only [sum_cons, sum_nil, add_zero, onesSum]
    rw [← add_assoc, fold_add_fold, add_right_comm, fold_add_fold, add_right_comm]
  have hheader : udpFragmentHeader u source destination payload =
      u.udpHeader source.port destination.port (8 + payload.length) (complement (fold total)) := by
    unfold udpFragmentHeader
    simp only [← hzeroed, ← hpseudo, hsum]
    rfl
  have hrange := complement_pos (fold_le total)
  refine ⟨?_, complement (fold total), hrange.1, by omega, hheader⟩
  rw [hheader, hu.udpHeader_checksum _ _ _ _ (by omega), ← hzeroed]
  have hlen : (zeroed.take 6 ++ toBytes 2 (complement (fold total)) ++ payload).length = 8 + payload.length := by
    simp only [length_append, length_take, length_toBytes, hzeroed, hu.udpHeader_length]
    omega
  have hwords : wordSum (zeroed.take 6 ++ toBytes 2 (complement (fold total)) ++ payload) =
      wordSum zeroed + complement (fold total) + wordSum payload := by
    have hz : wordSum zeroed = wordSum (zeroed.take 6) := by
      rw [hzero, wordSum_append _ hsix, wordSum_toBytes (by decide), add_zero]
      rw [← hzero]
    rw [hz, append_assoc, wordSum_append _ hsix, wordSum_append _ (by simp), wordSum_toBytes (by omega)]
    omega
  unfold UdpWire.Verifies
  rw [hlen, ← hpseudo, hu.checksumCombine_eq, hu.checksumData_eq, onesSum, hwords]
  simp only [sum_cons, sum_nil, add_zero]
  rw [fold_add_fold, show pseudo + (wordSum zeroed + complement (fold total) + wordSum payload) =
    total + complement (fold total) by omega]
  exact fold_add_complement total

end Frames

/-! ## Feeding frames -/

def feed {L A : Type} (e : DecoderEnv L A) : Decoder A → L → List (Bytes × Nat) → Option (List (Reply A))
  | _, _, [] => some []
  | d, l, (data, now) :: rest => do
      let (reply, d, l) ← d.decode e l data now
      let replies ← feed e d l rest
      some (reply :: replies)

/-- `frame` parses as the piece number `i`. -/
def Carries (w : IpWire) (t : Cut) (src dst : IpAddress) (frame : Bytes) (i : Nat) : Prop :=
  ∃ p id, (parse w frame).result = .ok p ∧ p.fragment = some ⟨id, i * t.size, t.more i, t.prefixLen⟩ ∧
    p.fragmentKey = some t.key ∧ p.ip.nextHeader = .udp ∧ p.payload = t.chunk i ∧ p.ip.srcAddr = src ∧
    p.ip.dstAddr = dst

section Feed
variable {A : Type} {e : DecoderEnv Limits A} {t : Cut} {start : Nat} {src dst : IpAddress}

theorem decode_of_carries {frame : Bytes} {i : Nat} (h : Carries e.wire t src dst frame i) (d : Decoder A) (l : Limits)
    (now : Nat) : ∃ ip id, ip.srcAddr = src ∧ ip.dstAddr = dst ∧
      ∀ o d' l', d.reassemble e l t.key .udp ⟨id, i * t.size, t.more i, t.prefixLen⟩ (t.chunk i) now none =
        some (o, d', l') → d.decode e l frame now = some (.fragment t.key ip o, d', l') := by
  obtain ⟨p, id, hparse, hfragment, hkey, hprotocol, hpayload, hsrc, hdst⟩ := h
  refine ⟨p.ip, id, hsrc, hdst, fun o d' l' hre => ?_⟩
  unfold Decoder.decode
  simp only [hparse, Parsed.decodeWith, hfragment, hkey, hprotocol, hpayload]
  exact congrArg (Option.bind · _) hre

/-- **The pieces of a cut datagram complete it in any order**: none but the last yields a packet. -/
theorem feed_pieces (hp : Platform e) {frame : Nat → Bytes}
    (hframe : ∀ i < t.count, Carries e.wire t src dst (frame i) i) (arrivals : List (Nat × Nat)) (hne : arrivals ≠ [])
    (htimes : ∀ a ∈ arrivals, start ≤ a.2 ∧ a.2 < start + reassemblyLifetime) :
    ∀ {r : List Nat} {d : Decoder A} {l : Limits}, Holding e t start r d l →
      (arrivals.map Prod.fst ++ r).Perm (List.range t.count) → ∃ replies ip b,
        feed e d l (arrivals.map fun a => (frame a.1, a.2)) = some (replies ++ [.fragment t.key ip (.complete b)]) ∧
        (∀ reply ∈ replies, reply.packet = none) ∧ b.data = t.datagram ∧ ip.srcAddr = src ∧ ip.dstAddr = dst := by
  induction arrivals with
  | nil => exact absurd rfl hne
  | cons a rest ih =>
    obtain ⟨j, now⟩ := a
    intro r d l hold hperm
    obtain ⟨htime, htimes⟩ := forall_mem_cons.1 htimes
    have hmid : (rest.map Prod.fst ++ j :: r).Perm (List.range t.count) := perm_middle.trans hperm
    have hnodup := hmid.nodup_iff.2 nodup_range
    have hmem : ∀ i, i ∈ rest.map Prod.fst ++ j :: r ↔ i < t.count := fun i => by
      rw [hmid.mem_iff, mem_range]
    have hj : j < t.count := (hmem j).1 (mem_append_right _ mem_cons_self)
    have hnew : j ∉ r := (nodup_cons.1 (nodup_append.1 hnodup).2.1).1
    obtain ⟨ip, id, hsrc, hdst, hdecode⟩ := decode_of_carries (hframe j hj) d l now
    obtain ⟨hwait, hdone⟩ := hold.reassemble hp htime.1 htime.2 id hj hnew
    cases rest with
    | nil =>
      obtain ⟨b, d', l', hre, hdata⟩ := hdone fun i hi => by simpa using (hmem i).2 hi
      refine ⟨[], ip, b, ?_, fun _ h => absurd h not_mem_nil, hdata, hsrc, hdst⟩
      simp [feed, hdecode _ _ _ hre]
    | cons next =>
      have hmissing : ∃ i < t.count, i ∉ j :: r := by
        refine ⟨next.1, (hmem _).1 (by simp), fun hin => ?_⟩
        exact (nodup_append.1 hnodup).2.2 next.1 (by simp) next.1 hin rfl
      obtain ⟨_, _, hre, hold'⟩ := hwait hmissing
      obtain ⟨replies, ip', b, hfeed, hnone, hlast⟩ := ih (by simp) htimes hold' hmid
      refine ⟨.fragment t.key ip .waiting :: replies, ip', b, ?_, forall_mem_cons.2 ⟨rfl, hnone⟩, hlast⟩
      rw [map_cons, feed, hdecode _ _ _ hre]
      exact congrArg (Option.bind · _) hfeed

/-- A packet whose payload is a UDP datagram with a valid checksum holds that datagram. -/
theorem udp_of_datagram {u : UdpWire} {w : IpWire} (hu : u.Inverse w) {packet : Packet} {source destination : SocketAddr}
    {payload : Bytes} {checksum : Nat} (hsrc : packet.ip.srcAddr = source.ip) (hdst : packet.ip.dstAddr = destination.ip)
    (hports : source.port < 65536 ∧ destination.port < 65536 ∧ destination.port ≠ 0) (hlen : 8 + payload.length < 65536)
    (hchecksum : 0 < checksum ∧ checksum < 65536)
    (hpayload : packet.payload = u.udpHeader source.port destination.port (8 + payload.length) checksum ++ payload)
    (hverifies : u.Verifies source.ip destination.ip packet.payload) :
    packet.udpWithChecksum u false = some (⟨source, destination⟩, payload) := by
  obtain ⟨hchecked, hread⟩ := hu.udp_reads source.port destination.port checksum payload hports.1 hports.2.1 hlen
    hchecksum.2
  rw [← hpayload] at hchecked hread
  have hheader := hu.udpHeader_length source.port destination.port (8 + payload.length) checksum
  have htotal : packet.payload.length = 8 + payload.length := by rw [hpayload, length_append, hheader]
  have hparse := hu.udpParse_accepts packet.payload source.ip destination.ip hchecked (by rw [hread, htotal])
    (by rw [hread]; exact hports.2.2) hverifies
  have hslice : slice packet.payload 8 (8 + payload.length) = payload := by
    have := slice_append (u.udpHeader source.port destination.port (8 + payload.length) checksum) payload []
    rwa [append_nil, hheader, ← hpayload] at this
  have hnonzero : (checksum == 0) = false := beq_false_of_ne (by omega)
  unfold Packet.udpWithChecksum
  simp only [hchecked, hread, hsrc, hdst, hparse, if_true, hnonzero, Bool.and_false, Bool.false_eq_true, if_false,
    hports.2.2, ne_eq, not_false_eq_true, hslice]

/-- Arrivals of frames that are a permutation of numbered ones are arrivals of the numbers. -/
theorem exists_numbers {frame : Nat → Bytes} (numbers : List Nat) (arrivals : List (Bytes × Nat))
    (h : (arrivals.map Prod.fst).Perm (numbers.map frame)) :
    ∃ order : List (Nat × Nat), arrivals = order.map (fun a => (frame a.1, a.2)) ∧ (order.map Prod.fst).Perm numbers := by
  induction arrivals generalizing numbers with
  | nil =>
    have := map_eq_nil_iff.1 (nil_perm.1 h)
    exact ⟨[], rfl, this ▸ List.Perm.refl _⟩
  | cons a _ ih =>
    obtain ⟨i, hi, heq⟩ := List.mem_map.1 (h.mem_iff.1 (List.mem_map_of_mem mem_cons_self))
    have hsplit := perm_cons_erase hi
    have hrest := h.trans (hsplit.map frame)
    rw [map_cons, map_cons, heq] at hrest
    obtain ⟨order, rfl, hperm⟩ := ih _ hrest.cons_inv
    refine ⟨(i, a.2) :: order, ?_, (hperm.cons i).trans hsplit.symm⟩
    rw [map_cons, heq]

/-- What `udp_roundTrip` says of the frames of one datagram. -/
def Decodes (e : DecoderEnv Limits A) (u : UdpWire) (frames : List Bytes) (flow : Flow) (payload : Bytes) : Prop :=
  ∀ (created start : Nat) (arrivals : List (Bytes × Nat)), (arrivals.map Prod.fst).Perm frames →
    (∀ a ∈ arrivals, start ≤ a.2 ∧ a.2 < start + reassemblyLifetime) → ∃ replies last packet,
      feed e Decoder.new (Limits.byDefault created) arrivals = some (replies ++ [last]) ∧
      (∀ reply ∈ replies, reply.packet = none) ∧ last.packet = some packet ∧
      packet.udpWithChecksum u false = some (flow, payload)

variable {u : UdpWire} {source destination : SocketAddr} {payload : Bytes}

theorem decodes_whole (hu : u.Inverse e.wire)
    (hports : source.port < 65536 ∧ destination.port < 65536 ∧ destination.port ≠ 0)
    (hlen : 8 + payload.length < 65536) {frame : Bytes} {ip : IpRepr} {at_ : Nat}
    (hparse : (parse e.wire frame).result = .ok ⟨ip,
      u.udpEmit source.port destination.port source.ip destination.ip payload, at_, none⟩)
    (hsrc : ip.srcAddr = source.ip) (hdst : ip.dstAddr = destination.ip) :
    Decodes e u [frame] ⟨source, destination⟩ payload := by
  intro created start arrivals hperm _
  obtain ⟨a, rfl, rfl⟩ : ∃ a : Bytes × Nat, arrivals = [a] ∧ a.1 = frame := by
    have := perm_singleton.1 hperm
    cases arrivals with
    | nil => cases this
    | cons a =>
      obtain ⟨h1, h2⟩ := List.cons.inj this
      exact ⟨a, by rw [map_eq_nil_iff.1 h2], h1⟩
  obtain ⟨_, hpos, hlt, heq, hverifies⟩ := hu.udpEmit_eq source.port destination.port source.ip destination.ip
    payload hlen
  obtain ⟨datagram, hdatagram⟩ : ∃ b, b = u.udpEmit source.port destination.port source.ip destination.ip payload :=
    ⟨_, rfl⟩
  rw [← hdatagram] at hparse heq hverifies
  refine ⟨[], .whole ⟨ip.setPayloadLen datagram.length, datagram⟩, ⟨ip.setPayloadLen datagram.length, datagram⟩, ?_,
    fun _ h => absurd h not_mem_nil, rfl, ?_⟩
  · simp [feed, Decoder.decode, hparse, Parsed.decodeWith]
  · exact udp_of_datagram hu (by simpa using hsrc) (by simpa using hdst) hports hlen ⟨hpos, hlt⟩ heq hverifies

theorem decodes_cut (hp : Platform e) (hu : u.Inverse e.wire)
    (hports : source.port < 65536 ∧ destination.port < 65536 ∧ destination.port ≠ 0)
    (hlen : 8 + payload.length < 65536) (hdatagram : t.datagram = udpFragmentHeader u source destination payload ++ payload)
    {frame : Nat → Bytes} (hframe : ∀ i < t.count, Carries e.wire t source.ip destination.ip (frame i) i) :
    Decodes e u ((List.range t.count).map frame) ⟨source, destination⟩ payload := by
  intro created start arrivals hperm htimes
  obtain ⟨order, rfl, horder⟩ := exists_numbers _ _ hperm
  have hcount : 0 < t.count := t.lt_count_iff.2 (by have := t.several; omega)
  have hne : order ≠ [] := by
    rintro rfl
    have := horder.length_eq
    simp only [map_nil, length_nil, length_range] at this
    omega
  have htimes' : ∀ a ∈ order, start ≤ a.2 ∧ a.2 < start + reassemblyLifetime := fun a ha =>
    htimes _ (List.mem_map_of_mem ha)
  obtain ⟨replies, _, _, hfeed, hnone, hdata, hsrc, hdst⟩ := feed_pieces hp hframe order hne htimes'
    (.fresh (Limits.lone_byDefault created)) (by rwa [append_nil])
  obtain ⟨hverifies, _, hpos, hlt, hheader⟩ := udp_verifies hu source destination payload
  refine ⟨replies, _, _, hfeed, hnone, rfl, udp_of_datagram hu (by simpa using hsrc) (by simpa using hdst) hports hlen
    ⟨hpos, hlt⟩ ?_ ?_⟩
  · rw [← hheader, hdata, hdatagram]
  · rw [hdata, hdatagram]
    exact hverifies

/-! ## The encoder -/

theorem carries_ipv4 (hu : u.Inverse e.wire) {src dst : Ipv4Address} (hsrc : unicast (.ipv4 src) = true)
    (hdst : unicast (.ipv4 dst) = true) {id : Nat} (hid : id < 65536)
    (hkey : t.key = ⟨some .udp, .ipv4 src, .ipv4 dst, id⟩) (hpre : t.prefixLen = 20) {i : Nat} (hi : i < t.count) :
    Carries e.wire t (.ipv4 src) (.ipv4 dst)
      (u.ipv4Fragment ⟨src, dst, .udp, (t.chunk i).length, 64⟩ id (t.more i) (i * t.size) ++ t.chunk i) i := by
  have hlt := t.lt_count_iff.1 hi
  have hlen := t.length_chunk hi
  have hshort := t.short
  rw [hpre] at hshort
  have hreads := hu.ipv4Fragment_reads ⟨src, dst, .udp, (t.chunk i).length, 64⟩ id (t.more i) (i * t.size) (t.chunk i)
    rfl (show 64 < 256 by decide) rfl (by simp only; omega) hid (by omega) (t.offset_aligned i)
  have hparse := parse_ipv4_eq (hu.ipv4Fragment_length _ _ _ _) hreads hsrc hdst (show 64 ≠ 0 by decide)
    fun _ => ⟨t.chunk_ne_nil hi, by omega, t.chunk_aligned hi⟩
  rw [if_pos (t.is_fragment i)] at hparse
  exact ⟨_, id, hparse, by rw [hpre], by rw [hkey]; rfl, rfl, rfl, rfl, rfl⟩

theorem carries_ipv6 (hu : u.Inverse e.wire) {src dst : Ipv6Address} (hsrc : unicast (.ipv6 src) = true)
    (hdst : unicast (.ipv6 dst) = true) {id : Nat} (hid : id < 2 ^ 32)
    (hkey : t.key = ⟨none, .ipv6 src, .ipv6 dst, id⟩) (hpre : t.prefixLen = 0) {i : Nat} (hi : i < t.count)
    (hsize : t.size + 48 ≤ 65535) :
    Carries e.wire t (.ipv6 src) (.ipv6 dst) (u.ipv6Header ⟨src, dst, .ipv6Frag, (t.chunk i).length + 8, 64⟩ ++
      [IpProtocol.udp.number, 0] ++ u.ipv6Fragment ⟨i * t.size / 8, t.more i, id⟩ ++ t.chunk i) i := by
  have hlt := t.lt_count_iff.1 hi
  have hlen := t.length_chunk hi
  have hshort := t.short
  have haligned := t.offset_aligned i
  have hsix := hu.ipv6Fragment_length ⟨i * t.size / 8, t.more i, id⟩
  have hbody : ([IpProtocol.udp.number, 0] ++ u.ipv6Fragment ⟨i * t.size / 8, t.more i, id⟩ ++ t.chunk i).length =
      (t.chunk i).length + 8 := by
    simp only [length_append, hsix, length_cons, length_nil]
    omega
  have hread := hu.ipv6Fragment_reads ⟨i * t.size / 8, t.more i, id⟩ (by simp only; omega) hid
  have hext := ipv6Extensions_fragment hsix hread (t.chunk i)
  simp only at hext
  rw [Nat.div_mul_cancel (Nat.dvd_of_mod_eq_zero haligned), if_pos (t.is_fragment i).symm] at hext
  obtain ⟨hversion, hrepr⟩ := hu.ipv6Header_reads ⟨src, dst, .ipv6Frag, (t.chunk i).length + 8, 64⟩ _ (.inr rfl)
    (show 64 < 256 by decide) hbody (by simp only; omega)
  have hparse := parse_ipv6_of_extensions (hu.ipv6Header_length _) hversion hrepr hbody.symm hext hsrc hdst
    (show 64 ≠ 0 by decide)
  rw [← append_assoc, ← append_assoc] at hparse
  exact ⟨_, id, hparse, by rw [hpre], by rw [hkey]; rfl, rfl, rfl, rfl, rfl⟩

theorem length_udpFragmentHeader (hu : u.Inverse e.wire) (source destination : SocketAddr) (payload : Bytes) :
    (udpFragmentHeader u source destination payload).length = 8 := by
  obtain ⟨-, _, -, -, h⟩ := udp_verifies hu source destination payload
  rw [h, hu.udpHeader_length]

open Exec in
theorem encodeIpv4_decodes (hp : Platform e) (hu : u.Inverse e.wire) (enc : Encoder) {src dst : Ipv4Address}
    {sport dport : Nat} (hports : sport < 65536 ∧ dport < 65536 ∧ dport ≠ 0) (hsrc : unicast (.ipv4 src) = true)
    (hdst : unicast (.ipv4 dst) = true) (hlen : payload.length ≤ 65507) : ∃ frames enc',
      (enc.encodeIpv4 u ⟨.ipv4 src, sport⟩ ⟨.ipv4 dst, dport⟩ src dst payload).result = .ok (frames, enc') ∧
      (∀ frame ∈ frames, frame.length ≤ enc.mtu) ∧
      Decodes e u frames ⟨⟨.ipv4 src, sport⟩, ⟨.ipv4 dst, dport⟩⟩ payload := by
  have hmtu := enc.mtu_range
  unfold Encoder.encodeIpv4
  by_cases hfit : 20 + (8 + payload.length) ≤ enc.mtu
  · obtain ⟨_, _, _, heq, -⟩ := hu.udpEmit_eq sport dport (.ipv4 src) (.ipv4 dst) payload (by omega)
    have hbody : (u.udpEmit sport dport (.ipv4 src) (.ipv4 dst) payload).length = 8 + payload.length := by
      rw [heq, length_append, hu.udpHeader_length]
    refine ⟨[u.ipv4Header ⟨src, dst, .udp, 8 + payload.length, 64⟩ ++
      u.udpEmit sport dport (.ipv4 src) (.ipv4 dst) payload], enc,
      bind_eq_ok.2 ⟨(), guard_eq_ok.2 (decide_eq_true hlen), ?_⟩, forall_mem_singleton.2 ?_, ?_⟩
    · rw [if_pos hfit]
      rfl
    · rw [length_append, hu.ipv4Header_length, hbody]
      exact hfit
    · obtain ⟨_, hreads⟩ := hu.ipv4Header_reads ⟨src, dst, .udp, 8 + payload.length, 64⟩
        (u.udpEmit sport dport (.ipv4 src) (.ipv4 dst) payload) rfl (show 64 < 256 by decide) hbody (by simp only; omega)
      simp only [← hbody] at hreads
      have hparse := parse_ipv4_eq (hu.ipv4Header_length _) hreads hsrc hdst (show 64 ≠ 0 by decide) (by simp)
      rw [if_neg (by simp)] at hparse
      exact decodes_whole hu hports (by omega) (by rw [← hbody]; exact hparse) rfl rfl
  · have hheader := length_udpFragmentHeader hu ⟨.ipv4 src, sport⟩ ⟨.ipv4 dst, dport⟩ payload
    obtain ⟨t, hkey, hpre, hdatagram, hsize⟩ : ∃ t : Cut,
        t.key = ⟨some .udp, .ipv4 src, .ipv4 dst, enc.ipv4Id.toNat⟩ ∧ t.prefixLen = 20 ∧
        t.datagram = udpFragmentHeader u ⟨.ipv4 src, sport⟩ ⟨.ipv4 dst, dport⟩ payload ++ payload ∧
        t.size = (enc.mtu - 20) / 8 * 8 :=
      ⟨⟨_, _, _, _, Nat.mul_mod_left _ _, by omega, by rw [length_append, hheader]; omega,
        by rw [length_append, hheader]; omega⟩, rfl, rfl, rfl, rfl⟩
    have htotal : t.datagram.length = 8 + payload.length := by rw [hdatagram, length_append, hheader]
    have hframes := fragmentFrames_eq t hheader hdatagram fun index len =>
      u.ipv4Fragment ⟨src, dst, .udp, len, 64⟩ enc.ipv4Id.toNat (t.more index) (index * t.size)
    refine ⟨_, { enc with ipv4Id := enc.ipv4Id + 1 },
      bind_eq_ok.2 ⟨(), guard_eq_ok.2 (decide_eq_true hlen), ?_⟩, ?_,
      decodes_cut hp hu hports (by omega) hdatagram fun i hi =>
        carries_ipv4 hu hsrc hdst enc.ipv4Id.toNat_lt hkey hpre hi⟩
    · rw [if_neg hfit]
      simp only [← hsize, ← htotal]
      exact bind_eq_ok.2 ⟨_, hframes, rfl⟩
    · intro frame hframe
      obtain ⟨_, hi, rfl⟩ := List.mem_map.1 hframe
      have hchunk := t.length_chunk (mem_range.1 hi)
      rw [length_append, hu.ipv4Fragment_length]
      omega

open Exec in
theorem encodeIpv6_decodes (hp : Platform e) (hu : u.Inverse e.wire) (enc : Encoder) {src dst : Ipv6Address}
    {sport dport : Nat} (hports : sport < 65536 ∧ dport < 65536 ∧ dport ≠ 0) (hsrc : unicast (.ipv6 src) = true)
    (hdst : unicast (.ipv6 dst) = true) (hlen : payload.length ≤ 65527) : ∃ frames enc',
      (enc.encodeIpv6 u ⟨.ipv6 src, sport⟩ ⟨.ipv6 dst, dport⟩ src dst payload).result = .ok (frames, enc') ∧
      (∀ frame ∈ frames, frame.length ≤ enc.mtu) ∧
      Decodes e u frames ⟨⟨.ipv6 src, sport⟩, ⟨.ipv6 dst, dport⟩⟩ payload := by
  have hmtu := enc.mtu_range
  unfold Encoder.encodeIpv6
  by_cases hfit : 40 + (8 + payload.length) ≤ enc.mtu
  · obtain ⟨_, _, _, heq, -⟩ := hu.udpEmit_eq sport dport (.ipv6 src) (.ipv6 dst) payload (by omega)
    have hbody : (u.udpEmit sport dport (.ipv6 src) (.ipv6 dst) payload).length = 8 + payload.length := by
      rw [heq, length_append, hu.udpHeader_length]
    refine ⟨[u.ipv6Header ⟨src, dst, .udp, 8 + payload.length, 64⟩ ++
      u.udpEmit sport dport (.ipv6 src) (.ipv6 dst) payload], enc,
      bind_eq_ok.2 ⟨(), guard_eq_ok.2 (decide_eq_true hlen), ?_⟩, forall_mem_singleton.2 ?_, ?_⟩
    · rw [if_pos hfit]
      rfl
    · rw [length_append, hu.ipv6Header_length, hbody]
      exact hfit
    · obtain ⟨hversion, hrepr⟩ := hu.ipv6Header_reads ⟨src, dst, .udp, 8 + payload.length, 64⟩
        (u.udpEmit sport dport (.ipv6 src) (.ipv6 dst) payload) (.inl rfl) (show 64 < 256 by decide) hbody
        (by simp only; omega)
      have hparse := parse_ipv6_of_extensions (hu.ipv6Header_length _) hversion hrepr hbody.symm
        (ipv6Extensions_udp _) hsrc hdst (show 64 ≠ 0 by decide)
      exact decodes_whole hu hports (by omega) hparse rfl rfl
  · have hheader := length_udpFragmentHeader hu ⟨.ipv6 src, sport⟩ ⟨.ipv6 dst, dport⟩ payload
    obtain ⟨t, hkey, hpre, hdatagram, hsize⟩ : ∃ t : Cut,
        t.key = ⟨none, .ipv6 src, .ipv6 dst, enc.ipv6Id.toNat⟩ ∧ t.prefixLen = 0 ∧
        t.datagram = udpFragmentHeader u ⟨.ipv6 src, sport⟩ ⟨.ipv6 dst, dport⟩ payload ++ payload ∧
        t.size = (enc.mtu - 48) / 8 * 8 :=
      ⟨⟨_, _, _, _, Nat.mul_mod_left _ _, by omega, by rw [length_append, hheader]; omega,
        by rw [length_append, hheader]; omega⟩, rfl, rfl, rfl, rfl⟩
    have htotal : t.datagram.length = 8 + payload.length := by rw [hdatagram, length_append, hheader]
    have hframes := fragmentFrames_eq t hheader hdatagram fun index len =>
      u.ipv6Header ⟨src, dst, .ipv6Frag, len + 8, 64⟩ ++ [IpProtocol.udp.number, 0] ++
        u.ipv6Fragment ⟨index * t.size / 8, t.more index, enc.ipv6Id.toNat⟩
    refine ⟨_, { enc with ipv6Id := enc.ipv6Id + 1 },
      bind_eq_ok.2 ⟨(), guard_eq_ok.2 (decide_eq_true hlen), ?_⟩, ?_,
      decodes_cut hp hu hports (by omega) hdatagram fun i hi =>
        carries_ipv6 hu hsrc hdst enc.ipv6Id.toNat_lt hkey hpre hi (by omega)⟩
    · rw [if_neg hfit]
      simp only [← hsize, ← htotal]
      exact bind_eq_ok.2 ⟨_, hframes, rfl⟩
    · intro frame hframe
      obtain ⟨_, hi, rfl⟩ := List.mem_map.1 hframe
      have hchunk := t.length_chunk (mem_range.1 hi)
      simp only [length_append, hu.ipv6Header_length, hu.ipv6Fragment_length, length_cons, length_nil]
      omega

open Exec in
/-- **UDP packetization and reassembly are inverse**: every frame fits the MTU, and in any arrival order within one
reassembly lifetime the frames yield one packet, with the last of them, that holds the datagram. -/
theorem udp_roundTrip (hp : Platform e) (hu : u.Inverse e.wire) (enc : Encoder) (source destination : SocketAddr)
    (payload : Bytes) (hfamily : source.ip.isIpv4 = destination.ip.isIpv4) (hsrc : unicast source.ip = true)
    (hdst : unicast destination.ip = true) (hsport : source.port ≠ 0 ∧ source.port < 65536)
    (hdport : destination.port ≠ 0 ∧ destination.port < 65536)
    (hlen : payload.length ≤ if source.ip.isIpv4 then 65507 else 65527) :
    ∃ frames enc', (enc.encode u source destination payload).result = .ok (frames, enc') ∧
      (∀ frame ∈ frames, frame.length ≤ enc.mtu) ∧ Decodes e u frames ⟨source, destination⟩ payload := by
  have hports : source.port < 65536 ∧ destination.port < 65536 ∧ destination.port ≠ 0 := ⟨hsport.2, hdport.2, hdport.1⟩
  have hguard : (source.port != 0) = true := by simpa using hsport.1
  obtain ⟨sip, _⟩ := source
  obtain ⟨dip, _⟩ := destination
  cases sip with
  | ipv4 =>
    cases dip with
    | ipv6 => cases hfamily
    | ipv4 =>
      obtain ⟨frames, enc', hencode, hframes⟩ := encodeIpv4_decodes hp hu enc hports hsrc hdst hlen
      exact ⟨frames, enc', bind_eq_ok.2 ⟨(), guard_eq_ok.2 hguard, hencode⟩, hframes⟩
  | ipv6 =>
    cases dip with
    | ipv4 => cases hfamily
    | ipv6 =>
      obtain ⟨frames, enc', hencode, hframes⟩ := encodeIpv6_decodes hp hu enc hports hsrc hdst hlen
      exact ⟨frames, enc', bind_eq_ok.2 ⟨(), guard_eq_ok.2 hguard, hencode⟩, hframes⟩

end Feed

theorem octetsEnv_platform : Platform octetsEnv where
  leases := rfl
  assembler := rangeAssembler_lawful
  allocate := Nat.le_refl
  small n h := by
    change 512 + n ≤ 4 * initialBytes
    have : initialBytes = 131072 := rfl
    omega

theorem udp_roundTrip_least_mtu : ∃ frames enc',
    ((⟨1280, by decide, 7, 9⟩ : Encoder).encode udpOctets ⟨.ipv4 0x0a000001, 53⟩ ⟨.ipv4 0x0a000002, 4000⟩
      (List.replicate 3000 7)).result = .ok (frames, enc') ∧ (∀ frame ∈ frames, frame.length ≤ 1280) ∧
    Decodes octetsEnv udpOctets frames ⟨⟨.ipv4 0x0a000001, 53⟩, ⟨.ipv4 0x0a000002, 4000⟩⟩ (List.replicate 3000 7) :=
  udp_roundTrip octetsEnv_platform udpOctets_inverse ⟨1280, by decide, 7, 9⟩ _ _ _ rfl (by decide) (by decide)
    (by decide) (by decide) (by rw [length_replicate]; decide)

end Kotoconn.Tun
