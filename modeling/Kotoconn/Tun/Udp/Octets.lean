import Kotoconn.Tun.Packet.Octets
import Kotoconn.Tun.Udp.Wire

/-!
# The UDP and IP writers on octets

`udpOctets` places the fields where the protocols do, with the checksums of RFC 1071. `udpOctets_inverse`: what it
writes, `octets` reads back.
-/

namespace Kotoconn.Tun

open Lib List

namespace Octets

def ipv4Front (total ident flags hop : Nat) (protocol : UInt8) : Bytes :=
  [0x45, 0] ++ toBytes 2 total ++ toBytes 2 ident ++ toBytes 2 flags ++ [UInt8.ofNat hop, protocol]

def addresses (n : Nat) (src dst : Nat) : Bytes := toBytes n src ++ toBytes n dst

def ipv4Bytes (r : Ipv4Repr) (ident flags : Nat) : Bytes :=
  let front := ipv4Front (20 + r.payloadLen) ident flags r.hopLimit r.nextHeader.number
  let back := addresses 4 r.srcAddr.toNat r.dstAddr.toNat
  front ++ toBytes 2 (65535 - fold (wordSum front + wordSum back)) ++ back

def ipv6Bytes (r : Ipv6Repr) : Bytes :=
  [0x60, 0, 0, 0] ++ toBytes 2 r.payloadLen ++ [r.nextHeader.number, UInt8.ofNat r.hopLimit] ++
    addresses 16 r.srcAddr.toNat r.dstAddr.toNat

def ipv6FragmentBytes (f : Ipv6FragmentRepr) : Bytes :=
  toBytes 2 (f.fragOffset * 8 + if f.moreFrags then 1 else 0) ++ toBytes 4 f.ident

def udpHeader (srcPort dstPort len checksum : Nat) : Bytes :=
  toBytes 2 srcPort ++ toBytes 2 dstPort ++ toBytes 2 len ++ toBytes 2 checksum

def pseudoHeader (src dst : IpAddress) (protocol : IpProtocol) (length : Nat) : Nat :=
  let sum : IpAddress → Nat
    | .ipv4 a => wordSum (toBytes 4 a.toNat)
    | .ipv6 a => wordSum (toBytes 16 a.toNat)
  fold (sum src + sum dst + protocol.number.toNat + wordSum (toBytes 4 length))

def udpEmit (srcPort dstPort : Nat) (src dst : IpAddress) (payload : Bytes) : Bytes :=
  let length := 8 + payload.length
  udpHeader srcPort dstPort length (complement (fold (pseudoHeader src dst .udp length +
    wordSum (udpHeader srcPort dstPort length 0) + wordSum payload))) ++ payload

def udp (data : Bytes) : UdpPacket := ⟨numberAt data 0 2, numberAt data 2 2, numberAt data 4 2, numberAt data 6 2⟩

def udpChecked (data : Bytes) : Bool := 8 ≤ data.length && 8 ≤ (udp data).len && (udp data).len ≤ data.length

def udpParse (data : Bytes) (src dst : IpAddress) (verified : Bool) : Bool :=
  (udp data).dstPort != 0 && (verified || (udp data).checksum == 0 ||
    fold (pseudoHeader src dst .udp (udp data).len + onesSum (data.take (udp data).len)) == 0xffff)

end Octets

def udpOctets : UdpWire where
  ipv4Header r := Octets.ipv4Bytes r 0 0x4000
  ipv4Fragment r ident more offset := Octets.ipv4Bytes r ident ((if more then 0x2000 else 0) + offset / 8)
  ipv6Header := Octets.ipv6Bytes
  ipv6Fragment := Octets.ipv6FragmentBytes
  udpHeader := Octets.udpHeader
  udpEmit := Octets.udpEmit
  pseudoHeader := Octets.pseudoHeader
  checksumData := onesSum
  checksumCombine sums := fold sums.sum
  udpChecked := Octets.udpChecked
  udp := Octets.udp
  udpParse := Octets.udpParse

namespace Octets

theorem length_ipv4Bytes (r : Ipv4Repr) (ident flags : Nat) : (ipv4Bytes r ident flags).length = 20 := by
  simp [ipv4Bytes, ipv4Front, addresses]

theorem ipv4Bytes_checksum (r : Ipv4Repr) (ident flags : Nat) : onesSum (ipv4Bytes r ident flags) = 0xffff := by
  obtain ⟨front, hfront⟩ : ∃ b, b = ipv4Front (20 + r.payloadLen) ident flags r.hopLimit r.nextHeader.number := ⟨_, rfl⟩
  have heven : front.length % 2 = 0 := by simp [hfront, ipv4Front]
  have hpos : 0 < wordSum front := by
    simp only [hfront, ipv4Front, cons_append, wordSum]
    have : (0x45 : UInt8).toNat = 69 := rfl
    omega
  unfold ipv4Bytes onesSum
  simp only [← hfront]
  rw [append_assoc, wordSum_append _ heven, wordSum_append _ (by simp), wordSum_toBytes (by omega)]
  have := fold_add_not (n := wordSum front + wordSum (addresses 4 r.srcAddr.toNat r.dstAddr.toNat)) (by omega)
  rwa [show ∀ a b c : Nat, a + (c + b) = a + b + c by omega]

theorem ipv4_ipv4Bytes (r : Ipv4Repr) {ident flags : Nat} (payload : Bytes) (hudp : r.nextHeader = .udp)
    (hhop : r.hopLimit < 256) (hlen : 20 + r.payloadLen < 65536) (hident : ident < 65536) (hflags : flags < 65536) :
    ipv4 (ipv4Bytes r ident flags ++ payload) = ⟨4, 20, 20 + r.payloadLen, ident, flags / 8192 % 2 == 1,
      flags % 8192 * 8, r.hopLimit, .udp, r.srcAddr, r.dstAddr, true⟩ := by
  have hsum : (ipv4Bytes r ident flags ++ payload).take 20 = ipv4Bytes r ident flags := by
    rw [← length_ipv4Bytes r ident flags, take_left]
  obtain ⟨checksum, hb⟩ : ∃ checksum, ipv4Bytes r ident flags ++ payload = layout [(1, 0x45), (1, 0),
      (2, 20 + r.payloadLen), (2, ident), (2, flags), (1, r.hopLimit), (1, r.nextHeader.number.toNat), (2, checksum),
      (4, r.srcAddr.toNat), (4, r.dstAddr.toNat)] ++ payload := by
    refine ⟨65535 - fold (wordSum (ipv4Front (20 + r.payloadLen) ident flags r.hopLimit r.nextHeader.number) +
      wordSum (addresses 4 r.srcAddr.toNat r.dstAddr.toNat)), ?_⟩
    simp [ipv4Bytes, ipv4Front, addresses, layout, toBytes]
  have hb' : ipv4Bytes r ident flags ++ payload = layout [(1, 0x45), (1, 0), (2, 20 + r.payloadLen), (2, ident),
      (1, flags / 256)] ++ (ipv4Bytes r ident flags ++ payload).drop 7 := by
    rw [hb]
    rfl
  have h0 : numberAt (ipv4Bytes r ident flags ++ payload) 0 1 = 0x45 := rfl
  have h9 : protocolAt (ipv4Bytes r ident flags ++ payload) 9 = .udp := by
    change IpProtocol.ofNumber r.nextHeader.number = _
    rw [hudp]
    rfl
  have h2 : numberAt (ipv4Bytes r ident flags ++ payload) 2 2 = _ := numberAt_layout hb 2 rfl hlen
  have h4 : numberAt (ipv4Bytes r ident flags ++ payload) 4 2 = _ := numberAt_layout hb 3 rfl hident
  have h6 : numberAt (ipv4Bytes r ident flags ++ payload) 6 2 = _ := numberAt_layout hb 4 rfl hflags
  have h6' : numberAt (ipv4Bytes r ident flags ++ payload) 6 1 = _ := numberAt_layout hb' 4 rfl (by omega)
  have h8 : numberAt (ipv4Bytes r ident flags ++ payload) 8 1 = _ := numberAt_layout hb 5 rfl hhop
  have h12 : numberAt (ipv4Bytes r ident flags ++ payload) 12 4 = _ := numberAt_layout hb 8 rfl r.srcAddr.isLt
  have h16 : numberAt (ipv4Bytes r ident flags ++ payload) 16 4 = _ := numberAt_layout hb 9 rfl r.dstAddr.isLt
  have hbit : flags / 256 / 32 = flags / 8192 := Nat.div_div_eq_div_mul _ _ _
  unfold ipv4
  simp only [h0, h2, h4, h6, h6', h8, h9, h12, h16, hbit]
  simp [hsum, ipv4Bytes_checksum]

theorem isIpv4_ipv4Bytes (r : Ipv4Repr) {ident flags : Nat} {payload : Bytes} (hudp : r.nextHeader = .udp)
    (hhop : r.hopLimit < 256) (hpayload : payload.length = r.payloadLen) (hlen : 20 + r.payloadLen < 65536)
    (hident : ident < 65536) (hflags : flags < 65536) :
    octets.IsIpv4 (ipv4Bytes r ident flags ++ payload) ⟨4, 20, 20 + r.payloadLen, ident, flags / 8192 % 2 == 1,
      flags % 8192 * 8, r.hopLimit, .udp, r.srcAddr, r.dstAddr, true⟩ := by
  have hfields := ipv4_ipv4Bytes r payload hudp hhop hlen hident hflags
  have htotal : (ipv4Bytes r ident flags ++ payload).length = 20 + r.payloadLen := by
    rw [length_append, length_ipv4Bytes, hpayload]
  have h0 : numberAt (ipv4Bytes r ident flags ++ payload) 0 1 = 0x45 := rfl
  have hversion : ofPacket (ipv4Bytes r ident flags ++ payload) = some .ipv4 := by rw [ofPacket, h0]; rfl
  have hchecked : ipv4Checked (ipv4Bytes r ident flags ++ payload) = true := by
    simp only [ipv4Checked, hfields, htotal, Bool.and_eq_true, decide_eq_true_eq]
    omega
  constructor <;> simp only [octets, hversion, hchecked, hfields]

theorem ipv6_ipv6Bytes (r : Ipv6Repr) {payload : Bytes} (hproto : r.nextHeader = .udp ∨ r.nextHeader = .ipv6Frag)
    (hhop : r.hopLimit < 256) (hpayload : payload.length = r.payloadLen) (hlen : r.payloadLen < 65536) :
    ofPacket (ipv6Bytes r ++ payload) = some .ipv6 ∧ ipv6 (ipv6Bytes r ++ payload) = some r := by
  have hb : ipv6Bytes r ++ payload = layout [(4, 0x60000000), (2, r.payloadLen), (1, r.nextHeader.number.toNat),
      (1, r.hopLimit), (16, r.srcAddr.toNat), (16, r.dstAddr.toNat)] ++ payload := by
    simp [ipv6Bytes, addresses, layout, toBytes]
  have h0 : numberAt (ipv6Bytes r ++ payload) 0 1 = 0x60 := rfl
  have h4 : numberAt (ipv6Bytes r ++ payload) 4 2 = _ := numberAt_layout hb 1 rfl hlen
  have h6 : protocolAt (ipv6Bytes r ++ payload) 6 = r.nextHeader := by
    change IpProtocol.ofNumber r.nextHeader.number = _
    rcases hproto with h | h <;> rw [h] <;> rfl
  have h7 : numberAt (ipv6Bytes r ++ payload) 7 1 = _ := numberAt_layout hb 3 rfl hhop
  have h8 : numberAt (ipv6Bytes r ++ payload) 8 16 = _ := numberAt_layout hb 4 rfl r.srcAddr.isLt
  have h24 : numberAt (ipv6Bytes r ++ payload) 24 16 = _ := numberAt_layout hb 5 rfl r.dstAddr.isLt
  have htotal : (ipv6Bytes r ++ payload).length = 40 + r.payloadLen := by
    rw [hb]
    simp only [layout, flatMap_cons, flatMap_nil, length_append, length_toBytes, length_nil, hpayload]
  have hchecked : 40 + numberAt (ipv6Bytes r ++ payload) 4 2 ≤ (ipv6Bytes r ++ payload).length ∧
      numberAt (ipv6Bytes r ++ payload) 0 1 / 16 = 6 := ⟨(by omega), by rw [h0]⟩
  have hversion : ofPacket (ipv6Bytes r ++ payload) = some .ipv6 := by rw [ofPacket, h0]; rfl
  refine ⟨hversion, ?_⟩
  rw [ipv6, if_pos hchecked, h4, h6, h7, h8, h24, BitVec.ofNat_toNat, BitVec.ofNat_toNat]
  rfl

theorem udp_udpHeader {srcPort dstPort len checksum : Nat} (hsrc : srcPort < 65536) (hdst : dstPort < 65536)
    (hlen : len < 65536) (hchecksum : checksum < 65536) (payload : Bytes) :
    udp (udpHeader srcPort dstPort len checksum ++ payload) = ⟨srcPort, dstPort, len, checksum⟩ := by
  have hb : udpHeader srcPort dstPort len checksum ++ payload =
      layout [(2, srcPort), (2, dstPort), (2, len), (2, checksum)] ++ payload := by
    simp [udpHeader, layout]
  have h0 : numberAt (udpHeader srcPort dstPort len checksum ++ payload) 0 2 = _ := numberAt_layout hb 0 rfl hsrc
  have h2 : numberAt (udpHeader srcPort dstPort len checksum ++ payload) 2 2 = _ := numberAt_layout hb 1 rfl hdst
  have h4 : numberAt (udpHeader srcPort dstPort len checksum ++ payload) 4 2 = _ := numberAt_layout hb 2 rfl hlen
  have h6 : numberAt (udpHeader srcPort dstPort len checksum ++ payload) 6 2 = _ := numberAt_layout hb 3 rfl hchecksum
  simp only [udp, h0, h2, h4, h6]

theorem fragmentHeader_ipv6FragmentBytes (f : Ipv6FragmentRepr) (hoff : f.fragOffset < 8192) (hid : f.ident < 2 ^ 32) :
    fragmentHeader (ipv6FragmentBytes f) = some f := by
  generalize hv : f.fragOffset * 8 + (if f.moreFrags then 1 else 0) = v
  have hb : ipv6FragmentBytes f = toBytes 2 v ++ toBytes 4 f.ident := by rw [ipv6FragmentBytes, hv]
  have h0 : numberAt (ipv6FragmentBytes f) 0 2 = v :=
    numberAt_toBytes (a := []) (by rw [hb]; rfl) rfl (by split_ifs at hv <;> omega)
  have h1 : numberAt (ipv6FragmentBytes f) 1 1 = v % 256 := by
    refine numberAt_toBytes (a := toBytes 1 (v / 256)) (c := toBytes 4 f.ident) ?_ rfl (by omega)
    have hlow : UInt8.ofNat (v % 256) = UInt8.ofNat v := UInt8.ofNat_mod_size
    rw [hb]
    simp only [toBytes, nil_append, hlow]
  have h2 : numberAt (ipv6FragmentBytes f) 2 4 = f.ident :=
    numberAt_toBytes (a := toBytes 2 v) (by rw [hb, append_nil]) rfl hid
  have hoffset : v / 8 = f.fragOffset := by split_ifs at hv <;> omega
  have hmore : (v % 256 % 2 == 1) = f.moreFrags := by
    split_ifs at hv with hm
    · rw [hm, beq_iff_eq]; omega
    · rw [Bool.eq_false_iff.2 hm, beq_eq_false_iff_ne]; omega
  have hlen : 6 ≤ (ipv6FragmentBytes f).length := by simp [ipv6FragmentBytes]
  rw [fragmentHeader, if_pos hlen, h0, h1, h2, hoffset, hmore]

theorem length_udpHeader (srcPort dstPort len checksum : Nat) : (udpHeader srcPort dstPort len checksum).length = 8 := by
  simp [udpHeader]

theorem wordSum_udpHeader {srcPort dstPort len checksum : Nat} (h : checksum < 65536) (payload : Bytes) :
    wordSum (udpHeader srcPort dstPort len checksum ++ payload) =
      wordSum (udpHeader srcPort dstPort len 0) + checksum + wordSum payload := by
  have hzero : wordSum (toBytes 2 0) = 0 := rfl
  unfold udpHeader
  rw [wordSum_append payload (by simp), wordSum_append (toBytes 2 checksum) (by simp),
    wordSum_append (toBytes 2 0) (by simp), wordSum_toBytes h, hzero, add_zero]

theorem udpChecked_udpHeader {srcPort dstPort checksum : Nat} {payload : Bytes} (hsrc : srcPort < 65536)
    (hdst : dstPort < 65536) (hlen : 8 + payload.length < 65536) (hchecksum : checksum < 65536) :
    udpChecked (udpHeader srcPort dstPort (8 + payload.length) checksum ++ payload) = true := by
  have htotal : (udpHeader srcPort dstPort (8 + payload.length) checksum ++ payload).length = 8 + payload.length := by
    rw [length_append, length_udpHeader]
  simp only [udpChecked, udp_udpHeader hsrc hdst hlen hchecksum, htotal, Bool.and_eq_true, decide_eq_true_eq]
  omega

theorem udpEmit_verifies (srcPort dstPort : Nat) (src dst : IpAddress) (payload : Bytes) :
    ∃ checksum, 0 < checksum ∧ checksum < 65536 ∧ udpEmit srcPort dstPort src dst payload =
      udpHeader srcPort dstPort (8 + payload.length) checksum ++ payload ∧
    fold (pseudoHeader src dst .udp (8 + payload.length) + onesSum (udpEmit srcPort dstPort src dst payload)) =
      0xffff := by
  obtain ⟨sum, hsum⟩ : ∃ n, n = pseudoHeader src dst .udp (8 + payload.length) +
    wordSum (udpHeader srcPort dstPort (8 + payload.length) 0) + wordSum payload := ⟨_, rfl⟩
  have hemit : udpEmit srcPort dstPort src dst payload =
      udpHeader srcPort dstPort (8 + payload.length) (complement (fold sum)) ++ payload := by rw [hsum]; rfl
  have hrange := complement_pos (fold_le sum)
  refine ⟨complement (fold sum), hrange.1, by omega, hemit, ?_⟩
  rw [hemit, onesSum, fold_add_fold, wordSum_udpHeader (by omega), ← fold_add_complement sum]
  congr 1
  omega

end Octets

theorem udpOctets_inverse : udpOctets.Inverse octets where
  ipv4Header_length r := Octets.length_ipv4Bytes r 0 0x4000
  ipv4Header_reads r payload hudp hhop hpayload hlen :=
    ⟨0, Octets.isIpv4_ipv4Bytes r hudp hhop hpayload hlen (by decide) (by decide)⟩
  ipv4Fragment_length r ident more offset := Octets.length_ipv4Bytes r ident _
  ipv4Fragment_reads r ident more offset payload hudp hhop hpayload hlen hident hoffset haligned := by
    generalize hflags : (if more then 0x2000 else 0) + offset / 8 = flags
    have hlt : flags < 65536 := by split_ifs at hflags <;> omega
    have hmore : (flags / 8192 % 2 == 1) = more := by
      split_ifs at hflags with hm
      · rw [hm, beq_iff_eq]; omega
      · rw [Bool.eq_false_iff.2 hm, beq_eq_false_iff_ne]; omega
    have hpos : flags % 8192 * 8 = offset := by split_ifs at hflags <;> omega
    have := Octets.isIpv4_ipv4Bytes r hudp hhop hpayload hlen hident hlt
    rw [hmore, hpos, ← hflags] at this
    exact this
  ipv6Header_length r := by simp [udpOctets, Octets.ipv6Bytes, Octets.addresses]
  ipv6Header_reads r payload hproto hhop hpayload hlen := by
    simp only [octets, udpOctets]
    exact Octets.ipv6_ipv6Bytes r hproto hhop hpayload hlen
  ipv6Fragment_length f := by simp [udpOctets, Octets.ipv6FragmentBytes]
  ipv6Fragment_reads := Octets.fragmentHeader_ipv6FragmentBytes
  udpHeader_length := Octets.length_udpHeader
  udpHeader_checksum src dst len checksum _ := by
    change _ = (toBytes 2 src ++ toBytes 2 dst ++ toBytes 2 len ++ toBytes 2 0).take 6 ++ toBytes 2 checksum
    rw [take_left' (by simp)]
    rfl
  udp_reads src dst checksum payload hsrc hdst hlen hchecksum :=
    ⟨Octets.udpChecked_udpHeader hsrc hdst hlen hchecksum, Octets.udp_udpHeader hsrc hdst hlen hchecksum payload⟩
  udpEmit_eq srcPort dstPort src dst payload _ := by
    obtain ⟨checksum, hpos, hlt, hemit, hverifies⟩ := Octets.udpEmit_verifies srcPort dstPort src dst payload
    have htotal : (Octets.udpEmit srcPort dstPort src dst payload).length = 8 + payload.length := by
      rw [hemit, length_append, Octets.length_udpHeader]
    simp only [udpOctets, UdpWire.Verifies, sum_pair, htotal]
    exact ⟨checksum, hpos, hlt, hemit, hverifies⟩
  udpParse_accepts data src dst hchecked hlen hport hverifies := by
    simp only [udpOctets, UdpWire.Verifies, sum_pair] at hlen hport hverifies ⊢
    simp [Octets.udpParse, hlen, hport, hverifies]
  checksumData_eq data := rfl
  checksumCombine_eq sums := rfl

end Kotoconn.Tun
