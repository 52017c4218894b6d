import Kotoconn.Tun.Packet.Safe

/-! # Only the headers decide how a packet parses -/

namespace Kotoconn.Tun

open Lib List Option

structure IpWire.Local (w : IpWire) : Prop where
  ofPacket : ∀ {data data'}, data'.take 1 = data.take 1 → w.ofPacket data' = w.ofPacket data
  ipv4 : ∀ {data data'}, data'.take 20 = data.take 20 → (w.ipv4 data').moreFrags = (w.ipv4 data).moreFrags ∧
    (w.ipv4 data').fragOffset = (w.ipv4 data).fragOffset
  ipv6 : ∀ {data data'}, data'.take 40 = data.take 40 → data'.length = data.length → w.ipv6 data' = w.ipv6 data
  extHeader : ∀ {data data' r}, w.extHeader data = some r →
    data'.take (r.headerLen + r.data.length) = data.take (r.headerLen + r.data.length) → data'.length = data.length →
    w.extHeader data' = some r

structure IpWire.Fields (w : IpWire) : Prop where
  version : ∀ b rest, w.ofPacket (b :: rest) =
    if b.toNat / 16 = 4 then some .ipv4 else if b.toNat / 16 = 6 then some .ipv6 else none
  totalLen : ∀ data, (w.ipv4 data).totalLen = numberAt data 2 2
  payloadLen : ∀ data r, w.ipv6 data = some r → r.payloadLen = numberAt data 4 2
  header : ∀ {data data'}, 20 ≤ (w.ipv4 data).headerLen →
    data'.take (w.ipv4 data).headerLen = data.take (w.ipv4 data).headerLen → w.ipv4 data' = w.ipv4 data

section
open Exec
variable {w : IpWire} {data data' : Bytes}

/-! ## The walk over extension headers -/

theorem ipv6Frag_congr {initialLen n : Nat} {found : IpProtocol} {rest : Bytes} {fragment : Option Fragment}
    (h : (ipv6ExtensionsFrom w initialLen (n + 1) .ipv6Frag data).result = .ok (found, rest, fragment))
    (hlen : data'.length = data.length)
    (hsame : data'.take (data.length - rest.length) = data.take (data.length - rest.length)) :
    (ipv6ExtensionsFrom w initialLen (n + 1) .ipv6Frag data').result =
      .ok (found, data'.drop (data.length - rest.length), fragment) := by
  obtain ⟨-, -, h⟩ := bind_eq_ok.1 h
  obtain ⟨⟨⟩, henough, h⟩ := bind_eq_ok.1 h
  obtain ⟨_, hheader, h⟩ := bind_eq_ok.1 h
  obtain ⟨inner, hinner, h⟩ := bind_eq_ok.1 h
  obtain ⟨part, hpart, h⟩ := bind_eq_ok.1 h
  obtain ⟨number, hnumber, h⟩ := bind_eq_ok.1 h
  obtain ⟨⟨⟩, hprotocol, h⟩ := bind_eq_ok.1 h
  obtain ⟨_, hbody, h⟩ := bind_eq_ok.1 h
  obtain ⟨prefixLen, hprefixLen, h⟩ := bind_eq_ok.1 h
  obtain ⟨⟨-, h8⟩, rfl⟩ := slice_eq_ok.1 hheader
  obtain ⟨-, rfl⟩ := slice_eq_ok.1 hbody
  simp only [pure_result, Result.ok.injEq, Prod.mk.injEq] at h
  obtain ⟨rfl, rfl, rfl⟩ := h
  rw [slice_to_end, length_drop, Nat.sub_sub_self h8] at hsame ⊢
  rw [Lib.slice, ← hsame] at hinner hnumber
  rw [← hlen] at henough hprefixLen
  refine bind_eq_ok.2 ⟨(), rfl, bind_eq_ok.2 ⟨(), henough, bind_eq_ok.2 ⟨_, slice_eq_ok.2 ⟨⟨by omega, by omega⟩,
    rfl⟩, bind_eq_ok.2 ⟨inner, hinner, bind_eq_ok.2 ⟨part, hpart, bind_eq_ok.2 ⟨number, hnumber,
    bind_eq_ok.2 ⟨(), hprotocol, bind_eq_ok.2 ⟨_, slice_eq_ok.2 ⟨⟨by omega, le_rfl⟩, rfl⟩,
    bind_eq_ok.2 ⟨prefixLen, hprefixLen, ?_⟩⟩⟩⟩⟩⟩⟩⟩⟩
  rw [slice_to_end]
  rfl

/-- **The walk over extension headers depends on the bytes it passes.** -/
theorem extensions_congr (hw : w.LengthChecks) (hl : w.Local) {initialLen n : Nat} {protocol found : IpProtocol}
    {rest : Bytes} {fragment : Option Fragment}
    (h : (ipv6ExtensionsFrom w initialLen n protocol data).result = .ok (found, rest, fragment))
    (hlen : data'.length = data.length) (hle : data.length ≤ initialLen)
    (hsame : data'.take (data.length - rest.length) = data.take (data.length - rest.length)) :
    (ipv6ExtensionsFrom w initialLen n protocol data').result =
      .ok (found, data'.drop (data.length - rest.length), fragment) := by
  induction n generalizing protocol data data' with
  | zero => cases h
  | succ n ih =>
    have hopts : ∀ {b : Bool}, (do
        Exec.guard b
        let repr ← ofOption (w.extHeader data)
        ipv6Options w (w.options repr.data)
        let rest ← Exec.slice data (repr.headerLen + repr.data.length) data.length
        ipv6ExtensionsFrom w initialLen n repr.nextHeader rest : Exec _).result = .ok (found, rest, fragment) → (do
        Exec.guard b
        let repr ← ofOption (w.extHeader data')
        ipv6Options w (w.options repr.data)
        let rest ← Exec.slice data' (repr.headerLen + repr.data.length) data'.length
        ipv6ExtensionsFrom w initialLen n repr.nextHeader rest : Exec _).result =
          .ok (found, data'.drop (data.length - rest.length), fragment) := by
      intro b h
      obtain ⟨⟨⟩, hguard, h⟩ := bind_eq_ok.1 h
      obtain ⟨r, hr, h⟩ := bind_eq_ok.1 h
      obtain ⟨⟨⟩, hoptions, h⟩ := bind_eq_ok.1 h
      obtain ⟨_, hbody, h⟩ := bind_eq_ok.1 h
      obtain ⟨⟨hin, -⟩, rfl⟩ := slice_eq_ok.1 hbody
      rw [slice_to_end] at h
      have hsuffix : rest.length ≤ (data.drop (r.headerLen + r.data.length)).length :=
        (ipv6ExtensionsFrom_ensures hw initialLen n r.nextHeader _ (by rw [length_drop]; omega)).2.2 _ h
      rw [length_drop] at hsuffix
      have hpassed : data.length - rest.length = r.headerLen + r.data.length +
          ((data.drop (r.headerLen + r.data.length)).length - rest.length) := by
        rw [length_drop]
        omega
      rw [hpassed] at hsame
      have hread := hl.extHeader (ofOption_eq_ok.1 hr) (take_eq_of_le hsame le_self_add) hlen
      have hwalk := ih h (by rw [length_drop, length_drop, hlen]) (by rw [length_drop]; omega)
        (take_drop_eq hsame)
      rw [drop_drop, ← hpassed] at hwalk
      exact bind_eq_ok.2 ⟨(), hguard, bind_eq_ok.2 ⟨r, ofOption_eq_ok.2 hread, bind_eq_ok.2 ⟨(), hoptions,
        bind_eq_ok.2 ⟨_, slice_eq_ok.2 ⟨⟨hlen ▸ hin, le_rfl⟩, (slice_to_end _ _).symm⟩, hwalk⟩⟩⟩⟩
    cases protocol with
    | hopByHop => exact hopts h
    | ipv6Opts => exact hopts h
    | ipv6Frag => exact ipv6Frag_congr h hlen hsame
    | unknown => cases h
    | tcp => cases h; rw [Nat.sub_self]; rfl
    | udp => cases h; rw [Nat.sub_self]; rfl
    | icmpv6 => cases h; rw [Nat.sub_self]; rfl

/-! ## The packet -/

variable {p : Parsed}

theorem parseIpv4_eq_ok (h : (parseIpv4 w data).result = .ok p) : 20 ≤ p.start ∧
    p.start = (w.ipv4 data).headerLen ∧ (w.ipv4 data).verifyChecksum = true ∧ p.ip.isIpv4 = true ∧
    (p.fragment = none ↔ ¬ ((w.ipv4 data).moreFrags = true ∨ (w.ipv4 data).fragOffset ≠ 0)) := by
  obtain ⟨-, -, h⟩ := bind_eq_ok.1 h
  obtain ⟨⟨⟩, hverified, h⟩ := bind_eq_ok.1 h
  obtain ⟨_, -, h⟩ := bind_eq_ok.1 h
  obtain ⟨_, hoptions, h⟩ := bind_eq_ok.1 h
  obtain ⟨_, -, h⟩ := bind_eq_ok.1 h
  obtain ⟨-, -, h⟩ := bind_eq_ok.1 h
  obtain ⟨-, -, h⟩ := bind_eq_ok.1 h
  obtain rfl := Result.ok.inj h
  refine ⟨(slice_eq_ok.1 hoptions).1.1, rfl, (Bool.and_eq_true_iff.1 (guard_eq_ok.1 hverified)).2, rfl, ?_⟩
  dsimp only
  split_ifs with hfragment
  · exact ⟨nofun, absurd hfragment⟩
  · exact ⟨fun _ => hfragment, fun _ => rfl⟩

theorem parseIpv4_congr (hw : w.LengthChecks) (hf : w.Fields) (h : (parseIpv4 w data).result = .ok p)
    (hlen : data'.length = data.length) (hsame : data'.take p.start = data.take p.start) :
    ∃ payload, (parseIpv4 w data').result = .ok { p with payload } := by
  obtain ⟨h20, hstart, -⟩ := parseIpv4_eq_ok h
  rw [hstart] at h20 hsame
  have hfields : w.ipv4 data' = w.ipv4 data := hf.header h20 hsame
  obtain ⟨⟨⟩, hchecked, h⟩ := bind_eq_ok.1 h
  obtain ⟨⟨⟩, hverified, h⟩ := bind_eq_ok.1 h
  obtain ⟨_, hpayload, h⟩ := bind_eq_ok.1 h
  obtain ⟨_, hoptions, h⟩ := bind_eq_ok.1 h
  obtain ⟨walked, hwalked, h⟩ := bind_eq_ok.1 h
  obtain ⟨⟨⟩, hguard, h⟩ := bind_eq_ok.1 h
  obtain ⟨⟨⟩, hfragment, h⟩ := bind_eq_ok.1 h
  obtain rfl := Result.ok.inj h
  obtain ⟨hbounds, rfl⟩ := slice_eq_ok.1 hpayload
  obtain ⟨hbounds', rfl⟩ := slice_eq_ok.1 hoptions
  have hchecked' : w.ipv4Checked data' = true := by
    rw [hw.ipv4_checked, hfields, hlen, ← hw.ipv4_checked]
    exact guard_eq_ok.1 hchecked
  have hlength : (Lib.slice data' (w.ipv4 data).headerLen (w.ipv4 data).totalLen).length =
      (Lib.slice data (w.ipv4 data).headerLen (w.ipv4 data).totalLen).length := by
    rw [length_slice, length_slice, hlen]
  have hempty : (Lib.slice data' (w.ipv4 data).headerLen (w.ipv4 data).totalLen).isEmpty =
      (Lib.slice data (w.ipv4 data).headerLen (w.ipv4 data).totalLen).isEmpty := by
    rw [Bool.eq_iff_iff, isEmpty_iff_length_eq_zero, isEmpty_iff_length_eq_zero, hlength]
  have hslice : Lib.slice data' 20 (w.ipv4 data).headerLen = Lib.slice data 20 (w.ipv4 data).headerLen := by
    rw [Lib.slice, hsame, Lib.slice]
  rw [← hslice] at hwalked
  rw [← hempty, ← hlength] at hfragment
  refine ⟨Lib.slice data' (w.ipv4 data).headerLen (w.ipv4 data).totalLen, ?_⟩
  unfold parseIpv4
  simp only [hfields]
  refine bind_eq_ok.2 ⟨(), guard_eq_ok.2 hchecked', bind_eq_ok.2 ⟨(), hverified, bind_eq_ok.2 ⟨_,
    slice_eq_ok.2 ⟨hlen ▸ hbounds, rfl⟩, bind_eq_ok.2 ⟨_, slice_eq_ok.2 ⟨hlen ▸ hbounds', rfl⟩,
    bind_eq_ok.2 ⟨walked, hwalked, bind_eq_ok.2 ⟨(), hguard, bind_eq_ok.2 ⟨(), hfragment, ?_⟩⟩⟩⟩⟩⟩⟩
  rw [hlength]
  rfl

theorem parseIpv6_eq_ok (h : (parseIpv6 w data).result = .ok p) : ∃ repr found rest,
    w.ipv6 data = some repr ∧ 40 + repr.payloadLen ≤ data.length ∧
      (ipv6Extensions w repr.nextHeader ((data.drop 40).take repr.payloadLen)).result = .ok (found, rest, p.fragment) ∧
      p = ⟨.ipv6 { repr with nextHeader := found, payloadLen := rest.length }, rest,
        40 + (repr.payloadLen - rest.length), p.fragment⟩ := by
  obtain ⟨repr, hrepr, h⟩ := bind_eq_ok.1 h
  obtain ⟨_, hinitial, h⟩ := bind_eq_ok.1 h
  obtain ⟨⟨found, rest, _⟩, hwalk, h⟩ := bind_eq_ok.1 h
  obtain rfl := Result.ok.inj h
  obtain ⟨⟨-, hhi⟩, rfl⟩ := slice_eq_ok.1 hinitial
  rw [Lib.slice, drop_take, Nat.add_sub_cancel_left] at hwalk
  refine ⟨repr, found, rest, ofOption_eq_ok.1 hrepr, hhi, hwalk, ?_⟩
  rw [length_slice, min_eq_left hhi, Nat.add_sub_cancel_left]

theorem parseIpv6_congr (hw : w.LengthChecks) (hl : w.Local) (h : (parseIpv6 w data).result = .ok p)
    (hlen : data'.length = data.length) (hsame : data'.take p.start = data.take p.start) :
    ∃ payload, (parseIpv6 w data').result = .ok { p with payload } := by
  obtain ⟨repr, _, rest, hrepr, hin, hwalk, hp⟩ := parseIpv6_eq_ok h
  have hstart : p.start = 40 + (repr.payloadLen - rest.length) := congrArg Parsed.start hp
  rw [hstart] at hsame
  have hrepr' : w.ipv6 data' = some repr :=
    (hl.ipv6 (take_eq_of_le hsame le_self_add) hlen).trans hrepr
  have hlength : ((data.drop 40).take repr.payloadLen).length = repr.payloadLen := by
    rw [length_take, length_drop]
    omega
  have hlength' : ((data'.drop 40).take repr.payloadLen).length = repr.payloadLen := by
    rw [length_take, length_drop]
    omega
  have hpassed : (data'.drop 40).take (repr.payloadLen - rest.length) =
      (data.drop 40).take (repr.payloadLen - rest.length) := take_drop_eq hsame
  have hrest : rest.length ≤ repr.payloadLen := by
    have := (ipv6Extensions_ensures hw repr.nextHeader ((data.drop 40).take repr.payloadLen)).2.2 _ hwalk
    rwa [hlength] at this
  rw [ipv6Extensions, hlength] at hwalk
  have hwalk' := extensions_congr hw hl hwalk (hlength'.trans hlength.symm) (le_of_eq hlength) (by
    rw [hlength, take_take, take_take, min_eq_left (Nat.sub_le _ _), hpassed])
  rw [hlength] at hwalk'
  have hsame' : (((data'.drop 40).take repr.payloadLen).drop (repr.payloadLen - rest.length)).length = rest.length := by
    rw [length_drop, hlength']
    omega
  refine ⟨((data'.drop 40).take repr.payloadLen).drop (repr.payloadLen - rest.length), ?_⟩
  rw [hp]
  refine bind_eq_ok.2 ⟨repr, ofOption_eq_ok.2 hrepr', bind_eq_ok.2 ⟨_, slice_eq_ok.2
    ⟨⟨le_self_add, hlen ▸ hin⟩, rfl⟩, ?_⟩⟩
  rw [Lib.slice, drop_take, Nat.add_sub_cancel_left]
  refine bind_eq_ok.2 ⟨_, by rw [ipv6Extensions, hlength']; exact hwalk', ?_⟩
  simp only [hsame', hlength', pure_result]

def parseVersion (w : IpWire) (data : Bytes) : IpVersion → Exec Parsed
  | .ipv4 => parseIpv4 w data
  | .ipv6 => parseIpv6 w data

def IpRepr.version (ip : IpRepr) : IpVersion := if ip.isIpv4 then .ipv4 else .ipv6

theorem parseVersion_version {version : IpVersion} (h : (parseVersion w data version).result = .ok p) :
    version = p.ip.version := by
  cases version with
  | ipv4 =>
    obtain ⟨-, -, -, hipv4, -⟩ := parseIpv4_eq_ok h
    rw [IpRepr.version, if_pos hipv4]
  | ipv6 =>
    obtain ⟨_, _, _, -, -, -, hp⟩ := parseIpv6_eq_ok h
    rw [hp]
    rfl

theorem parse_eq_ok : (parse w data).result = .ok p ↔ data ≠ [] ∧ w.ofPacket data = some p.ip.version ∧
    (parseVersion w data p.ip.version).result = .ok p ∧ unicast p.ip.srcAddr = true ∧ unicast p.ip.dstAddr = true ∧
    p.ip.hopLimit ≠ 0 := by
  have hguard : (Exec.guard (unicast p.ip.srcAddr && unicast p.ip.dstAddr && p.ip.hopLimit != 0)).result = .ok () ↔
      unicast p.ip.srcAddr = true ∧ unicast p.ip.dstAddr = true ∧ p.ip.hopLimit ≠ 0 := by
    simp only [guard_eq_ok, Bool.and_eq_true, bne_iff_ne, and_assoc, ne_eq]
  constructor
  · intro h
    obtain ⟨_, hhead, h⟩ := bind_eq_ok.1 h
    obtain ⟨version, hversion, h⟩ := bind_eq_ok.1 h
    have hparse : ∃ q, (parseVersion w data version).result = .ok q ∧
        (do Exec.guard (unicast q.ip.srcAddr && unicast q.ip.dstAddr && q.ip.hopLimit != 0); pure q : Exec _).result =
          .ok p := by
      cases version <;> exact bind_eq_ok.1 h
    obtain ⟨_, hq, h⟩ := hparse
    obtain ⟨⟨⟩, hchecks, h⟩ := bind_eq_ok.1 h
    obtain rfl := Result.ok.inj h
    obtain rfl := parseVersion_version hq
    refine ⟨fun hnil => ?_, ofOption_eq_ok.1 hversion, hq, hguard.1 hchecks⟩
    rw [hnil] at hhead
    cases hhead
  · rintro ⟨hne, hversion, hparse, hchecks⟩
    refine bind_eq_ok.2 ⟨data.head hne, ofOption_eq_ok.2 (head?_eq_some_head hne),
      bind_eq_ok.2 ⟨_, ofOption_eq_ok.2 hversion, ?_⟩⟩
    cases hv : p.ip.version <;> rw [hv] at hparse <;>
      exact bind_eq_ok.2 ⟨p, hparse, bind_eq_ok.2 ⟨(), hguard.2 hchecks, rfl⟩⟩

theorem parseVersion_start {version : IpVersion} (h : (parseVersion w data version).result = .ok p) : 20 ≤ p.start := by
  cases version with
  | ipv4 => exact (parseIpv4_eq_ok h).1
  | ipv6 =>
    obtain ⟨_, _, _, -, -, -, hp⟩ := parseIpv6_eq_ok h
    rw [hp]
    exact le_trans (by decide) le_self_add

/-- **Other bytes behind the headers change the payload only.** -/
theorem parse_congr (hw : w.LengthChecks) (hl : w.Local) (hf : w.Fields)
    (h : (parse w data).result = .ok p) (hlen : data'.length = data.length)
    (hsame : data'.take p.start = data.take p.start) : ∃ payload, (parse w data').result = .ok { p with payload } := by
  obtain ⟨hne, hversion, hparse, hchecks⟩ := parse_eq_ok.1 h
  have hone : 1 ≤ p.start := le_trans (by decide) (parseVersion_start hparse)
  have hversion' : w.ofPacket data' = some p.ip.version := (hl.ofPacket (take_eq_of_le hsame hone)).trans hversion
  have hne' : data' ≠ [] := fun hnil => hne (length_eq_zero_iff.1 (by rw [← hlen, hnil]; rfl))
  obtain ⟨payload, hparse'⟩ : ∃ payload, (parseVersion w data' p.ip.version).result = .ok { p with payload } := by
    cases hv : p.ip.version with
    | ipv4 => exact parseIpv4_congr hw hf (by rwa [hv] at hparse) hlen hsame
    | ipv6 => exact parseIpv6_congr hw hl (by rwa [hv] at hparse) hlen hsame
  exact ⟨payload, parse_eq_ok.2 ⟨hne', hversion', hparse', hchecks⟩⟩

theorem parse_unfragmented (hw : w.LengthChecks) (hl : w.Local) {p p' : Parsed} (h : (parse w data).result = .ok p)
    (hwhole : p.fragment = none) (hlen : data'.length = data.length) (hsame : data'.take p.start = data.take p.start)
    (h' : (parse w data').result = .ok p') : p'.fragment = none := by
  obtain ⟨-, hversion, hparse, -⟩ := parse_eq_ok.1 h
  obtain ⟨-, hversion', hparse', -⟩ := parse_eq_ok.1 h'
  have hone : 1 ≤ p.start := le_trans (by decide) (parseVersion_start hparse)
  rw [hl.ofPacket (take_eq_of_le hsame hone), hversion] at hversion'
  rw [← some.inj hversion'] at hparse'
  cases hv : p.ip.version with
  | ipv4 =>
    rw [hv] at hparse hparse'
    obtain ⟨h20, -, -, -, hfragment⟩ := parseIpv4_eq_ok hparse
    obtain ⟨-, -, -, -, hfragment'⟩ := parseIpv4_eq_ok hparse'
    obtain ⟨hmore, hoffset⟩ := hl.ipv4 (take_eq_of_le hsame h20)
    rw [hfragment', hmore, hoffset]
    exact hfragment.1 hwhole
  | ipv6 =>
    rw [hv] at hparse hparse'
    obtain ⟨_, hsame⟩ := parseIpv6_congr hw hl hparse hlen hsame
    cases hsame.symm.trans hparse'
    exact hwhole

end

/-! ## Over octets -/

open Octets

theorem Octets.protocolAt_of_take {data data' : Bytes} {n : Nat} (h : data'.take n = data.take n) (i : Nat)
    (hi : i < n) : protocolAt data' i = protocolAt data i := by
  have hget := congrArg (·[i]?) h
  simp only [getElem?_take, if_pos hi] at hget
  rw [protocolAt, protocolAt, getD_eq_getElem?_getD, hget, getD_eq_getElem?_getD]

theorem octets_local : octets.Local where
  ofPacket h := by simp only [octets, Octets.ofPacket, numberAt_of_take h 0 1 (by decide)]
  ipv4 h := by
    simp only [octets, Octets.ipv4, numberAt_of_take h 6 1 (by decide), numberAt_of_take h 6 2 (by decide), and_self]
  ipv6 h hlen := by
    simp only [octets, Octets.ipv6, hlen, numberAt_of_take h 0 1 (by decide), numberAt_of_take h 4 2 (by decide),
      numberAt_of_take h 7 1 (by decide), numberAt_of_take h 8 16 (by decide), numberAt_of_take h 24 16 (by decide),
      protocolAt_of_take h 6 (by decide)]
  extHeader {data data' r} hr h hlen := by
    simp only [octets, Octets.extHeader] at hr ⊢
    split_ifs at hr with hin
    obtain rfl := some.inj hr
    have hread : 2 + (slice data 2 (8 + 8 * numberAt data 1 1)).length = 8 + 8 * numberAt data 1 1 := by
      rw [length_slice]
      omega
    rw [hread] at h
    rw [numberAt_of_take h 1 1 (by omega), protocolAt_of_take h 0 (by omega), hlen, if_pos hin, slice, slice, h]

theorem octets_fields : octets.Fields where
  version b rest := by simp [octets, Octets.ofPacket, numberAt, bigEndian, slice]
  totalLen data := rfl
  payloadLen data r h := by
    simp only [octets, Octets.ipv6] at h
    split_ifs at h
    obtain rfl := some.inj h
    rfl
  header {data data'} h20 h := by
    have hread : ∀ i k, i + k ≤ 20 → numberAt data' i k = numberAt data i k :=
      fun i k hk => numberAt_of_take h i k (le_trans hk h20)
    have hprotocol : protocolAt data' 9 = protocolAt data 9 := protocolAt_of_take h 9 (by omega)
    simp only [octets, Octets.ipv4] at h ⊢
    simp only [hread 0 1 (by decide), hread 2 2 (by decide), hread 4 2 (by decide), hread 6 1 (by decide),
      hread 6 2 (by decide), hread 8 1 (by decide), hread 12 4 (by decide), hread 16 4 (by decide), hprotocol, h]

end Kotoconn.Tun
