import Kotoconn.Tun.Packet.Parse
import Kotoconn.Tun.Packet.Octets

/-! # `parse` on hostile input -/

namespace Kotoconn.Tun

open Lib Exec List

/-- Options up to the first end-of-list: each has a length that covers its own two bytes and stays inside, and none is
a loose or strict source route. -/
inductive WellFormedOptions : Bytes → Prop where
  | nil : WellFormedOptions []
  | endOfList (rest : Bytes) : WellFormedOptions (0 :: rest)
  | noOperation {rest : Bytes} : WellFormedOptions rest → WellFormedOptions (1 :: rest)
  | option {kind len : UInt8} {body rest : Bytes} : kind ∉ [0, 1, 131, 137] → len.toNat = 2 + body.length →
      WellFormedOptions rest → WellFormedOptions (kind :: len :: (body ++ rest))

/-! ## The option walk -/

theorem ipv4OptionsFrom_ensures (n : Nat) (options : Bytes) (hn : options.length ≤ n) :
    Ensures (ipv4OptionsFrom n options) options.length (fun ok => ok = true → WellFormedOptions options) := by
  induction n generalizing options with
  | zero =>
    obtain rfl := length_eq_zero_iff.1 (Nat.le_zero.1 hn)
    exact ensures_pure fun _ => .nil
  | succ _ ih =>
    cases options with
    | nil => exact ensures_pure fun _ => .nil
    | cons kind rest =>
      rw [length_cons] at hn
      rw [ipv4OptionsFrom]
      refine ensures_tick ?_
      simp only
      split_ifs with h0 h1 hroute
      · subst h0
        exact ensures_pure fun _ => .endOfList rest
      · subst h1
        refine ensures_seq (ensures_slice (by simp) le_rfl) fun b hb => ?_
        have hb : b = rest := by rw [hb, slice_to_end, drop_one, tail_cons]
        subst hb
        exact (ih b (by omega)).mono le_rfl fun ok hok h => .noOperation (hok h)
      · exact ensures_pure fun h => nomatch h
      · cases rest with
        | nil => exact ensures_pure fun h => nomatch h
        | cons len body =>
          simp only [getElem?_cons_succ, getElem?_cons_zero, length_cons] at hn ⊢
          split_ifs with hlen
          · exact ensures_pure fun h => nomatch h
          · -- the option's own bytes are skipped, at least two of them
            refine ensures_seq (ensures_slice (by omega) (by simp)) fun b hb => ?_
            have hb : b = body.drop (len.toNat - 2) := by
              obtain ⟨k, hk⟩ : ∃ k, len.toNat = k + 2 := ⟨len.toNat - 2, by omega⟩
              rw [hb, hk]
              exact slice_to_end (kind :: len :: body) (k + 2)
            subst hb
            refine (ih _ (by rw [length_drop]; omega)).mono (by rw [length_drop]; omega) fun ok hok h => ?_
            rw [← take_append_drop (len.toNat - 2) body]
            refine .option ?_ (by rw [length_take]; omega) (hok h)
            simp only [mem_cons, not_mem_nil, or_false, not_or] at hroute ⊢
            exact ⟨h0, h1, hroute⟩

theorem ipv4Options_ensures (options : Bytes) :
    Ensures (ipv4Options options) options.length (fun ok => ok = true → WellFormedOptions options) :=
  ipv4OptionsFrom_ensures options.length options le_rfl

/-! ## The extension chain -/

theorem ipv6Options_ensures (w : IpWire) (options : List (Option Ipv6OptionRepr)) :
    Ensures (ipv6Options w options) options.length (fun _ => True) := by
  induction options with
  | nil => exact ensures_pure trivial
  | cons _ _ ih =>
    rw [ipv6Options]
    refine ensures_tick (ensures_seq ensures_ofOption fun o _ => ?_)
    cases o with
    | known => exact ih
    | unknown => exact ensures_seq ensures_guard fun _ _ => ih

variable {w : IpWire}

variable (hw : w.LengthChecks)
include hw

/-- The payload left at each header is a suffix, so the options walked add up to at most the bytes passed. -/
theorem ipv6ExtensionsFrom_ensures (initialLen n : Nat) (protocol : IpProtocol) (payload : Bytes)
    (hle : payload.length ≤ initialLen) :
    Ensures (ipv6ExtensionsFrom w initialLen n protocol payload) (payload.length + n)
      (fun r => r.2.1.length ≤ payload.length) := by
  induction n generalizing protocol payload with
  | zero => exact ensures_reject
  | succ n ih =>
    have hopts : Ensures (do
        Exec.guard !(protocol == IpProtocol.hopByHop && n + 1 != 8)
        let repr ← ofOption (w.extHeader payload)
        ipv6Options w (w.options repr.data)
        let rest ← Exec.slice payload (repr.headerLen + repr.data.length) payload.length
        ipv6ExtensionsFrom w initialLen n repr.nextHeader rest) (payload.length + n)
        (fun r => r.2.1.length ≤ payload.length) := by
      refine ensures_seq ensures_guard fun _ _ => ensures_seq ensures_ofOption fun repr hrepr => ?_
      have hin := hw.extHeader_complete _ _ hrepr
      have hturns := hw.options_length repr.data
      have hrest : ∀ rest : Bytes, rest = Lib.slice payload (repr.headerLen + repr.data.length) payload.length →
          rest.length + repr.data.length ≤ payload.length := by
        intro rest h
        rw [h, slice_to_end, length_drop]
        omega
      have hbody := ensures_bind (ipv6Options_ensures w (w.options repr.data)) fun _ _ =>
        ensures_seq (ensures_slice hin le_rfl) fun rest h =>
          (ih repr.nextHeader rest (by have := hrest rest h; omega)).mono
            (show _ ≤ payload.length - repr.data.length + n by have := hrest rest h; omega)
            (fun r hr => show r.2.1.length ≤ payload.length by have := hrest rest h; omega)
      exact hbody.mono (by omega) fun r hr => hr
    cases protocol with
    | hopByHop => exact ensures_tick hopts
    | ipv6Opts => exact ensures_tick hopts
    | tcp => exact ensures_tick (ensures_pure le_rfl)
    | udp => exact ensures_tick (ensures_pure le_rfl)
    | icmpv6 => exact ensures_tick (ensures_pure le_rfl)
    | unknown => exact ensures_tick ensures_reject
    | ipv6Frag =>
      rw [ipv6ExtensionsFrom]
      refine ensures_tick (ensures_seq ensures_guard fun _ h8 => ?_)
      have h8 : 8 ≤ payload.length := of_decide_eq_true h8
      refine ensures_seq (ensures_slice (zero_le) h8) fun header hheader => ?_
      have hheader : header.length = 8 := by rw [hheader, length_slice]; omega
      refine ensures_seq (ensures_slice (by omega) le_rfl) fun _ _ => ?_
      refine ensures_seq ensures_ofOption fun fragment _ => ?_
      refine ensures_seq (ensures_index (by omega)) fun number _ => ?_
      refine ensures_seq ensures_guard fun _ _ => ?_
      refine ensures_seq (ensures_slice h8 le_rfl) fun rest hrest => ?_
      refine ensures_seq (ensures_sub hle) fun prefixLen _ => ensures_pure ?_
      rw [hrest, slice_to_end, length_drop]
      omega

theorem ipv6Extensions_ensures (protocol : IpProtocol) (payload : Bytes) :
    Ensures (ipv6Extensions w protocol payload) (payload.length + 8) (fun r => r.2.1.length ≤ payload.length) :=
  ipv6ExtensionsFrom_ensures hw payload.length 8 protocol payload le_rfl

/-! ## The packet -/

/-- No slice, index or subtraction of `parse` and its walks fails, their turns are bounded by the input, and an IPv4
packet that is accepted has well-formed options. -/
structure ParseSafe (w : IpWire) (data : Bytes) : Prop where
  packet : Ensures (parse w data) data.length
    (fun p => p.ip.isIpv4 = true → WellFormedOptions (Lib.slice data 20 (w.ipv4 data).headerLen))
  options : Ensures (ipv4Options data) data.length (fun _ => True)
  extensions : ∀ protocol, Ensures (ipv6Extensions w protocol data) (data.length + 8) (fun _ => True)

theorem parseIpv4_ensures (data : Bytes) : Ensures (parseIpv4 w data) data.length
    (fun _ => WellFormedOptions (Lib.slice data 20 (w.ipv4 data).headerLen)) := by
  unfold parseIpv4
  refine ensures_seq ensures_guard fun _ hchecked => ensures_seq ensures_guard fun _ _ => ?_
  obtain ⟨-, hheader, hin, hlen⟩ := (hw.ipv4_checked data).1 hchecked
  refine ensures_seq (ensures_slice hin hlen) fun payload _ => ?_
  refine ensures_seq (ensures_slice hheader (le_trans hin hlen)) fun options hoptions => ?_
  subst hoptions
  refine ensures_then (ipv4Options_ensures _) (by rw [length_slice]; omega) fun ok hok => ?_
  exact ensures_seq ensures_guard fun _ htrue => ensures_seq ensures_guard fun _ _ => ensures_pure (hok htrue)

theorem parseIpv6_ensures (data : Bytes) :
    Ensures (parseIpv6 w data) data.length (fun p => p.ip.isIpv4 = false) := by
  unfold parseIpv6
  refine ensures_seq ensures_ofOption fun repr hrepr => ?_
  have hlen := hw.ipv6_payload _ _ hrepr
  refine ensures_seq (ensures_slice le_self_add hlen) fun initial hinitial => ?_
  have hinit : initial.length = repr.payloadLen := by rw [hinitial, length_slice]; omega
  exact ensures_then (ipv6Extensions_ensures hw repr.nextHeader initial) (by omega) fun r _ => ensures_pure rfl

omit hw

/-- **`parse` is safe on every input.** -/
theorem parse_safe (hw : w.LengthChecks) (data : Bytes) : ParseSafe w data := by
  refine ⟨?_, (ipv4Options_ensures data).mono le_rfl fun _ _ => trivial,
    fun protocol => (ipv6Extensions_ensures hw protocol data).mono le_rfl fun _ _ => trivial⟩
  unfold parse
  refine ensures_seq ensures_ofOption fun _ _ => ensures_seq ensures_ofOption fun version _ => ?_
  cases version with
  | ipv4 =>
    exact ensures_then (parseIpv4_ensures hw data) le_rfl fun p hp =>
      ensures_seq ensures_guard fun _ _ => ensures_pure fun _ => hp
  | ipv6 =>
    refine ensures_then (parseIpv6_ensures hw data) le_rfl fun p hp =>
      ensures_seq ensures_guard fun _ _ => ensures_pure fun h4 => ?_
    rw [hp] at h4
    cases h4

/-- An IPv4 packet with a record route option and a payload of one byte. -/
def optionsPacket : Bytes := [0x46, 0, 0, 25, 0, 0, 0, 0, 64, 17, 0x5a, 0xcf, 10, 0, 0, 1, 10, 0, 0, 2, 7, 3, 4, 0, 9]

theorem parse_safe_options : octets.LengthChecks ∧ (∃ p, (parse octets optionsPacket).result = .ok p) ∧
    ParseSafe octets optionsPacket :=
  ⟨octets_lengthChecks, ⟨_, rfl⟩, parse_safe octets_lengthChecks optionsPacket⟩

/-- The readers on octets with a check that puts no lower bound on the header length. -/
def unbounded : IpWire where
  __ := octets
  ipv4Checked data := 20 ≤ data.length && (Octets.ipv4 data).headerLen ≤ (Octets.ipv4 data).totalLen &&
    (Octets.ipv4 data).totalLen ≤ data.length

def shortHeaderPacket : Bytes := [0x42, 0, 0, 20, 0xbd, 0xeb, 0, 0, 64, 17, 0, 0, 10, 0, 0, 1, 10, 0, 0, 2]

theorem parse_shortHeader_panics : (∀ data, unbounded.ipv4Checked data = true ↔ 20 ≤ data.length ∧
    (unbounded.ipv4 data).headerLen ≤ (unbounded.ipv4 data).totalLen ∧ (unbounded.ipv4 data).totalLen ≤ data.length) ∧
    (parse unbounded shortHeaderPacket).result = .panic :=
  ⟨fun data => by simp [unbounded, octets, and_assoc], by decide⟩

end Kotoconn.Tun
