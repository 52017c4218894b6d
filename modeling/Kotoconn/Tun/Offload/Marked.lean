import Kotoconn.Tun.Offload.Normalize
import Kotoconn.Tun.Packet.Headers

/-! # Frames with offload metadata are not fragments -/

namespace Kotoconn.Tun

open Lib List

def Received.Marked (r : Received) : Prop := r.checksumVerified = true ∨ r.udpSegmentSize ≠ none

namespace OffloadWire
variable {e : OffloadWire}

/-- `set_len` writes in place. -/
def KeepsLength (e : OffloadWire) : Prop :=
  ∀ {body : Bytes} (n : Nat), e.udpChecked body = true → (e.setLen body n).length = body.length

theorem segment_packet {header : VirtioNetHdr} {v6 : Bool} {protocol : IpProtocol} {packet packet' : Bytes}
    {start : Nat} {size : Option Nat} (h : e.segment header v6 protocol packet start = .ok (size, packet')) :
    packet' = packet ∨ start ≤ packet.length ∧ e.udpChecked (packet.drop start) = true ∧
      packet' = packet.take start ++ e.setLen (packet.drop start) (packet.drop start).length := by
  unfold segment at h
  obtain ⟨_, hbody, h⟩ := except_bind_eq_ok.1 h
  obtain ⟨hstart, rfl⟩ := sliceFrom_eq_ok.1 hbody
  simp only [invalid] at h
  split_ifs at h <;> cases h
  all_goals first | exact .inl rfl | exact .inr ⟨hstart, by simp_all, rfl⟩

theorem describe_unfragmented (hw : e.ip.LengthChecks) (hl : e.ip.Local)
    (hset : e.KeepsLength) {header : VirtioNetHdr} {v6 : Bool}
    {packet packet' : Bytes} {size : Option Nat} (h : e.describe header v6 packet = .ok (size, packet')) {p : Parsed}
    (hp : (parse e.ip packet').result = .ok p) : p.fragment = none := by
  unfold describe at h
  obtain ⟨⟨_, start⟩, htransport, h⟩ := except_bind_eq_ok.1 h
  obtain ⟨q, hq, hwhole, rfl, rfl⟩ := transport_eq_ok.1 htransport
  obtain ⟨_, -, h⟩ := except_bind_eq_ok.1 h
  simp only [invalid] at h
  split_ifs at h
  rcases segment_packet h with rfl | ⟨hstart, hchecked, rfl⟩
  · obtain rfl := Result.ok.inj (hq.symm.trans hp)
    exact hwhole
  · have hbefore : (packet.take q.start).length = q.start := length_take_of_le hstart
    refine parse_unfragmented hw hl hq hwhole ?_ ?_ hp
    · rw [length_append, hset _ hchecked, hbefore, length_drop]
      omega
    · rw [take_append_of_le_length (le_of_eq hbefore.symm), take_take, Nat.min_self]

theorem normalize_unfragmented (hw : e.ip.LengthChecks) (hl : e.ip.Local)
    (hset : e.KeepsLength) {frame frame' : Bytes} {size : Option Nat}
    (h : e.normalize frame = .ok (true, size, frame')) {p : Parsed}
    (hp : (parse e.ip (frame'.drop virtioNetHdrLen)).result = .ok p) : p.fragment = none := by
  obtain ⟨_, _, _, _, -, hlen, -, -, -, hdescribe, rfl⟩ := normalize_halves h
  rw [drop_left' (length_take_of_le hlen)] at hp
  exact describe_unfragmented hw hl hset hdescribe hp

/-- **A frame with metadata is not a fragment.** -/
theorem pollFrame_unfragmented (hw : e.ip.LengthChecks) (hl : e.ip.Local)
    (hset : e.KeepsLength) {offload : Bool} {frame : Bytes} {r : Received}
    (h : e.pollFrame offload frame = .ok r) (hmarked : r.Marked) {p : Parsed}
    (hp : (parse e.ip r.bytes).result = .ok p) : p.fragment = none := by
  unfold pollFrame at h
  cases offload with
  | false =>
    simp only [Bool.false_eq_true, if_false] at h
    split_ifs at h
    obtain ⟨_, hplain, h⟩ := except_bind_eq_ok.1 h
    obtain rfl := Except.ok.inj hplain
    obtain ⟨bytes, -, h⟩ := except_bind_eq_ok.1 h
    obtain rfl := Except.ok.inj h
    simp [Received.Marked] at hmarked
  | true =>
    simp only [if_true] at h
    split_ifs at h
    obtain ⟨⟨verified, _, _⟩, hnormal, h⟩ := except_bind_eq_ok.1 h
    obtain ⟨_, hbytes, h⟩ := except_bind_eq_ok.1 h
    rw [publish_fst] at hbytes
    obtain ⟨-, rfl⟩ := sliceFrom_eq_ok.1 hbytes
    obtain rfl := Except.ok.inj h
    cases verified with
    | true => exact normalize_unfragmented hw hl hset hnormal hp
    | false => simp [Received.Marked, (normalize_unverified hnormal).1] at hmarked

end OffloadWire

end Kotoconn.Tun
