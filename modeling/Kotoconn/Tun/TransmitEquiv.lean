import Kotoconn.Tun.Transmit
import Kotoconn.Tun.Udp.RoundTrip

/-! # Offloaded and plain transmission are equivalent -/

namespace Kotoconn.Tun
open Lib List

variable {u : UdpWire} {w : IpWire} {enc : Encoder} {source destination : SocketAddr} {payload : Bytes}

/-! ## One datagram -/

variable {size : Nat}

section
open Exec

end

/-! ## The meaning of items -/

variable {parts : List Bytes}

structure Aggregate (size : Nat) (parts : List Bytes) : Prop where
  equal : ∀ part ∈ parts, part.length = size
  count : parts.length ≤ 64
  total : size * parts.length ≤ 65507

theorem Aggregate.length_flatten (h : Aggregate size parts) : parts.flatten.length = size * parts.length := by
  rw [List.length_flatten, map_congr_left h.equal, map_const', sum_replicate_nat, mul_comm]

theorem Writer.gather_spec (pending : List Bytes) (h : Aggregate size parts) :
    Aggregate size (gather size parts pending).1 ∧
      (gather size parts pending).1 ++ (gather size parts pending).2 = parts ++ pending ∧
      parts.length ≤ (gather size parts pending).1.length ∧ (gather size parts pending).2.length ≤ pending.length := by
  induction pending generalizing parts with
  | nil => exact ⟨h, rfl, le_rfl, le_rfl⟩
  | cons payload _ ih =>
    rw [gather]
    split_ifs with hjoin
    · obtain ⟨hcount, htotal, hsize⟩ := hjoin
      have hnext : Aggregate size (parts ++ [payload]) := by
        refine ⟨?_, ?_, ?_⟩
        · intro part hpart
          rcases mem_append.1 hpart with hpart | hpart
          · exact h.equal part hpart
          · rw [mem_singleton.1 hpart, hsize]
        · rw [length_append]
          exact hcount
        · rw [length_append, mul_comm]
          exact htotal
      obtain ⟨hlimits, heq, hmore, _⟩ := ih hnext
      refine ⟨hlimits, ?_, ?_, ?_⟩
      · rw [heq, append_assoc]
        rfl
      · rw [length_append] at hmore
        omega
      · rw [length_cons]
        omega
    · exact ⟨h, rfl, le_rfl, le_rfl⟩

def Send.Bounded (mtu : Nat) : Send → Prop
  | udpSegments header parts size => Aggregate size parts ∧ parts ≠ [] ∧ size ≠ 0 ∧ header.length + size ≤ mtu
  | _ => True

namespace Writer

def shown (w : IpWire) (u : UdpWire) (s : Writer) : List Visible :=
  s.sent.flatMap (Send.visible w u) ++ s.packets.map .frame

/-- From `s` to `s'` the writer shows `m`, within the limits. -/
structure Shows (w : IpWire) (u : UdpWire) (m : List Visible × Encoder) (s s' : Writer) : Prop where
  shown : s'.shown w u = s.shown w u ++ m.1
  encoder : s'.encoder = m.2
  mtu : s'.encoder.mtu = s.encoder.mtu
  bounded : (∀ call ∈ s.sent, call.Bounded s.encoder.mtu) → ∀ call ∈ s'.sent, call.Bounded s.encoder.mtu

theorem Shows.refl (s : Writer) : Shows w u ([], s.encoder) s s :=
  ⟨(append_nil _).symm, rfl, rfl, id⟩

theorem Shows.trans {s s' s'' : Writer} {m m' : List Visible × Encoder} (h : Shows w u m s s')
    (h' : Shows w u m' s' s'') : Shows w u (m.1 ++ m'.1, m'.2) s s'' where
  shown := by rw [h'.shown, h.shown, append_assoc]
  encoder := h'.encoder
  mtu := h'.mtu.trans h.mtu
  bounded hs := by
    rw [← h.mtu]
    exact h'.bounded (h.mtu ▸ h.bounded hs)

variable (hu : u.Inverse w) (hsum : ∀ src dst protocol n, u.pseudoHeader src dst protocol n < 65536)
include hu hsum

end Writer

end Kotoconn.Tun
