import Kotoconn.Protocol.Capacity

/-!
# `reassembly.rs`: the shared budget of incomplete datagrams

`Leases L`: what a holder of leases calls, over any budget state `L`; `none` is a panic.

The pressure channel only wakes other owners and is left out.
-/

namespace Kotoconn.Tun

open Protocol

/-- A budget: `held` is the size of the lease the call is made on. -/
structure Leases (L : Type) where
  /-- `Lease::resize`; `false` is a refusal. -/
  resize : (state : L) → (held bytes now : Nat) → Option (Bool × L)
  /-- `Lease::complete` -/
  complete : (state : L) → (held now : Nat) → L
  /-- `Drop for Lease` -/
  drop : (state : L) → (held : Nat) → Option L

structure Limits where
  used : Nat
  capacity : Capacity
  /-- `used` is a `usize`. -/
  used_le : used ≤ usizeMax
  deriving DecidableEq

namespace Limits

def new (initial now : Nat) : Limits := ⟨0, Capacity.new initial now, zero_le⟩

/-- `Limits::default` -/
def byDefault (now : Nat) : Limits := new (4 * initialBytes) now

def needsHeadroom (s : Limits) (now : Nat) : Bool × Limits :=
  let (target, capacity) := s.capacity.target now
  (target - target / 4 < s.used, { s with capacity })

def resize (s : Limits) (held bytes now : Nat) : Option (Bool × Limits) :=
  if s.used < held then none
  else
    let total := s.used - held + bytes
    if htotal : total ≤ usizeMax then
      if held < bytes then
        let (target, capacity) := s.capacity.target now
        if target < total then some (false, { s with capacity }) else some (true, ⟨total, capacity, htotal⟩)
      else some (true, ⟨total, s.capacity, htotal⟩)
    else some (false, s)

def complete (s : Limits) (held now : Nat) : Limits := { s with capacity := s.capacity.complete held now }

def drop (s : Limits) (held : Nat) : Option Limits :=
  if s.used < held then none
  else some ⟨s.used - held, s.capacity, le_trans (Nat.sub_le _ _) s.used_le⟩

def leases : Leases Limits := ⟨resize, complete, drop⟩

/-- Only one lease, of `held` bytes, under an allowance of at least `initial`. -/
structure Lone (s : Limits) (initial held : Nat) : Prop where
  used : s.used = held
  sane : s.capacity.Sane
  initial : s.capacity.initial = initial

theorem lone_byDefault (now : Nat) : (byDefault now).Lone (4 * initialBytes) 0 :=
  ⟨rfl, Capacity.new_sane _ _, rfl⟩

variable {s : Limits} {initial held : Nat}

theorem Lone.resize (h : s.Lone initial held) {bytes : Nat} (hb : bytes ≤ initial) (hmax : initial ≤ usizeMax)
    (now : Nat) : ∃ s', s.resize held bytes now = some (true, s') ∧ s'.Lone initial bytes := by
  have hinit := h.sane.initial_le_target now
  rw [h.initial] at hinit
  have htotal : s.used - held + bytes = bytes := by rw [h.used]; omega
  unfold Limits.resize
  rw [if_neg (by rw [h.used]; omega)]
  simp only [htotal]
  rw [dif_pos (by omega)]
  by_cases hgrow : held < bytes
  · rw [if_pos hgrow, if_neg (by omega)]
    exact ⟨_, rfl, rfl, h.sane.refresh now, (Capacity.refresh_initial _ _).trans h.initial⟩
  · rw [if_neg hgrow]
    exact ⟨_, rfl, rfl, h.sane, h.initial⟩

theorem Lone.drop (h : s.Lone initial held) : ∃ s', s.drop held = some s' := by
  unfold Limits.drop
  rw [if_neg (by rw [h.used]; omega)]
  exact ⟨_, rfl⟩

theorem resize_empty (s : Limits) (now : Nat) : s.resize 0 0 now = some (true, s) := by
  have htotal : s.used - 0 + 0 ≤ usizeMax := s.used_le
  unfold Limits.resize
  simp only [Nat.not_lt_zero, if_false, dif_pos htotal]
  rfl

theorem Lone.complete (h : s.Lone initial held) (bytes now : Nat) : (s.complete bytes now).Lone initial held :=
  ⟨h.used, h.sane.complete bytes now, (Capacity.refresh_initial _ _).trans h.initial⟩

end Limits

end Kotoconn.Tun
