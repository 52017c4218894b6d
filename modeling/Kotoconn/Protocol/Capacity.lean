import Mathlib

/-!
# `queue.rs`: the adaptive allowance

`Capacity` keeps `TARGET_DELAY` of its measured consumption, at least its initial value (`initial_le_target`). Times are
nanoseconds.
-/

namespace Kotoconn.Protocol

def initialBytes : Nat := 128 * 1024

/-- `FEEDBACK_INTERVAL`, 16 ms. -/
def feedbackInterval : Nat := 16000000

/-- `TARGET_DELAY`, 512 µs. -/
def targetDelay : Nat := 512000

def usizeMax : Nat := 2 ^ 64 - 1

structure Capacity where
  initial : Nat
  current : Nat
  epoch : Nat
  completed : Nat
  deriving DecidableEq

namespace Capacity

def new (initial now : Nat) : Capacity := ⟨initial, initial, now, 0⟩

/-- The state after `target`: an interval that has passed is measured and closed. -/
def refresh (c : Capacity) (now : Nat) : Capacity :=
  let elapsed := now - c.epoch
  if feedbackInterval ≤ elapsed then
    let sample := min (c.completed * targetDelay / elapsed) usizeMax
    let periods := min (elapsed / feedbackInterval) 63
    { c with current := max (max sample (c.current / 2 ^ periods)) c.initial, completed := 0, epoch := now }
  else c

def target (c : Capacity) (now : Nat) : Nat × Capacity := ((c.refresh now).current, c.refresh now)

def complete (c : Capacity) (bytes now : Nat) : Capacity :=
  let c := c.refresh now
  { c with completed := min (c.completed + bytes) usizeMax }

def Sane (c : Capacity) : Prop := c.initial ≤ c.current

theorem new_sane (initial now : Nat) : (new initial now).Sane := le_rfl

@[simp] theorem refresh_initial (c : Capacity) (now : Nat) : (c.refresh now).initial = c.initial := by
  unfold refresh
  simp only
  split_ifs <;> rfl

theorem Sane.refresh {c : Capacity} (h : c.Sane) (now : Nat) : (c.refresh now).Sane := by
  unfold Capacity.refresh Sane
  simp only
  split_ifs
  · exact le_max_right _ _
  · exact h

theorem Sane.complete {c : Capacity} (h : c.Sane) (bytes now : Nat) : (c.complete bytes now).Sane := h.refresh now

theorem Sane.initial_le_target {c : Capacity} (h : c.Sane) (now : Nat) : c.initial ≤ (c.target now).1 := by
  have := h.refresh now
  rwa [Sane, refresh_initial] at this

end Capacity

end Kotoconn.Protocol
