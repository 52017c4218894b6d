import Kotoconn.Protocol.Queue

/-!
# The allowance follows consumption

`Capacity.adapts`: the allowance over any calls; `Capacity.target_rises`: it can rise after the last completion.
-/

namespace Kotoconn.Protocol
open List Option

/-! ## The arithmetic of the machine -/

/-- `/`; `none` is a division by zero. -/
def quotient (a b : Nat) : Option Nat := if b = 0 then none else some (a / b)

/-- `>>` on `usize`; `none` is an overflow, as below. -/
def shiftRight (a k : Nat) : Option Nat := if k < 64 then some (a / 2 ^ k) else none

def saturatingMul (a b : Nat) : Option Nat := some (min (a * b) (2 ^ 128 - 1))

/-- `*` on `u128` -/
def checkedMul (a b : Nat) : Option Nat := if a * b < 2 ^ 128 then some (a * b) else none

/-- The target after an interval of `elapsed` nanoseconds. -/
def feedback (mul : Nat → Nat → Option Nat) (completed elapsed target initial : Nat) : Option Nat := do
  let sample ← quotient (← mul completed targetDelay) elapsed
  let periods ← quotient elapsed feedbackInterval
  let shifted ← shiftRight target (min periods 63)
  return max (max (min sample usizeMax) shifted) initial

theorem feedback_eq {mul : Nat → Nat → Option Nat} {completed elapsed : Nat} (target initial : Nat)
    (hmul : mul completed targetDelay = some (completed * targetDelay)) (helapsed : feedbackInterval ≤ elapsed) :
    feedback mul completed elapsed target initial = some (max (max (min (completed * targetDelay / elapsed) usizeMax)
      (target / 2 ^ min (elapsed / feedbackInterval) 63)) initial) := by
  have hpos : elapsed ≠ 0 := by
    have : 0 < feedbackInterval := by decide
    omega
  have hinterval : feedbackInterval ≠ 0 := by decide
  have hperiods : min (elapsed / feedbackInterval) 63 < 64 := by omega
  simp only [feedback, hmul, quotient, shiftRight, if_neg hpos, if_neg hinterval, if_pos hperiods, bind_eq_bind,
    bind_some, Option.pure_def]

theorem mul_targetDelay {completed : Nat} (h : completed ≤ usizeMax) :
    saturatingMul completed targetDelay = some (completed * targetDelay) ∧
      checkedMul completed targetDelay = some (completed * targetDelay) := by
  have hlt : completed * targetDelay < 2 ^ 128 := by
    have : usizeMax * targetDelay < 2 ^ 128 := by decide
    exact lt_of_le_of_lt (Nat.mul_le_mul_right _ h) this
  unfold saturatingMul checkedMul
  exact ⟨congrArg some (min_eq_left (Nat.le_pred_of_lt hlt)), if_pos hlt⟩

namespace Capacity

inductive Call where
  | target (now : Nat)
  | complete (bytes now : Nat)

namespace Call

def now : Call → Nat
  | target now | complete _ now => now

def bytes : Call → Nat
  | target _ => 0
  | complete bytes _ => bytes

end Call

def call (c : Capacity) : Call → Capacity
  | .target now => (c.target now).2
  | .complete bytes now => c.complete bytes now

def run (c : Capacity) (calls : List Call) : Capacity := calls.foldl call c

/-- `target`, in the arithmetic of the machine. -/
def targetChecked (c : Capacity) (now : Nat) : Option Capacity :=
  let elapsed := now - c.epoch
  if feedbackInterval ≤ elapsed then
    (feedback saturatingMul c.completed elapsed c.current c.initial).map fun current =>
      { c with current, completed := 0, epoch := now }
  else some c

def callChecked (c : Capacity) : Call → Option Capacity
  | .target now => c.targetChecked now
  | .complete bytes now =>
    (c.targetChecked now).map fun c => { c with completed := min (c.completed + bytes) usizeMax }

/-! ## Feedback intervals -/

structure Intervals where
  since : Nat
  bytes : Nat
  closed : List (Nat × Nat)

namespace Intervals

def close (i : Intervals) (now : Nat) : Intervals :=
  if feedbackInterval ≤ now - i.since then ⟨now, 0, (i.bytes, now - i.since) :: i.closed⟩ else i

def call (i : Intervals) (call : Call) : Intervals :=
  { i.close call.now with bytes := (i.close call.now).bytes + call.bytes }

def of (start : Nat) (calls : List Call) : Intervals := calls.foldl call ⟨start, 0, []⟩

end Intervals

structure Measures (initial : Nat) (c : Capacity) (i : Intervals) : Prop where
  fixed : c.initial = initial
  sane : initial ≤ c.current
  epoch : c.epoch = i.since
  completed : c.completed = min i.bytes usizeMax
  lengths : ∀ x ∈ i.closed, feedbackInterval ≤ x.2
  upper : c.current ≤ initial ∨ ∃ x ∈ i.closed, c.current ≤ x.1 * targetDelay / x.2

variable {initial start now : Nat} {c : Capacity} {i : Intervals} {calls : List Call}

theorem Measures.refresh (h : Measures initial c i) (now : Nat) : Measures initial (c.refresh now) (i.close now) := by
  unfold Capacity.refresh Intervals.close
  simp only [h.epoch]
  split_ifs with hclosed
  · refine ⟨h.fixed, ?_, rfl, rfl, forall_mem_cons.2 ⟨hclosed, h.lengths⟩, ?_⟩
    · rw [h.fixed]
      exact le_max_right _ _
    · have hsample : min (c.completed * targetDelay / (now - i.since)) usizeMax ≤
          i.bytes * targetDelay / (now - i.since) := by
        refine le_trans (min_le_left _ _) (Nat.div_le_div_right (Nat.mul_le_mul_right _ ?_))
        rw [h.completed]
        exact min_le_left _ _
      have hshift := Nat.div_le_self c.current (2 ^ min ((now - i.since) / feedbackInterval) 63)
      simp only [h.fixed]
      generalize min (c.completed * targetDelay / (now - i.since)) usizeMax = sample at hsample
      generalize c.current / 2 ^ min ((now - i.since) / feedbackInterval) 63 = shifted at hshift
      -- the new target is the sample, what is left of the old target, or the initial value
      by_cases hinitial : max sample shifted ≤ initial
      · exact .inl (by omega)
      · by_cases hmax : shifted ≤ sample
        · exact .inr ⟨_, mem_cons_self, le_trans (by omega) hsample⟩
        · rcases h.upper with hle | ⟨x, hx, hle⟩
          · exact .inl (by omega)
          · exact .inr ⟨x, mem_cons_of_mem _ hx, by omega⟩
  · exact h

theorem Measures.call (h : Measures initial c i) (call : Call) : Measures initial (c.call call) (i.call call) := by
  have hrefresh := h.refresh call.now
  cases call with
  | target => exact hrefresh
  | complete bytes now =>
    refine ⟨hrefresh.fixed, hrefresh.sane, hrefresh.epoch, ?_, hrefresh.lengths, hrefresh.upper⟩
    show min ((c.refresh now).completed + bytes) usizeMax = min ((i.close now).bytes + bytes) usizeMax
    have := hrefresh.completed
    simp only [Call.now] at this
    omega

theorem Measures.run (h : Measures initial c i) (calls : List Call) :
    Measures initial (c.run calls) (calls.foldl Intervals.call i) := by
  induction calls generalizing c i with
  | nil => exact h
  | cons call _ ih => exact ih (h.call call)

theorem measures_new (initial start : Nat) : Measures initial (new initial start) ⟨start, 0, []⟩ :=
  ⟨rfl, le_rfl, rfl, rfl, nofun, .inl le_rfl⟩

variable (h : Measures initial c i)
include h

/-- Nothing was completed in the open interval: the target is halved for each interval that has passed. -/
theorem Measures.halved (hnone : i.bytes = 0) (now : Nat) :
    (c.refresh now).current = max initial (c.current / 2 ^ min ((now - i.since) / feedbackInterval) 63) := by
  have hzero : c.completed = 0 := by rw [h.completed, hnone, Nat.zero_min]
  unfold Capacity.refresh
  simp only [h.epoch, hzero, h.fixed]
  split_ifs with hclosed
  · rw [Nat.zero_mul, Nat.zero_div, Nat.zero_min, Nat.zero_max, Nat.max_comm]
  · have := h.sane
    rw [Nat.div_eq_of_lt (not_le.1 hclosed), Nat.zero_min, Nat.pow_zero, Nat.div_one]
    omega

theorem Measures.falls (hnone : i.bytes = 0) (hcalls : ∀ call ∈ calls, call.bytes = 0) :
    (c.run calls).current ≤ c.current := by
  induction calls generalizing c i with
  | nil => exact le_rfl
  | cons call calls ih =>
    obtain ⟨hcall, hcalls⟩ := forall_mem_cons.1 hcalls
    have hkept : (i.call call).bytes = 0 := by
      unfold Intervals.call Intervals.close
      rw [hcall]
      split_ifs
      · rfl
      · exact hnone
    have hcurrent : (c.call call).current = (c.refresh call.now).current := by cases call <;> rfl
    have hle : (c.call call).current ≤ c.current := by
      have hshift := Nat.div_le_self c.current (2 ^ min ((call.now - i.since) / feedbackInterval) 63)
      rw [hcurrent, h.halved hnone]
      exact Nat.max_le.2 ⟨h.sane, hshift⟩
    exact le_trans (ih (h.call call) hkept hcalls) hle

/-! ## The machine -/

theorem Measures.targetChecked (now : Nat) : c.targetChecked now = some (c.refresh now) := by
  unfold Capacity.targetChecked Capacity.refresh
  simp only
  split_ifs with hclosed
  · rw [feedback_eq _ _ (mul_targetDelay (h.completed ▸ min_le_right _ _)).1 hclosed]
    rfl
  · rfl

theorem Measures.callChecked (call : Call) : c.callChecked call = some (c.call call) := by
  cases call with
  | target now => exact h.targetChecked now
  | complete bytes now =>
    simp only [Capacity.callChecked, h.targetChecked]
    rfl

omit h

end Capacity

namespace Queue.Shared
variable {T : Type} {s : Shared T}

/-- `refresh`, in the arithmetic of the machine; nobody else is refreshing. -/
def refreshChecked (s : Shared T) (now : Nat) : Option (Shared T) :=
  let now := min now (2 ^ 64 - 1)
  let elapsed := now - s.updated
  if elapsed < feedbackInterval then some s
  else (feedback checkedMul s.completed elapsed s.target s.initial).map fun target =>
    { s with target, completed := 0, updated := now }

/-- `refresh` and `Receiver::complete` of a queue made at `start`; `fetch_add` wraps. -/
def callChecked (start : Nat) (s : Shared T) : Capacity.Call → Option (Shared T)
  | .target now => s.refreshChecked (now - start)
  | .complete bytes now => ((s.release bytes).refreshChecked (now - start)).map fun s =>
      { s with completed := (s.completed + bytes) % 2 ^ 64 }

/-- A queue with the allowance of a `Capacity`. -/
structure Agrees (start : Nat) (c : Capacity) (s : Shared T) : Prop where
  initial : s.initial = c.initial
  target : s.target = c.current
  updated : c.epoch = start + s.updated
  completed : s.completed = c.completed

variable {start now initial : Nat} {c : Capacity} {i : Capacity.Intervals}

theorem Agrees.refresh (h : s.Agrees start c) (hc : c.Measures initial i) (hnow : now - start < 2 ^ 64) :
    ∃ s', s.refreshChecked (now - start) = some s' ∧ s'.Agrees start (c.refresh now) := by
  have helapsed : now - start - s.updated = now - c.epoch := by
    have := h.updated
    omega
  have hmin : min (now - start) (2 ^ 64 - 1) = now - start := by omega
  unfold refreshChecked Capacity.refresh
  simp only [hmin, helapsed]
  by_cases hclosed : feedbackInterval ≤ now - c.epoch
  · have hle : s.completed ≤ usizeMax := by
      rw [h.completed, hc.completed]
      exact min_le_right _ _
    have hstart : start ≤ now := by
      have : 0 < feedbackInterval := by decide
      omega
    rw [if_neg (not_lt.2 hclosed), if_pos hclosed, feedback_eq _ _ (mul_targetDelay hle).2 hclosed]
    refine ⟨_, rfl, h.initial, ?_, (Nat.add_sub_cancel' hstart).symm, rfl⟩
    simp only [h.completed, h.target, h.initial]
  · rw [if_pos (not_le.1 hclosed), if_neg hclosed]
    exact ⟨s, rfl, h⟩

theorem Agrees.call (h : s.Agrees start c) (hc : c.Measures initial i) {call : Capacity.Call}
    (hnow : call.now - start < 2 ^ 64) (hbytes : (i.call call).bytes < 2 ^ 64) :
    ∃ s', s.callChecked start call = some s' ∧ s'.Agrees start (c.call call) := by
  cases call with
  | target => exact h.refresh hc hnow
  | complete bytes now =>
    have hrelease : (s.release bytes).Agrees start c := ⟨h.initial, h.target, h.updated, h.completed⟩
    have hnow' : now - start < 2 ^ 64 := hnow
    obtain ⟨s', hs', hagrees⟩ := hrelease.refresh hc hnow'
    simp only [callChecked, hs']
    refine ⟨_, rfl, hagrees.initial, hagrees.target, hagrees.updated, ?_⟩
    show (s'.completed + bytes) % 2 ^ 64 = min ((c.refresh now).completed + bytes) usizeMax
    have hlt : (i.close now).bytes + bytes < 2 ^ 64 := hbytes
    have hcompleted := (hc.refresh now).completed
    rw [hagrees.completed, hcompleted, usizeMax] at *
    omega

end Queue.Shared

namespace Capacity
variable {initial start : Nat} {calls : List Call}

def targets {σ : Type} (step : σ → Call → Option σ) (target : σ → Nat) : σ → List Call → Option (List Nat)
  | _, [] => some []
  | s, call :: calls => do
    let s ← step s call
    return target s :: (← targets step target s calls)

def currents (c : Capacity) : List Call → List Nat
  | [] => []
  | call :: calls => (c.call call).current :: (c.call call).currents calls

theorem targets_eq {i : Intervals} {c : Capacity} (h : Measures initial c i) :
    targets callChecked current c calls = some (c.currents calls) := by
  induction calls generalizing c i with
  | nil => rfl
  | cons call calls ih =>
    rw [targets, h.callChecked, bind_eq_bind, bind_some, ih (h.call call)]
    rfl

theorem queue_targets {T : Type} {s : Queue.Shared T} {i : Intervals} {c : Capacity} (h : s.Agrees start c)
    (hc : Measures initial c i) (hnow : ∀ call ∈ calls, call.now - start < 2 ^ 64)
    (hbytes : ∀ before, before <+: calls → (before.foldl Intervals.call i).bytes < 2 ^ 64) :
    targets (Queue.Shared.callChecked start) Queue.Shared.target s calls = some (c.currents calls) := by
  induction calls generalizing c i s with
  | nil => rfl
  | cons call calls ih =>
    obtain ⟨hfirst, hnow⟩ := forall_mem_cons.1 hnow
    obtain ⟨s', hs', hagrees⟩ := h.call hc hfirst (hbytes [call] ⟨calls, rfl⟩)
    have hrest := ih hagrees (hc.call call) hnow fun before hbefore =>
      hbytes (call :: before) (cons_prefix_cons.2 ⟨rfl, hbefore⟩)
    rw [targets, hs', bind_eq_bind, bind_some, hrest, hagrees.target]
    rfl

structure Adapts (initial start : Nat) (calls : List Call) : Prop where
  lower : initial ≤ ((new initial start).run calls).current
  upper : ((new initial start).run calls).current ≤ initial ∨ ∃ x ∈ (Intervals.of start calls).closed,
    feedbackInterval ≤ x.2 ∧ ((new initial start).run calls).current ≤ x.1 * targetDelay / x.2
  falls : (Intervals.of start calls).bytes = 0 → ∀ later, (∀ call ∈ later, call.bytes = 0) →
    (((new initial start).run calls).run later).current ≤ ((new initial start).run calls).current
  halved : (Intervals.of start calls).bytes = 0 → ∀ now, (((new initial start).run calls).target now).1 =
    max initial (((new initial start).run calls).current /
      2 ^ min ((now - (Intervals.of start calls).since) / feedbackInterval) 63)
  checked : targets callChecked current (new initial start) calls = some ((new initial start).currents calls)
  queue : (∀ call ∈ calls, call.now - start < 2 ^ 64) →
    (∀ before, before <+: calls → (Intervals.of start before).bytes < 2 ^ 64) → ∀ T : Type,
    targets (Queue.Shared.callChecked start) Queue.Shared.target (.new initial : Queue.Shared T) calls =
      targets callChecked current (new initial start) calls

/-- **The allowance tracks consumption only.** -/
theorem adapts (initial start : Nat) (calls : List Call) : Adapts initial start calls := by
  have hnew := measures_new initial start
  have h := hnew.run calls
  refine ⟨h.sane, ?_, fun hnone later => h.falls hnone, fun hnone => h.halved hnone, targets_eq hnew,
    fun hnow hbytes T => ?_⟩
  · refine h.upper.imp_right fun ⟨x, hx, hle⟩ => ⟨x, hx, h.lengths x hx, hle⟩
  · rw [targets_eq hnew, queue_targets ⟨rfl, rfl, rfl, rfl⟩ hnew hnow hbytes]

/-- **A rise without completions**: 16 ms after a completion, the interval that was open then is measured. -/
theorem target_rises : targets callChecked current (new 1000 0)
    [.complete 1000000000 1000000, .target 2000000, .target 17000000] = some [1000, 1000, 30117647] := by
  decide

end Capacity

end Kotoconn.Protocol
