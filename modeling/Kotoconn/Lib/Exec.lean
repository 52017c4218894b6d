import Kotoconn.Lib.Bytes

/-!
# Computations that can reject or panic, with their work

`Exec α` is a result (`ok`, `reject` for an early `None`, `panic` for a failed bounds check or assertion) and the number
of loop turns taken. `Ensures x n P` has one rule for each operation; `ensures_bind` chains them.
-/

namespace Kotoconn.Lib

inductive Result (α : Type) where
  | ok (a : α)
  | reject
  | panic
  deriving DecidableEq

structure Exec (α : Type) where
  result : Result α
  work : Nat

namespace Exec
variable {α β : Type}

instance : Monad Exec where
  pure a := ⟨.ok a, 0⟩
  bind x f :=
    match x.result with
    | .ok a => ⟨(f a).result, x.work + (f a).work⟩
    | .reject => ⟨.reject, x.work⟩
    | .panic => ⟨.panic, x.work⟩

/-- Leave with `None`. -/
def reject : Exec α := ⟨.reject, 0⟩

def panic : Exec α := ⟨.panic, 0⟩

def tick : Exec Unit := ⟨.ok (), 1⟩

/-- The `?` operator. -/
def ofOption : Option α → Exec α
  | some a => pure a
  | none => reject

/-- Go on only if `b`. -/
def guard (b : Bool) : Exec Unit := if b then pure () else reject

/-- `data[lo..hi]`. -/
def slice (data : Bytes) (lo hi : Nat) : Exec Bytes :=
  if lo ≤ hi ∧ hi ≤ data.length then pure (Lib.slice data lo hi) else panic

/-- `data[i]`. -/
def index (data : Bytes) (i : Nat) : Exec UInt8 :=
  match data[i]? with
  | some b => pure b
  | none => panic

/-- `a - b` on unsigned integers. -/
def sub (a b : Nat) : Exec Nat := if b ≤ a then pure (a - b) else panic

/-- The values of `f` over a list, in order. -/
def collect (f : α → Exec β) : List α → Exec (List β)
  | [] => pure []
  | a :: as => do
      let b ← f a
      let bs ← collect f as
      pure (b :: bs)

variable {f : α → Exec β} {x : Exec α}

theorem bind_ok {a : α} (h : x.result = .ok a) : x >>= f = ⟨(f a).result, x.work + (f a).work⟩ := by
  change (match x.result with | .ok a => _ | .reject => _ | .panic => _) = _
  rw [h]

theorem bind_reject (h : x.result = .reject) : x >>= f = ⟨.reject, x.work⟩ := by
  change (match x.result with | .ok a => _ | .reject => _ | .panic => _) = _
  rw [h]

theorem bind_result : (x >>= f).result =
    match x.result with | .ok a => (f a).result | .reject => .reject | .panic => .panic := by
  change (match x.result with | .ok a => (⟨_, _⟩ : Exec β) | .reject => _ | .panic => _).result = _
  cases x.result <;> rfl

theorem bind_eq_ok {b : β} : (x >>= f).result = .ok b ↔ ∃ a, x.result = .ok a ∧ (f a).result = .ok b := by
  rw [bind_result]
  cases x.result with
  | ok => simp
  | reject => simp
  | panic => simp

@[simp] theorem pure_result (a : α) : (pure a : Exec α).result = .ok a := rfl
@[simp] theorem reject_result : (reject : Exec α).result = .reject := rfl
@[simp] theorem panic_result : (panic : Exec α).result = .panic := rfl
@[simp] theorem tick_result : tick.result = .ok () := rfl

@[simp] theorem guard_eq_ok {b : Bool} : (guard b).result = .ok () ↔ b = true := by
  unfold guard
  split_ifs with h
  · simp [h]
  · simp [h]

@[simp] theorem ofOption_eq_ok {o : Option α} {a : α} : (ofOption o).result = .ok a ↔ o = some a := by
  cases o with
  | none => simp [ofOption]
  | some => simp [ofOption]

theorem slice_eq_ok {data b : Bytes} {lo hi : Nat} :
    (slice data lo hi).result = .ok b ↔ (lo ≤ hi ∧ hi ≤ data.length) ∧ b = Lib.slice data lo hi := by
  unfold slice
  split_ifs with h
  · simp [h, eq_comm]
  · simp [h]

theorem collect_eq_ok {g : α → β} {as : List α} (h : ∀ a ∈ as, (f a).result = .ok (g a)) :
    (collect f as).result = .ok (as.map g) := by
  induction as with
  | nil => rfl
  | cons _ _ ih =>
    rw [List.forall_mem_cons] at h
    exact bind_eq_ok.2 ⟨_, h.1, bind_eq_ok.2 ⟨_, ih h.2, rfl⟩⟩

/-! ## No panic, bounded work -/

/-- `x` does not panic, takes at most `n` turns, and its value satisfies `P`. -/
def Ensures (x : Exec α) (n : Nat) (P : α → Prop) : Prop :=
  x.result ≠ .panic ∧ x.work ≤ n ∧ ∀ a, x.result = .ok a → P a

variable {P : α → Prop} {n : Nat}

theorem ensures_pure {a : α} (h : P a) : Ensures (pure a) n P :=
  ⟨by simp, zero_le, fun b hb => by
    obtain rfl := Result.ok.inj hb
    exact h⟩

theorem ensures_reject : Ensures (reject : Exec α) n P :=
  ⟨by simp, zero_le, fun a ha => by cases ha⟩

theorem ensures_ofOption {o : Option α} : Ensures (ofOption o) n (fun a => o = some a) := by
  cases o with
  | none => exact ensures_reject
  | some => exact ensures_pure rfl

theorem ensures_guard {b : Bool} : Ensures (guard b) n (fun _ => b = true) := by
  unfold guard
  split_ifs with h
  · exact ensures_pure h
  · exact ensures_reject

theorem ensures_slice {data : Bytes} {lo hi n : Nat} (h1 : lo ≤ hi) (h2 : hi ≤ data.length) :
    Ensures (slice data lo hi) n (fun b => b = Lib.slice data lo hi) := by
  rw [slice, if_pos ⟨h1, h2⟩]
  exact ensures_pure rfl

theorem ensures_index {data : Bytes} {i n : Nat} (h : i < data.length) :
    Ensures (index data i) n (fun b => data[i]? = some b) := by
  rw [index, List.getElem?_eq_getElem h]
  exact ensures_pure rfl

theorem ensures_sub {a b n : Nat} (h : b ≤ a) : Ensures (sub a b) n (fun c => c = a - b) := by
  rw [sub, if_pos h]
  exact ensures_pure rfl

theorem Ensures.mono {n k : Nat} {P Q : α → Prop} (h : Ensures x n P) (hn : n ≤ k)
    (hPQ : ∀ a, P a → Q a) : Ensures x k Q :=
  ⟨h.1, le_trans h.2.1 hn, fun a ha => hPQ a (h.2.2 a ha)⟩

variable {Q : β → Prop}

/-- **Sequencing**: the turns add up. -/
theorem ensures_bind {n k : Nat} (hx : Ensures x n P)
    (hf : ∀ a, P a → Ensures (f a) k Q) : Ensures (x >>= f) (n + k) Q := by
  obtain ⟨hp, hw, ha⟩ := hx
  unfold Ensures
  cases hr : x.result with
  | panic => exact absurd hr hp
  | reject =>
    rw [bind_reject hr]
    exact ⟨nofun, by simp only; omega, nofun⟩
  | ok a =>
    obtain ⟨hp', hw', hb⟩ := hf a (ha a hr)
    rw [bind_ok hr]
    exact ⟨hp', Nat.add_le_add hw hw', hb⟩

theorem ensures_seq (hx : Ensures x 0 P) (hf : ∀ a, P a → Ensures (f a) n Q) : Ensures (x >>= f) n Q := by
  have h := ensures_bind hx hf
  rwa [zero_add] at h

theorem ensures_then {n k : Nat} (hx : Ensures x n P)
    (hn : n ≤ k) (hf : ∀ a, P a → Ensures (f a) 0 Q) : Ensures (x >>= f) k Q :=
  (ensures_bind hx hf).mono hn fun _ h => h

theorem ensures_tick {f : Unit → Exec β} (hf : Ensures (f ()) n Q) : Ensures (tick >>= f) (n + 1) Q := by
  have ht : Ensures tick 1 (fun _ => True) := ⟨by simp, Nat.le_refl 1, fun _ _ => trivial⟩
  have h := ensures_bind ht (fun _ _ => hf)
  rwa [add_comm] at h

end Exec

theorem except_bind_eq_ok {ε α β : Type} {x : Except ε α} {f : α → Except ε β} {b : β} :
    (x >>= f) = .ok b ↔ ∃ a, x = .ok a ∧ f a = .ok b := by
  cases x with
  | error =>
    refine ⟨fun h => ?_, fun ⟨_, h, _⟩ => ?_⟩ <;> cases h
  | ok a => exact ⟨fun h => ⟨a, rfl, h⟩, fun ⟨_, ha, h⟩ => Except.ok.inj ha ▸ h⟩

end Kotoconn.Lib
