import Mathlib

/-!
# Calls that may fail, and loops with an explicit budget

* `Meets P o Post`: the call returns if its assertions `P` hold, and what it returns satisfies `Post`;
* `loop_spec`: an invariant, and a measure that falls at every turn, give a result within the measure.
-/

namespace Kotoconn.Lib

/-- The call `o` returns where `P` holds, and whatever it returns satisfies `Post`. -/
structure Meets {α : Type} (P : Prop) (o : Option α) (Post : α → Prop) : Prop where
  returns : P → o ≠ none
  post : ∀ {a}, o = some a → Post a

namespace Meets
variable {α β : Type} {P : Prop} {o : Option α} {f : α → Option β} {Post : α → Prop} {Post' : β → Prop} {a : α}

theorem pure (h : Post a) : Meets P (some a) Post where
  returns _ := Option.some_ne_none a
  post ha := Option.some.inj ha ▸ h

theorem bind (h : Meets P o Post) (hf : ∀ a, Post a → Meets P (f a) Post') : Meets P (o >>= f) Post' where
  returns hP := by
    obtain ⟨a, ha⟩ := Option.ne_none_iff_exists'.1 (h.returns hP)
    rw [ha]
    exact (hf a (h.post ha)).returns hP
  post hb := by
    obtain ⟨a, ha, hb⟩ := Option.bind_eq_some_iff.1 hb
    exact (hf a (h.post ha)).post hb

theorem fail (h : ¬ P) : Meets P none Post := ⟨fun hP => absurd hP h, nofun⟩

theorem assert {c : Prop} [Decidable c] (hc : P → c) (h : Meets P o Post) : Meets P (if c then o else none) Post := by
  by_cases hif : c
  · rwa [if_pos hif]
  · rw [if_neg hif]
    exact fail fun hP => hif (hc hP)

theorem mono {Post' : α → Prop} (h : Meets P o Post) (hpost : ∀ a, Post a → Post' a) : Meets P o Post' :=
  ⟨h.returns, fun ha => hpost _ (h.post ha)⟩

theorem weaken {P' : Prop} (h : Meets P o Post) (himp : P' → P) : Meets P' o Post :=
  ⟨fun h' => h.returns (himp h'), h.post⟩

end Meets

inductive Turn (σ α : Type) where
  | again (s : σ)
  | done (a : α)
  | fail

/-- At most `n` turns of `body` from `s`. -/
def loop {σ α : Type} (body : σ → Turn σ α) : Nat → σ → Option α
  | 0, _ => none
  | n + 1, s =>
    match body s with
    | .again s' => loop body n s'
    | .done a => some a
    | .fail => none

section Rules
variable {σ α : Type} {body : σ → Turn σ α}

theorem loop_done {n : Nat} {s : σ} {a : α} (h : body s = .done a) : loop body (n + 1) s = some a := by
  rw [loop, h]

theorem loop_again {n : Nat} {s s' : σ} (h : body s = .again s') : loop body (n + 1) s = loop body n s' := by
  rw [loop, h]

/-- **The loop rule**: every turn from an invariant state leaves with a good result, or keeps the invariant
and lowers the measure. -/
theorem loop_spec (Inv : σ → Prop) (Post : α → Prop) (size : σ → Nat)
    (hturn : ∀ s, Inv s → (∃ a, body s = .done a ∧ Post a) ∨ ∃ s', body s = .again s' ∧ Inv s' ∧ size s' < size s) :
    ∀ n s, Inv s → size s < n → ∃ a, loop body n s = some a ∧ Post a := by
  intro n
  induction n with
  | zero => intro s _ hn; exact absurd hn (Nat.not_lt_zero _)
  | succ _ ih =>
    intro s hs hn
    rcases hturn s hs with ⟨a, hb, ha⟩ | ⟨s', hb, hs', hlt⟩
    · exact ⟨a, loop_done hb, ha⟩
    · rw [loop_again hb]
      exact ih s' hs' (lt_of_lt_of_le hlt (Nat.le_of_lt_succ hn))

end Rules

end Kotoconn.Lib
