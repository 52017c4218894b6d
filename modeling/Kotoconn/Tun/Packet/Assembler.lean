import Kotoconn.Lib.Ranges

/-! # smoltcp's `Assembler` -/

namespace Kotoconn.Tun

open Lib

structure Assembler (A : Type) where
  new : A
  /-- `none` is `TooManyHolesError`. -/
  add : (assembler : A) → (offset size : Nat) → Option A
  peekFront : A → Nat
  iterData : A → List (Nat × Nat)

structure Assembler.Lawful {A : Type} (s : Assembler A) : Prop where
  new_covers : ∀ i, ¬ Covers (s.iterData s.new) i
  add_covers : ∀ a a' offset size, s.add a offset size = some a' → ∀ i,
    Covers (s.iterData a') i ↔ Covers (s.iterData a) i ∨ (offset ≤ i ∧ i < offset + size)
  front_covers : ∀ a i, i < s.peekFront a → Covers (s.iterData a) i
  front_ends : ∀ a, ¬ Covers (s.iterData a) (s.peekFront a)
  separated : ∀ a, Separated (s.iterData a)
  room : ∀ a offset size, s.add a offset size = none → 32 ≤ (s.iterData a).length

def rangeAssembler : Assembler Ranges where
  new := Ranges.empty
  add r offset size := if (r.add offset size).list.length ≤ 32 then some (r.add offset size) else none
  peekFront := Ranges.front
  iterData := Ranges.list

theorem rangeAssembler_lawful : rangeAssembler.Lawful where
  new_covers i h := by simp [rangeAssembler, Ranges.empty, Covers] at h
  add_covers a a' offset size h i := by
    simp only [rangeAssembler] at h ⊢
    split_ifs at h with hlen
    obtain rfl := Option.some.inj h
    exact Ranges.covers_add a offset size i
  front_covers a i h := Ranges.covers_of_lt_front h
  front_ends a := Ranges.not_covers_front a
  separated a := a.separated
  room a offset size h := by
    simp only [rangeAssembler] at h ⊢
    split_ifs at h with hlen
    have := Ranges.length_add a offset size
    omega

end Kotoconn.Tun
