import Kotoconn.Lib.Bytes

/-!
# Buffers written piece by piece

A piece is some bytes at an offset. Pieces are written into one buffer in order, each over what it overlaps.
-/

namespace Kotoconn.Lib
open List

class Piece (α : Type) where
  offset : α → Nat
  bytes : α → Bytes

section Overlay
variable {α : Type} [Piece α]

def stop (c : α) : Nat := Piece.offset c + (Piece.bytes c).length

def Holds (c : α) (i : Nat) : Prop := Piece.offset c ≤ i ∧ i < stop c

instance (c : α) (i : Nat) : Decidable (Holds c i) := inferInstanceAs (Decidable (_ ∧ _))

/-- The byte a piece has for position `i`. -/
def byteAt (c : α) (i : Nat) : Option UInt8 := (Piece.bytes c)[i - Piece.offset c]?

/-- The last piece that holds `i`. -/
def latest (s : List α) (i : Nat) : Option α := (s.filter fun c => decide (Holds c i)).getLast?

theorem latest_append (s : List α) (c : α) (i : Nat) :
    latest (s ++ [c]) i = if Holds c i then some c else latest s i := by
  unfold latest
  rw [filter_append]
  split_ifs with h
  · simp [h]
  · simp [h]

variable {s : List α}

theorem latest_eq_none {i : Nat} : latest s i = none ↔ ∀ c ∈ s, ¬ Holds c i := by
  simp [latest]

theorem mem_of_latest {i : Nat} {c : α} (h : latest s i = some c) : c ∈ s ∧ Holds c i := by
  have hmem := mem_of_getLast? h
  rw [mem_filter] at hmem
  exact ⟨hmem.1, of_decide_eq_true hmem.2⟩

theorem exists_latest {i : Nat} {c : α} (hc : c ∈ s) (hi : Holds c i) : ∃ c', latest s i = some c' := by
  cases h : latest s i with
  | some c' => exact ⟨c', rfl⟩
  | none => exact absurd hi (latest_eq_none.1 h c hc)

/-- `b` holds the pieces of `s`, written in order. -/
structure Painted (s : List α) (b : Bytes) : Prop where
  inside : ∀ c ∈ s, stop c ≤ b.length
  byte : ∀ i c, latest s i = some c → b[i]? = byteAt c i

theorem Painted.nil (b : Bytes) : Painted ([] : List α) b :=
  ⟨fun c hc => absurd hc not_mem_nil, fun i c h => by simp [latest] at h⟩

theorem Painted.extend {b : Bytes} (h : Painted s b) (more : Bytes) : Painted s (b ++ more) := by
  refine ⟨fun c hc => ?_, fun i c hc => ?_⟩
  · have := h.inside c hc
    rw [length_append]
    omega
  · obtain ⟨hmem, hhold⟩ := mem_of_latest hc
    have := h.inside c hmem
    rw [getElem?_append, if_pos (by have := hhold.2; omega)]
    exact h.byte i c hc

theorem Painted.write {b : Bytes} (h : Painted s b) {c : α} (hc : stop c ≤ b.length) :
    Painted (s ++ [c]) (writeAt b (Piece.offset c) (Piece.bytes c)) := by
  refine ⟨fun c' hc' => ?_, fun i c' hc' => ?_⟩
  · rw [length_writeAt hc]
    rcases mem_append.1 hc' with hc' | hc'
    · exact h.inside c' hc'
    · rw [mem_singleton.1 hc']
      exact hc
  · rw [latest_append] at hc'
    rw [getElem?_writeAt hc]
    split_ifs at hc' with hi
    · obtain rfl := Option.some.inj hc'
      exact if_pos hi
    · exact (if_neg hi).trans (h.byte i c' hc')

end Overlay

end Kotoconn.Lib
