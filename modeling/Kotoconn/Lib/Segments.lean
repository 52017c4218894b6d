import Mathlib

/-!
# Segments of equal size

`segments size data` is `data` cut into pieces of `size`, the last of which may be shorter.
-/

namespace Kotoconn.Lib
open List

variable {α : Type} {size : Nat} {data : List α}

/-- Pieces of `size`; what is not longer is one piece, also when it is empty. -/
def segments (size : Nat) (data : List α) : List (List α) :=
  if h : size = 0 ∨ data.length ≤ size then [data]
  else
    have : (data.drop size).length < data.length := by
      have := not_or.1 h
      rw [length_drop]
      omega
    data.take size :: segments size (data.drop size)
termination_by data.length

theorem segments_of_le (h : data.length ≤ size) : segments size data = [data] := by
  rw [segments, dif_pos (.inr h)]

theorem segments_of_lt (hpos : 0 < size) (h : size < data.length) :
    segments size data = data.take size :: segments size (data.drop size) := by
  rw [segments, dif_neg (by omega)]

structure Pieces (size : Nat) (data : List α) (parts : List (List α)) : Prop where
  flatten : parts.flatten = data
  full : ∃ init last, parts = init ++ [last] ∧ (∀ part ∈ init, part.length = size) ∧ last.length ≤ size ∧
    (data ≠ [] → last ≠ [])
  empty : data = [] → parts = [[]]

theorem segments_pieces (hpos : 0 < size) (data : List α) : Pieces size data (segments size data) := by
  induction hn : data.length using Nat.strongRecOn generalizing data with
  | ind _ ih =>
    by_cases hle : data.length ≤ size
    · rw [segments_of_le hle]
      exact ⟨by simp, ⟨[], data, rfl, nofun, hle, id⟩, fun h => by rw [h]⟩
    · have hlt : size < data.length := by omega
      have hrest := ih (data.drop size).length (by rw [length_drop]; omega) (data.drop size) rfl
      obtain ⟨init, last, hparts, hinit, hlast, hne⟩ := hrest.full
      rw [segments_of_lt hpos hlt]
      refine ⟨?_, ⟨data.take size :: init, last, ?_, ?_, hlast, fun _ => hne ?_⟩, ?_⟩
      · rw [flatten_cons, hrest.flatten, take_append_drop]
      · rw [hparts, cons_append]
      · intro part hpart
        rcases mem_cons.1 hpart with rfl | hmem
        · rw [length_take]
          omega
        · exact hinit part hmem
      · intro hnil
        have := congrArg List.length hnil
        rw [length_drop, length_nil] at this
        omega
      · rintro rfl
        exact absurd hlt (Nat.not_lt_zero _)

/-- **Lists of one size are the segments of their concatenation.** -/
theorem segments_flatten (hpos : 0 < size) {parts : List (List α)} (hne : parts ≠ [])
    (hsize : ∀ part ∈ parts, part.length = size) : segments size parts.flatten = parts := by
  induction parts with
  | nil => exact absurd rfl hne
  | cons part parts ih =>
    have hpart : part.length = size := hsize part mem_cons_self
    cases parts with
    | nil =>
      rw [flatten_cons, flatten_nil, append_nil]
      exact segments_of_le (le_of_eq hpart)
    | cons next =>
      have hnext : next.length = size := hsize next (mem_cons_of_mem _ mem_cons_self)
      rw [flatten_cons, segments_of_lt hpos, take_left' hpart, drop_left' hpart,
        ih (cons_ne_nil _ _) fun p hp => hsize p (mem_cons_of_mem _ hp)]
      rw [length_append, flatten_cons, length_append]
      omega

end Kotoconn.Lib
