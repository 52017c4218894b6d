import Mathlib

/-!
# Slots that are filled once

A list of slots, each empty or filled, with the total weight of the filled ones (`weigh_set`).
-/

namespace Kotoconn.Lib
open List Option

variable {α β : Type}

section Weigh

def weigh (f : α → Nat) (l : List (Option α)) : Nat := (l.map fun slot => slot.elim 0 f).sum

theorem weigh_set {f : α → Nat} {l : List (Option α)} {i : Nat} {a : α} (h : l[i]? = some none) :
    weigh f (l.set i (some a)) = weigh f l + f a := by
  induction l generalizing i with
  | nil => cases h
  | cons x _ ih =>
    cases i with
    | zero =>
      obtain rfl : x = none := some.inj h
      simp [weigh, add_comm]
    | succ i =>
      have := ih (i := i) h
      simp only [weigh, set_cons_succ, map_cons, sum_cons] at this ⊢
      omega

theorem weigh_replicate_none (f : α → Nat) (n : Nat) : weigh f (List.replicate n none) = 0 := by
  simp [weigh]

theorem countP_isSome (l : List (Option α)) : l.countP Option.isSome = weigh (fun _ => 1) l := by
  induction l with
  | nil => rfl
  | cons x _ ih =>
    rw [countP_cons, ih]
    cases x <;> simp [weigh, add_comm]

def allFilled : List (Option α) → Option (List α)
  | [] => some []
  | none :: _ => none
  | some a :: rest => (allFilled rest).map (a :: ·)

theorem allFilled_eq_some {l : List (Option α)} {xs : List α} : allFilled l = some xs ↔ l = xs.map some := by
  induction l generalizing xs with
  | nil => cases xs <;> simp [allFilled]
  | cons x _ ih =>
    cases x with
    | none => cases xs <;> simp [allFilled]
    | some =>
      rw [allFilled, map_eq_some_iff]
      constructor
      · rintro ⟨ys, hys, rfl⟩
        rw [map_cons, ← ih.1 hys]
      · intro h
        cases xs with
        | nil => cases h
        | cons _ ys =>
          rw [map_cons, List.cons.injEq] at h
          obtain rfl := some.inj h.1
          exact ⟨ys, ih.2 h.2, rfl⟩

theorem exists_allFilled {l : List (Option α)} (h : l.countP Option.isSome = l.length) : ∃ xs, allFilled l = some xs := by
  induction l with
  | nil => exact ⟨[], rfl⟩
  | cons x rest ih =>
    have hle := countP_le_length (p := Option.isSome) (l := rest)
    cases x with
    | none =>
      rw [countP_cons_of_neg (by simp), length_cons] at h
      omega
    | some a =>
      rw [countP_cons_of_pos rfl, length_cons] at h
      obtain ⟨xs, hxs⟩ := ih (by omega)
      exact ⟨a :: xs, by rw [allFilled, hxs]; rfl⟩

end Weigh

section FirstAt
variable (index : β → Nat) (value : β → α)

/-- Slot `i` holds the first of `xs` with index `i`. -/
def firstAt (n : Nat) (xs : List β) : List (Option α) :=
  (List.range n).map fun i => (xs.find? fun x => index x = i).map value

variable {index value} {n i : Nat} {xs : List β} {x : β}

@[simp] theorem length_firstAt : (firstAt index value n xs).length = n := by simp [firstAt]

theorem firstAt_nil : firstAt index value n [] = List.replicate n none := by
  simp [firstAt, map_const']

theorem getElem?_firstAt :
    (firstAt index value n xs)[i]? = if i < n then some ((xs.find? fun x => index x = i).map value) else none := by
  rw [firstAt, getElem?_map]
  split_ifs with h
  · rw [getElem?_range h, map_some]
  · rw [getElem?_eq_none (by simpa using h), map_none]

theorem find?_snoc_ne (h : index x ≠ i) : ((xs ++ [x]).find? fun y => index y = i) = xs.find? fun y => index y = i := by
  rw [find?_append, find?_singleton, if_neg (by simpa using h), or_none]

theorem firstAt_filled {a : α} (h : (firstAt index value n xs)[index x]? = some (some a)) :
    firstAt index value n (xs ++ [x]) = firstAt index value n xs := by
  refine ext_getElem? fun i => ?_
  rw [getElem?_firstAt] at h
  split_ifs at h with hn
  rw [Option.some.injEq, map_eq_some_iff] at h
  obtain ⟨_, hy, -⟩ := h
  rw [getElem?_firstAt, getElem?_firstAt]
  by_cases hi : index x = i
  · subst hi
    rw [find?_append, hy, some_or]
  · rw [find?_snoc_ne hi]

theorem firstAt_vacant (h : (firstAt index value n xs)[index x]? = some none) :
    firstAt index value n (xs ++ [x]) = (firstAt index value n xs).set (index x) (some (value x)) := by
  refine ext_getElem? fun i => ?_
  rw [getElem?_firstAt] at h
  split_ifs at h with hn
  rw [Option.some.injEq, map_eq_none_iff] at h
  rw [getElem?_set, getElem?_firstAt, getElem?_firstAt, length_firstAt]
  by_cases hi : index x = i
  · subst hi
    rw [if_pos hn, if_pos rfl, if_pos hn, find?_append, h, none_or, find?_singleton]
    simp
  · rw [if_neg hi, find?_snoc_ne hi]

def AllOccur (index : β → Nat) (n : Nat) (xs : List β) : Prop := ∀ i < n, ∃ x ∈ xs, index x = i

theorem AllOccur.snoc (h : AllOccur index n xs) : AllOccur index n (xs ++ [x]) := fun i hi =>
  (h i hi).imp fun _ hy => ⟨mem_append_left _ hy.1, hy.2⟩

theorem countP_firstAt : (firstAt index value n xs).countP Option.isSome = n ↔ AllOccur index n xs := by
  have hlength : (firstAt index value n xs).length = n := length_firstAt
  nth_rewrite 2 [← hlength]
  rw [countP_eq_length]
  constructor
  · intro h i hi
    have hslot := h _ (mem_of_getElem? (getElem?_firstAt.trans (if_pos hi)))
    rw [isSome_map, find?_isSome] at hslot
    obtain ⟨x, hx, hxi⟩ := hslot
    exact ⟨x, hx, of_decide_eq_true hxi⟩
  · intro h slot hslot
    obtain ⟨i, hi, rfl⟩ := List.mem_map.1 hslot
    obtain ⟨x, hx, hxi⟩ := h i (mem_range.1 hi)
    rw [isSome_map, find?_isSome]
    exact ⟨x, hx, decide_eq_true hxi⟩

section Chunks
variable {chunk : Nat → α} (hchunk : ∀ x ∈ xs, value x = chunk (index x))
include hchunk

theorem slot_firstAt (i : Nat) :
    (xs.find? fun x => index x = i).map value = none ∨ (xs.find? fun x => index x = i).map value = some (chunk i) := by
  cases hfind : xs.find? fun x => index x = i with
  | none => exact .inl rfl
  | some x =>
    have hxi : index x = i := by simpa using find?_some hfind
    exact .inr (by rw [map_some, hchunk x (mem_of_find?_eq_some hfind), hxi])

theorem weigh_firstAt_le (f : α → Nat) :
    weigh f (firstAt index value n xs) ≤ ((List.range n).map fun i => f (chunk i)).sum := by
  rw [weigh, firstAt, List.map_map]
  refine sum_le_sum fun i _ => ?_
  rcases slot_firstAt hchunk i with h | h
  · rw [Function.comp_apply, h]
    exact zero_le
  · rw [Function.comp_apply, h]
    exact le_rfl

theorem firstAt_of_allOccur (h : AllOccur index n xs) :
    firstAt index value n xs = ((List.range n).map chunk).map some := by
  rw [firstAt, List.map_map]
  refine map_congr_left fun i hi => ?_
  obtain ⟨x, hx, hxi⟩ := h i (mem_range.1 hi)
  refine (slot_firstAt hchunk i).resolve_left fun hnone => ?_
  rw [map_eq_none_iff, find?_eq_none] at hnone
  exact hnone x hx (decide_eq_true hxi)

end Chunks

end FirstAt

end Kotoconn.Lib
