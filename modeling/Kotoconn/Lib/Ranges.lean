import Mathlib

/-!
# Sets of positions as separated ranges

`Ranges` are half-open ranges, none empty, in order and not touching; `Ranges.add` is the union with one more range.
-/

namespace Kotoconn.Lib
open List

def Separated (r : List (Nat × Nat)) : Prop := (∀ q ∈ r, q.1 < q.2) ∧ r.Pairwise fun p q => p.2 < q.1

structure Ranges where
  list : List (Nat × Nat)
  separated : Separated list

def Covers (r : List (Nat × Nat)) (i : Nat) : Prop := ∃ q ∈ r, q.1 ≤ i ∧ i < q.2

variable {r : List (Nat × Nat)} {q : Nat × Nat}

theorem covers_cons {i : Nat} : Covers (q :: r) i ↔ (q.1 ≤ i ∧ i < q.2) ∨ Covers r i := by
  simp [Covers]

theorem separated_cons : Separated (q :: r) ↔ q.1 < q.2 ∧ (∀ p ∈ r, q.2 < p.1) ∧ Separated r := by
  simp only [Separated, mem_cons, forall_eq_or_imp, pairwise_cons]
  tauto

/-- Union with `lo .. hi`. -/
def addRange (lo hi : Nat) : List (Nat × Nat) → List (Nat × Nat)
  | [] => [(lo, hi)]
  | q :: r =>
    if q.2 < lo then q :: addRange lo hi r
    else if hi < q.1 then (lo, hi) :: q :: r
    else addRange (min lo q.1) (max hi q.2) r

theorem covers_addRange {lo hi : Nat} (hr : Separated r) (h : lo < hi) (i : Nat) :
    Covers (addRange lo hi r) i ↔ Covers r i ∨ (lo ≤ i ∧ i < hi) := by
  fun_induction addRange lo hi r with
  | case1 lo hi => simp [Covers]
  | case2 lo hi q r hq ih =>
    rw [covers_cons, ih (separated_cons.1 hr).2.2 h, covers_cons]
    tauto
  | case3 lo hi q r h1 h2 =>
    rw [covers_cons]
    tauto
  | case4 lo hi q r h1 h2 ih =>
    obtain ⟨_, -, hr⟩ := separated_cons.1 hr
    rw [ih hr (by omega), covers_cons]
    constructor
    · rintro (hc | hc)
      · exact .inl (.inr hc)
      · by_cases hin : lo ≤ i ∧ i < hi
        · exact .inr hin
        · exact .inl (.inl (by omega))
    · rintro ((hc | hc) | hc)
      · exact .inr (by omega)
      · exact .inl hc
      · exact .inr (by omega)

theorem addRange_above {b lo hi : Nat} (hr : ∀ q ∈ r, b < q.1) (h : b < lo) : ∀ q ∈ addRange lo hi r, b < q.1 := by
  fun_induction addRange lo hi r with
  | case1 lo hi => simpa using h
  | case2 lo hi q r hq ih =>
    rw [forall_mem_cons] at hr ⊢
    exact ⟨hr.1, ih hr.2 h⟩
  | case3 lo hi q r h1 h2 => exact forall_mem_cons.2 ⟨h, hr⟩
  | case4 lo hi q r h1 h2 ih =>
    rw [forall_mem_cons] at hr
    exact ih hr.2 (by omega)

theorem separated_addRange {lo hi : Nat} (hr : Separated r) (h : lo < hi) : Separated (addRange lo hi r) := by
  fun_induction addRange lo hi r with
  | case1 lo hi => simpa [Separated] using h
  | case2 lo hi q r hq ih =>
    obtain ⟨hne, hafter, hr⟩ := separated_cons.1 hr
    exact separated_cons.2 ⟨hne, addRange_above hafter hq, ih hr h⟩
  | case3 lo hi q r h1 h2 =>
    obtain ⟨_, hafter, -⟩ := separated_cons.1 hr
    refine separated_cons.2 ⟨h, forall_mem_cons.2 ⟨by omega, fun p hp => ?_⟩, hr⟩
    have := hafter p hp
    simp only
    omega
  | case4 lo hi q r h1 h2 ih => exact ih (separated_cons.1 hr).2.2 (by omega)

theorem length_addRange (lo hi : Nat) (r : List (Nat × Nat)) : (addRange lo hi r).length ≤ r.length + 1 := by
  fun_induction addRange lo hi r with
  | case1 lo hi => simp
  | case2 lo hi q r hq ih => simpa using ih
  | case3 lo hi q r h1 h2 => simp
  | case4 lo hi q r h1 h2 ih => exact le_trans ih (by simp)

/-! ## How many ranges blocks can make -/

theorem not_covers_beside (hr : Separated r) (hq : q ∈ r) {i : Nat} (hi : i + 1 = q.1 ∨ i = q.2) : ¬ Covers r i := by
  induction r with
  | nil => exact absurd hq not_mem_nil
  | cons _ _ ih =>
    obtain ⟨hne, hafter, ht⟩ := separated_cons.1 hr
    rw [covers_cons]
    rcases mem_cons.1 hq with rfl | hq
    · rintro (h | ⟨p', hp', h⟩)
      · omega
      · have := hafter p' hp'
        omega
    · have := hafter q hq
      have := ht.1 q hq
      rintro (h | h)
      · omega
      · exact ih ht hq h

theorem length_mul_le {size n : Nat} (hr : Separated r)
    (hb : ∀ q ∈ r, q.1 % size = 0 ∧ q.1 < n ∧ (q.2 % size = 0 ∨ q.2 = n)) (b : Nat) (hlo : ∀ q ∈ r, b ≤ q.1)
    (hne : r ≠ []) : b + 2 * size * (r.length - 1) < n := by
  induction r generalizing b with
  | nil => exact absurd rfl hne
  | cons q t ih =>
    obtain ⟨_, hafter, ht⟩ := separated_cons.1 hr
    rw [forall_mem_cons] at hb hlo
    by_cases htn : t = []
    · subst htn
      simp only [length_singleton, Nat.sub_self, Nat.mul_zero]
      omega
    · have hstep : ∀ p ∈ t, b + 2 * size ≤ p.1 := by
        intro p hp
        have h1 := hafter p hp
        have h2 := hb.2 p hp
        have hend : q.2 % size = 0 := by
          rcases hb.1.2.2 with h | h
          · exact h
          · omega
        obtain ⟨x, _⟩ := Nat.dvd_of_mod_eq_zero hb.1.1
        obtain ⟨y, _⟩ := Nat.dvd_of_mod_eq_zero hend
        obtain ⟨z, _⟩ := Nat.dvd_of_mod_eq_zero h2.1
        have hxy : x + 1 ≤ y := Nat.lt_of_mul_lt_mul_left (a := size) (by omega)
        have hyz : y + 1 ≤ z := Nat.lt_of_mul_lt_mul_left (a := size) (by omega)
        have := Nat.mul_le_mul_left size (show x + 2 ≤ z by omega)
        rw [Nat.mul_add] at this
        omega
      have := ih ht hb.2 (b + 2 * size) hstep htn
      have hlen : (q :: t).length - 1 = (t.length - 1) + 1 := by
        have := length_pos_iff.2 htn
        rw [length_cons]
        omega
      rw [hlen, Nat.mul_add]
      omega

/-- **Whole blocks of `size` positions below `n` make few ranges.** -/
theorem ranges_of_blocks {size n : Nat} (hsize : 0 < size) (hr : Separated r)
    (hblock : ∀ i j, i < n → j < n → i / size = j / size → Covers r i → Covers r j)
    (hin : ∀ i, Covers r i → i < n) (hne : r ≠ []) : 2 * size * (r.length - 1) < n := by
  have hb : ∀ q ∈ r, q.1 % size = 0 ∧ q.1 < n ∧ (q.2 % size = 0 ∨ q.2 = n) := by
    intro q hq
    have hlt := hr.1 q hq
    have hfirst : Covers r q.1 := ⟨q, hq, le_rfl, hlt⟩
    have hlast : Covers r (q.2 - 1) := ⟨q, hq, by omega, by omega⟩
    have h1 := hin _ hfirst
    have h2 := hin _ hlast
    refine ⟨?_, h1, ?_⟩
    · by_contra hmod
      have hpos : 0 < q.1 := Nat.pos_of_ne_zero fun h => hmod (by rw [h, Nat.zero_mod])
      refine not_covers_beside hr hq (.inl (by omega)) (hblock q.1 (q.1 - 1) h1 (by omega) ?_ hfirst)
      have hd := Nat.div_add_mod q.1 size
      have hm := Nat.mod_lt q.1 hsize
      refine (Nat.div_eq_of_lt_le ?_ ?_).symm
      · rw [mul_comm]
        omega
      · rw [add_mul, mul_comm]
        omega
    · by_contra hno
      rw [not_or] at hno
      refine not_covers_beside hr hq (.inr rfl) (hblock (q.2 - 1) q.2 h2 (by omega) ?_ hlast)
      have hd := Nat.div_add_mod q.2 size
      have hm := Nat.mod_lt q.2 hsize
      refine Nat.div_eq_of_lt_le ?_ ?_
      · rw [mul_comm]
        omega
      · rw [add_mul, mul_comm]
        omega
  have := length_mul_le hr hb 0 (fun q _ => zero_le) hne
  omega

namespace Ranges

def empty : Ranges := ⟨[], by simp [Separated]⟩

/-- Union with the `n` positions from `lo` on. -/
def add (r : Ranges) (lo n : Nat) : Ranges :=
  if h : 0 < n then ⟨addRange lo (lo + n) r.list, separated_addRange r.separated (by omega)⟩ else r

def front (r : Ranges) : Nat :=
  match r.list with
  | [] => 0
  | q :: _ => if q.1 = 0 then q.2 else 0

theorem covers_add (r : Ranges) (lo n i : Nat) :
    Covers (r.add lo n).list i ↔ Covers r.list i ∨ (lo ≤ i ∧ i < lo + n) := by
  unfold add
  split_ifs with h
  · exact covers_addRange r.separated (by omega) i
  · have hno : ¬ (lo ≤ i ∧ i < lo + n) := by omega
    simp [hno]

theorem length_add (r : Ranges) (lo n : Nat) : (r.add lo n).list.length ≤ r.list.length + 1 := by
  unfold add
  split_ifs with h
  · exact length_addRange _ _ _
  · exact Nat.le_succ _

theorem covers_of_lt_front {r : Ranges} {i : Nat} (h : i < r.front) : Covers r.list i := by
  unfold front at h
  cases hr : r.list with
  | nil => simp [hr] at h
  | cons =>
    simp only [hr] at h
    split_ifs at h with h0
    · exact covers_cons.2 (.inl ⟨by omega, h⟩)
    · omega

theorem not_covers_front (r : Ranges) : ¬ Covers r.list r.front := by
  have hsep := r.separated
  unfold front
  cases hr : r.list with
  | nil => simp [Covers]
  | cons =>
    rw [hr] at hsep
    obtain ⟨_, hafter, -⟩ := separated_cons.1 hsep
    simp only
    rintro ⟨p, hp, h1, h2⟩
    rcases mem_cons.1 hp with rfl | hp
    · split_ifs at h1 h2 with h0 <;> omega
    · have := hafter p hp
      split_ifs at h1 h2 with h0 <;> omega

end Ranges

end Kotoconn.Lib
