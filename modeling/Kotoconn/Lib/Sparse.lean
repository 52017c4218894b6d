import Kotoconn.Lib.OrdMap

/-!
# Sparse sequences: blocks under absolute positions

An `OrdMap (List α)` whose block `b` under key `k` holds the positions `k .. k + b.length`. `cell m p` reads one position;
where the blocks are `Apart`, it is membership in some block (`cell_eq_some_iff`).
-/

namespace Kotoconn.Lib
open List

namespace Sparse
variable {α : Type}

def cell (m : OrdMap (List α)) (p : Nat) : Option α :=
  match m.lastAtMost p with
  | none => none
  | some q => q.2[p - q.1]?

structure Apart (m : OrdMap (List α)) : Prop where
  nonempty : ∀ p ∈ m, p.2 ≠ []
  disjoint : ∀ p ∈ m, ∀ q ∈ m, p.1 < q.1 → p.1 + p.2.length ≤ q.1

theorem Apart.empty : Apart (OrdMap.empty : OrdMap (List α)) :=
  ⟨fun p hp => absurd hp (OrdMap.not_mem_empty p), fun p hp => absurd hp (OrdMap.not_mem_empty p)⟩

variable {m : OrdMap (List α)}

variable (h : Apart m)
include h

theorem Apart.length_pos {p : Nat × List α} (hp : p ∈ m) : 0 < p.2.length :=
  length_pos_iff.2 (h.nonempty p hp)

variable {i : Nat}

theorem Apart.unique {p q : Nat × List α} (hp : p ∈ m) (hq : q ∈ m)
    (hpi : p.1 ≤ i ∧ i < p.1 + p.2.length) (hqi : q.1 ≤ i ∧ i < q.1 + q.2.length) : p = q := by
  refine OrdMap.eq_of_key hp hq ?_
  rcases Nat.lt_trichotomy p.1 q.1 with hlt | heq | hgt
  · have := h.disjoint p hp q hq hlt; omega
  · exact heq
  · have := h.disjoint q hq p hp hgt; omega

variable {q : Nat × List α}

theorem Apart.lastAtMost (hq : q ∈ m)
    (hi : q.1 ≤ i ∧ i < q.1 + q.2.length) : m.lastAtMost i = some q := by
  refine OrdMap.lastAtMost_eq hq hi.1 (fun r hr hri => ?_)
  by_contra hlt
  have := h.disjoint q hq r hr (by omega)
  omega

theorem cell_eq_some_iff {x : α} : cell m i = some x ↔ ∃ q ∈ m, q.1 ≤ i ∧ q.2[i - q.1]? = some x := by
  constructor
  · intro hc
    unfold cell at hc
    split at hc
    · cases hc
    · rename_i q hq
      obtain ⟨hmem, hle, -⟩ := OrdMap.lastAtMost_some hq
      exact ⟨q, hmem, hle, hc⟩
  · rintro ⟨q, hmem, hle, hx⟩
    have hlt : i - q.1 < q.2.length := by
      by_contra hge
      rw [getElem?_eq_none (by omega)] at hx
      cases hx
    rw [cell, h.lastAtMost hmem ⟨hle, by omega⟩]
    exact hx

theorem cell_eq_none (hi : ∀ q ∈ m, ¬ (q.1 ≤ i ∧ i < q.1 + q.2.length)) : cell m i = none := by
  cases hc : cell m i with
  | none => rfl
  | some =>
    obtain ⟨q, hq, hle, hx⟩ := (cell_eq_some_iff h).1 hc
    have hlt := (List.getElem?_eq_some_iff.1 hx).1
    exact absurd ⟨hle, by omega⟩ (hi q hq)

theorem cell_of_mem (hq : q ∈ m) (hi : i < q.2.length) : cell m (q.1 + i) = q.2[i]? := by
  rw [cell, h.lastAtMost hq ⟨by omega, by omega⟩]
  simp

theorem exists_block (hc : cell m i ≠ none) : ∃ q ∈ m, q.1 ≤ i ∧ i < q.1 + q.2.length := by
  by_contra hno
  exact hc (cell_eq_none h (fun q hq hi => hno ⟨q, hq, hi⟩))

omit h

/-! ## Cutting a block -/

/-- Put back what the removed block `old` at `k` holds from `stop` on. -/
def keepTail (m : OrdMap (List α)) (k : Nat) (old : List α) (stop : Nat) : OrdMap (List α) :=
  if k + old.length > stop then m.insert stop (old.drop (stop - k)) else m

section Cut
variable {m : OrdMap (List α)} {k stop : Nat} {old : List α}

theorem mem_cut (h : Apart m) (hk : (k, old) ∈ m) (hlt : k < stop) : q ∈ keepTail (m.erase k) k old stop ↔
      (q ∈ m ∧ q.1 ≠ k) ∨ (q = (stop, old.drop (stop - k)) ∧ stop < k + old.length) := by
  unfold keepTail
  split_ifs with hlong
  · rw [OrdMap.mem_insert, OrdMap.mem_erase]
    constructor
    · rintro (rfl | ⟨hq, -⟩)
      · exact .inr ⟨rfl, hlong⟩
      · exact .inl hq
    · rintro (hq | ⟨rfl, -⟩)
      · refine .inr ⟨hq, fun he => ?_⟩
        have := h.disjoint _ hk q hq.1 (by simp only; omega)
        simp only at this
        omega
      · exact .inl rfl
  · rw [OrdMap.mem_erase]
    constructor
    · exact .inl
    · rintro (hq | ⟨-, hq⟩)
      · exact hq
      · omega

theorem Apart.cut (h : Apart m) (hk : (k, old) ∈ m) (hlt : k < stop) : Apart (keepTail (m.erase k) k old stop) := by
  constructor
  · intro q hq
    rcases (mem_cut h hk hlt).1 hq with ⟨hq, -⟩ | ⟨rfl, hlong⟩
    · exact h.nonempty q hq
    · intro he
      have := drop_eq_nil_iff.1 he
      omega
  · intro p hp q hq hpq
    rcases (mem_cut h hk hlt).1 hp with ⟨hp, hpk⟩ | ⟨rfl, hlong⟩ <;>
      rcases (mem_cut h hk hlt).1 hq with ⟨hq, hqk⟩ | ⟨rfl, hlong'⟩
    · exact h.disjoint p hp q hq hpq
    · -- a block before the tail ends before the cut block began
      rcases Nat.lt_or_gt_of_ne hpk with hb | ha
      · have := h.disjoint p hp _ hk hb
        simp only at this ⊢
        omega
      · have := h.disjoint _ hk p hp ha
        simp only at this hpq
        omega
    · have hkq : k < q.1 := by simp only at hpq; omega
      have := h.disjoint _ hk q hq hkq
      simp only [length_drop] at this ⊢
      omega
    · simp at hpq

theorem cell_cut (h : Apart m) (hk : (k, old) ∈ m) (hlt : k < stop) (i : Nat) : cell (keepTail (m.erase k) k old stop) i
      = if k ≤ i ∧ i < stop ∧ i < k + old.length then none else cell m i := by
  have hcut := h.cut hk hlt
  split_ifs with hin
  · refine cell_eq_none hcut (fun q hq hi => ?_)
    rcases (mem_cut h hk hlt).1 hq with ⟨hq, hqk⟩ | ⟨rfl, -⟩
    · exact hqk (congrArg Prod.fst (h.unique hq hk hi ⟨hin.1, hin.2.2⟩))
    · simp only at hi; omega
  · apply Option.ext
    intro x
    rw [cell_eq_some_iff hcut, cell_eq_some_iff h]
    constructor
    · rintro ⟨q, hq, hle, hx⟩
      rcases (mem_cut h hk hlt).1 hq with ⟨hq, -⟩ | ⟨rfl, -⟩
      · exact ⟨q, hq, hle, hx⟩
      · refine ⟨_, hk, by simp only at hle ⊢; omega, ?_⟩
        simp only [getElem?_drop] at hx hle ⊢
        rwa [show stop - k + (i - stop) = i - k by omega] at hx
    · rintro ⟨q, hq, hle, hx⟩
      have hlt' := (List.getElem?_eq_some_iff.1 hx).1
      by_cases hqk : q.1 = k
      · have hqe : q = (k, old) := OrdMap.eq_of_key hq hk hqk
        subst hqe
        simp only at hle hx hlt'
        have hstop : stop ≤ i := by omega
        refine ⟨_, (mem_cut h hk hlt).2 (.inr ⟨rfl, by omega⟩), hstop, ?_⟩
        simp only [getElem?_drop]
        rwa [show stop - k + (i - stop) = i - k by omega]
      · exact ⟨q, (mem_cut h hk hlt).2 (.inl ⟨hq, hqk⟩), hle, hx⟩

end Cut

/-! ## Putting a block into a clear range -/

/-- No block meets `lo .. hi`. -/
def Clear (m : OrdMap (List α)) (lo hi : Nat) : Prop := ∀ q ∈ m, q.1 + q.2.length ≤ lo ∨ hi ≤ q.1

section Put
variable {m : OrdMap (List α)} {k : Nat} {b : List α}

theorem mem_put (h : Apart m) (hb : b ≠ []) (hc : Clear m k (k + b.length)) :
    q ∈ m.insert k b ↔ q = (k, b) ∨ q ∈ m := by
  rw [OrdMap.mem_insert]
  constructor
  · rintro (hq | ⟨hq, -⟩)
    · exact .inl hq
    · exact .inr hq
  · rintro (hq | hq)
    · exact .inl hq
    · refine .inr ⟨hq, fun he => ?_⟩
      have hpos := h.length_pos hq
      have hbpos := length_pos_iff.2 hb
      rcases hc q hq with h1 | h1 <;> omega

theorem Apart.put (h : Apart m) (hb : b ≠ []) (hc : Clear m k (k + b.length)) : Apart (m.insert k b) := by
  have hbpos := length_pos_iff.2 hb
  constructor
  · intro q hq
    rcases (mem_put h hb hc).1 hq with rfl | hq
    · exact hb
    · exact h.nonempty q hq
  · intro p hp q hq hpq
    rcases (mem_put h hb hc).1 hp with rfl | hp <;> rcases (mem_put h hb hc).1 hq with rfl | hq
    · simp at hpq
    · have := h.length_pos hq
      rcases hc q hq with h1 | h1 <;> simp only at hpq ⊢ <;> omega
    · rcases hc p hp with h1 | h1 <;> simp only at hpq ⊢ <;> omega
    · exact h.disjoint p hp q hq hpq

theorem cell_put (h : Apart m) (hb : b ≠ []) (hc : Clear m k (k + b.length)) (i : Nat) :
    cell (m.insert k b) i = if k ≤ i ∧ i < k + b.length then b[i - k]? else cell m i := by
  have hput := h.put hb hc
  split_ifs with hin
  · have hmem := (mem_put h hb hc).2 (.inl rfl)
    have := cell_of_mem hput hmem (i := i - k) (by simp only; omega)
    simp only at this
    rwa [show k + (i - k) = i by omega] at this
  · apply Option.ext
    intro x
    rw [cell_eq_some_iff hput, cell_eq_some_iff h]
    constructor
    · rintro ⟨q, hq, hle, hx⟩
      rcases (mem_put h hb hc).1 hq with rfl | hq
      · have := (List.getElem?_eq_some_iff.1 hx).1
        simp only at hle this
        omega
      · exact ⟨q, hq, hle, hx⟩
    · rintro ⟨q, hq, hle, hx⟩
      exact ⟨q, (mem_put h hb hc).2 (.inr hq), hle, hx⟩

end Put

end Sparse

end Kotoconn.Lib
