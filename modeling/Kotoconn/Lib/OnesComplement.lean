import Kotoconn.Lib.Bytes

/-!
# The Internet checksum

`onesSum b` is the folded sum of 16-bit words; it is additive over parts of even length (`wordSum_append`,
`fold_add_fold`), and `complement n` makes a sum fold to all ones.
-/

namespace Kotoconn.Lib

def wordSum : Bytes → Nat
  | hi :: lo :: rest => hi.toNat * 256 + lo.toNat + wordSum rest
  | [hi] => hi.toNat * 256
  | [] => 0

/-- Adding carries back in keeps a number modulo `65535` and gives zero only for zero. -/
def fold (n : Nat) : Nat := if n = 0 then 0 else (n - 1) % 65535 + 1

def onesSum (b : Bytes) : Nat := fold (wordSum b)

def complement (n : Nat) : Nat := if 65535 - n = 0 then 65535 else 65535 - n

theorem wordSum_append {a : Bytes} (b : Bytes) (h : a.length % 2 = 0) : wordSum (a ++ b) = wordSum a + wordSum b := by
  fun_induction wordSum a with
  | case1 hi lo rest ih =>
    have := ih (by simp only [List.length_cons] at h; omega)
    simp only [List.cons_append, wordSum, this]
    omega
  | case2 hi => simp at h
  | case3 => simp

theorem fold_le (n : Nat) : fold n ≤ 65535 := by
  unfold fold
  split_ifs <;> omega

theorem fold_mod (n : Nat) : fold n % 65535 = n % 65535 := by
  unfold fold
  split_ifs with h
  · rw [h]
  · omega

theorem fold_eq_ones_iff {n : Nat} : fold n = 65535 ↔ 0 < n ∧ n % 65535 = 0 := by
  unfold fold
  split_ifs with h
  · simp [h]
  · omega

theorem fold_congr {m n : Nat} (hmod : m % 65535 = n % 65535) (hzero : m = 0 ↔ n = 0) : fold m = fold n := by
  unfold fold
  by_cases h : m = 0
  · rw [if_pos h, if_pos (hzero.1 h)]
  · rw [if_neg h, if_neg (mt hzero.2 h)]
    omega

theorem fold_eq_zero_iff {n : Nat} : fold n = 0 ↔ n = 0 := by
  unfold fold
  split_ifs with h
  · simp [h]
  · simp [h]

theorem fold_add_fold (m n : Nat) : fold (m + fold n) = fold (m + n) := by
  have hmod := fold_mod n
  have hzero := @fold_eq_zero_iff n
  exact fold_congr (by omega) (by omega)

theorem complement_pos {n : Nat} (h : n ≤ 65535) : 0 < complement n ∧ complement n ≤ 65535 := by
  unfold complement
  split_ifs <;> omega

/-- **A sum with its complement folds to all ones.** -/
theorem fold_add_complement (n : Nat) : fold (n + complement (fold n)) = 65535 := by
  have hle := fold_le n
  have hmod := fold_mod n
  have hpos := complement_pos hle
  refine fold_eq_ones_iff.2 ⟨by omega, ?_⟩
  unfold complement
  split_ifs <;> omega

theorem fold_add_not {n : Nat} (h : 0 < n) : fold (n + (65535 - fold n)) = 65535 := by
  have hle := fold_le n
  have hmod := fold_mod n
  exact fold_eq_ones_iff.2 ⟨by omega, by omega⟩

theorem wordSum_toBytes {v : Nat} (h : v < 65536) : wordSum (toBytes 2 v) = v := by
  simp only [toBytes, List.nil_append, List.cons_append, wordSum, UInt8.toNat_ofNat']
  omega

end Kotoconn.Lib
