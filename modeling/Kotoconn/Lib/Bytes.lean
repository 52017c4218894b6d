import Mathlib

/-!
# Byte strings

`slice b lo hi` is the view `b[lo..hi]`. A view is read through `getElem?_slice`, so a proof about views is a proof about
positions. `Rewritten W b b'`: `b'` is `b` outside the positions in `W`.
-/

namespace Kotoconn.Lib
open List

abbrev Bytes := List UInt8

def slice {α : Type} (b : List α) (lo hi : Nat) : List α := (b.take hi).drop lo

section Slice
variable {α : Type}

@[simp] theorem length_slice (b : List α) (lo hi : Nat) : (slice b lo hi).length = min hi b.length - lo := by
  simp [slice]

theorem getElem?_slice (b : List α) (lo hi i : Nat) :
    (slice b lo hi)[i]? = if lo + i < hi then b[lo + i]? else none := by
  rw [slice, getElem?_drop, getElem?_take]

theorem slice_to_end (b : List α) (lo : Nat) : slice b lo b.length = b.drop lo := by
  rw [slice, take_length]

end Slice

/-- `b` with `d` written over the positions from `lo` on. -/
def writeAt (b : Bytes) (lo : Nat) (d : Bytes) : Bytes := b.take lo ++ d ++ b.drop (lo + d.length)

theorem length_writeAt {b d : Bytes} {lo : Nat} (h : lo + d.length ≤ b.length) : (writeAt b lo d).length = b.length := by
  simp only [writeAt, length_append, length_take, length_drop]
  omega

theorem getElem?_writeAt {b d : Bytes} {lo : Nat} (h : lo + d.length ≤ b.length) (i : Nat) :
    (writeAt b lo d)[i]? = if lo ≤ i ∧ i < lo + d.length then d[i - lo]? else b[i]? := by
  have hlen : (b.take lo).length = lo := by rw [length_take]; omega
  rw [writeAt, append_assoc, getElem?_append, hlen]
  split_ifs with h1 h2 h2
  · omega
  · rw [getElem?_take, if_pos h1]
  · rw [getElem?_append, if_pos (by omega)]
  · rw [getElem?_append, if_neg (by omega), getElem?_drop]
    congr 1
    omega

theorem writeAt_writeAt {b d d' : Bytes} {lo : Nat} (hd : d'.length = d.length) (h : lo + d.length ≤ b.length) :
    writeAt (writeAt b lo d) lo d' = writeAt b lo d' := by
  have h' : lo + d'.length ≤ (writeAt b lo d).length := by rwa [length_writeAt h, hd]
  refine ext_getElem? fun i => ?_
  rw [getElem?_writeAt h', getElem?_writeAt h, getElem?_writeAt (hd ▸ h), hd]
  split_ifs <;> rfl

/-- The number whose base-256 digits are `b`, most significant first. -/
def bigEndian (b : Bytes) : Nat := b.foldl (fun n x => n * 256 + x.toNat) 0

/-- The number in the `n` bytes from `i` on. -/
def numberAt (b : Bytes) (i n : Nat) : Nat := bigEndian (slice b i (i + n))

/-- The last `n` base-256 digits of `v`, most significant first. -/
def toBytes : (n v : Nat) → Bytes
  | 0, _ => []
  | n + 1, v => toBytes n (v / 256) ++ [UInt8.ofNat v]

@[simp] theorem length_toBytes (n v : Nat) : (toBytes n v).length = n := by
  induction n generalizing v with
  | zero => rfl
  | succ _ ih => simp [toBytes, ih]

theorem toBytes_head (n x : Nat) : ∃ tail, toBytes (n + 1) x = UInt8.ofNat (x / 256 ^ n) :: tail ∧ tail.length = n := by
  induction n generalizing x with
  | zero => exact ⟨[], by simp [toBytes], rfl⟩
  | succ _ ih =>
    obtain ⟨tail, hhead, hlength⟩ := ih (x / 256)
    refine ⟨tail ++ [UInt8.ofNat x], ?_, by rw [length_append, hlength]; rfl⟩
    rw [toBytes, hhead, Nat.div_div_eq_div_mul, ← Nat.pow_succ', cons_append]

theorem bigEndian_toBytes {n v : Nat} (h : v < 256 ^ n) : bigEndian (toBytes n v) = v := by
  induction n generalizing v with
  | zero =>
    rw [Nat.pow_zero] at h
    simp only [toBytes, bigEndian, foldl_nil]
    omega
  | succ n ih =>
    have hdiv : v / 256 < 256 ^ n := Nat.div_lt_of_lt_mul (by rwa [mul_comm, ← Nat.pow_succ])
    have := ih hdiv
    simp only [bigEndian] at this
    simp only [toBytes, bigEndian, foldl_append, foldl_cons, foldl_nil, this, UInt8.toNat_ofNat']
    omega

theorem bigEndian_append_singleton (b : Bytes) (x : UInt8) : bigEndian (b ++ [x]) = bigEndian b * 256 + x.toNat := by
  simp [bigEndian]

theorem bigEndian_lt (b : Bytes) : bigEndian b < 256 ^ b.length := by
  induction b using List.reverseRecOn with
  | nil => simp [bigEndian]
  | append_singleton _ x =>
    have hx := x.toNat_lt
    rw [bigEndian_append_singleton, length_append, length_singleton, Nat.pow_succ]
    omega

theorem toBytes_bigEndian (b : Bytes) : toBytes b.length (bigEndian b) = b := by
  induction b using List.reverseRecOn with
  | nil => rfl
  | append_singleton b x ih =>
    have hx := x.toNat_lt
    have hdiv : (bigEndian b * 256 + x.toNat) / 256 = bigEndian b := by omega
    have hlow : UInt8.ofNat (bigEndian b * 256 + x.toNat) = x := by
      apply UInt8.toNat_inj.1
      rw [UInt8.toNat_ofNat']
      omega
    rw [bigEndian_append_singleton, length_append, length_singleton, toBytes, hdiv, hlow, ih]

theorem slice_append {α : Type} (a b c : List α) : slice (a ++ b ++ c) a.length (a.length + b.length) = b := by
  rw [slice, ← length_append, take_left, drop_left]

theorem numberAt_toBytes {a b c : Bytes} {i n v : Nat} (hb : b = a ++ toBytes n v ++ c) (hi : a.length = i)
    (h : v < 256 ^ n) : numberAt b i n = v := by
  have := slice_append a (toBytes n v) c
  rw [length_toBytes, hi, ← hb] at this
  rw [numberAt, this, bigEndian_toBytes h]

def layout (fields : List (Nat × Nat)) : Bytes := fields.flatMap fun f => toBytes f.1 f.2

theorem numberAt_layout {fields : List (Nat × Nat)} {b rest : Bytes} (hb : b = layout fields ++ rest) (i : Nat)
    {n v : Nat} (hi : fields[i]? = some (n, v)) (h : v < 256 ^ n) :
    numberAt b ((fields.take i).map Prod.fst).sum n = v := by
  refine numberAt_toBytes (a := layout (fields.take i)) (c := layout (fields.drop (i + 1)) ++ rest) ?_ ?_ h
  · obtain ⟨hlt, hget⟩ := List.getElem?_eq_some_iff.1 hi
    have hsplit : fields = fields.take i ++ (n, v) :: fields.drop (i + 1) := by
      rw [← hget, getElem_cons_drop, take_append_drop]
    rw [hb]
    conv_lhs => rw [hsplit]
    simp only [layout, flatMap_append, flatMap_cons, append_assoc]
  · simp [layout, length_flatMap]

theorem numberAt_writeAt {b : Bytes} {lo n v : Nat} (hlo : lo ≤ b.length) (h : v < 256 ^ n) :
    numberAt (writeAt b lo (toBytes n v)) lo n = v :=
  numberAt_toBytes rfl (length_take_of_le hlo) h

/-! ## Common beginnings -/

section Take
variable {b b' : Bytes} {n k : Nat}

theorem take_eq_of_le (h : b'.take n = b.take n) (hk : k ≤ n) : b'.take k = b.take k := by
  rw [← min_eq_left hk, ← take_take, h, take_take]

theorem take_drop_eq (h : b'.take (n + k) = b.take (n + k)) : (b'.drop n).take k = (b.drop n).take k := by
  have hdrop := congrArg (List.drop n) h
  rwa [drop_take, drop_take, Nat.add_sub_cancel_left] at hdrop

theorem numberAt_of_take (h : b'.take n = b.take n) (i k : Nat) (hk : i + k ≤ n) : numberAt b' i k = numberAt b i k := by
  unfold numberAt slice
  rw [take_eq_of_le h hk]

end Take

/-! ## Writes in place -/

/-- `b'` is `b` with other bytes at positions in `W` only. -/
structure Rewritten (W : Nat → Prop) (b b' : Bytes) : Prop where
  length : b'.length = b.length
  outside : ∀ i, ¬ W i → b'[i]? = b[i]?

namespace Rewritten
variable {W W' : Nat → Prop} {a b b' b'' d : Bytes}

theorem refl (W : Nat → Prop) (b : Bytes) : Rewritten W b b := ⟨rfl, fun _ _ => rfl⟩

theorem trans (h : Rewritten W b b') (h' : Rewritten W b' b'') : Rewritten W b b'' :=
  ⟨h'.length.trans h.length, fun i hi => (h'.outside i hi).trans (h.outside i hi)⟩

theorem mono (h : Rewritten W b b') (hW : ∀ i, W i → W' i) : Rewritten W' b b' :=
  ⟨h.length, fun i hi => h.outside i fun hw => hi (hW i hw)⟩

protected theorem writeAt {lo : Nat} (h : lo + d.length ≤ b.length) :
    Rewritten (fun i => lo ≤ i ∧ i < lo + d.length) b (writeAt b lo d) :=
  ⟨length_writeAt h, fun i hi => by rw [getElem?_writeAt h, if_neg hi]⟩

theorem number (b : Bytes) (lo n v : Nat) (h : lo + n ≤ b.length) :
    Rewritten (fun i => lo ≤ i ∧ i < lo + n) b (Lib.writeAt b lo (toBytes n v)) := by
  have hwrite := @Rewritten.writeAt b (toBytes n v) lo (by rwa [length_toBytes])
  rwa [length_toBytes] at hwrite

theorem append (h : Rewritten W b b') (a : Bytes) :
    Rewritten (fun i => a.length ≤ i ∧ W (i - a.length)) (a ++ b) (a ++ b') := by
  refine ⟨by rw [length_append, length_append, h.length], fun i hi => ?_⟩
  rw [getElem?_append, getElem?_append]
  split_ifs with hlt
  · rfl
  · exact h.outside _ fun hw => hi ⟨Nat.not_lt.1 hlt, hw⟩

theorem take_eq {n : Nat} (h : Rewritten W b b') (hn : ∀ i < n, ¬ W i) : b'.take n = b.take n := by
  refine ext_getElem? fun i => ?_
  rw [getElem?_take, getElem?_take]
  split_ifs with hi
  · exact h.outside i (hn i hi)
  · rfl

end Rewritten

end Kotoconn.Lib
