import Kotoconn.Lib.Table

/-!
# Totals over tables and families

`Table.total f t` adds up `f` over the values of a table, `Table.count p t` counts those that satisfy `p`. The lemmas
say how a total changes when one value is overwritten or removed, and when one member of a family is replaced
(`sum_update_eq`).
-/

namespace Kotoconn.Lib
open List

variable {K V M : Type}

namespace Table

def total [AddCommMonoid M] (f : V → M) (t : Table K V) : M := (t.values.map f).sum

theorem total_retain [AddCommMonoid M] (f : V → M) (t : Table K V) (p : V → Bool) :
    total f t = total f (t.retain p) + total f (t.retain fun v => !p v) := by
  have hperm := (filter_append_perm (fun e : Sigma fun _ : K => V => p e.2) t.entries).map fun e => f e.2
  have hsum := hperm.sum_eq
  rw [map_append, sum_append] at hsum
  simp only [total, values, retain, List.map_map]
  exact hsum.symm

variable [DecidableEq K] {t : Table K V} {k : K} {v : V}

theorem values_perm_erase (h : t.lookup k = some v) : t.values.Perm (v :: values (t.erase k)) := by
  have hmem := lookup_eq_some_iff.1 h
  obtain ⟨w, l1, l2, hk, hentries, herase⟩ := exists_of_kerase (mem_keys_of_mem hmem)
  have hw : w = v := by
    have hlook : t.entries.dlookup k = some w := by
      rw [hentries, dlookup_append, dlookup_eq_none.2 hk, dlookup_cons_eq]
      rfl
    exact Option.some.inj (hlook.symm.trans h)
  subst hw
  have hvalues : values (t.erase k) = (l1 ++ l2).map fun e => e.2 := congrArg _ herase
  rw [hvalues, values, hentries, map_append, map_append, map_cons]
  exact perm_middle

section
variable [AddCommMonoid M] (f : V → M)

theorem total_erase (h : t.lookup k = some v) : total f t = f v + total f (t.erase k) := by
  unfold total
  rw [((values_perm_erase h).map f).sum_eq, map_cons, sum_cons]

theorem total_insert (t : Table K V) (k : K) (v : V) : total f (t.insert k v) = f v + total f (t.erase k) := rfl

theorem total_insert_vacant (h : t.lookup k = none) (v : V) : total f (t.insert k v) = f v + total f t := by
  rw [total_insert, erase_vacant h]

theorem total_replace (h : t.lookup k = some v) (v' : V) : total f (t.insert k v') + f v = total f t + f v' := by
  rw [total_insert, total_erase f h, add_comm (f v'), add_right_comm, add_comm (f v)]

theorem total_eq_zero {f : V → M} (h : ∀ k v, t.lookup k = some v → f v = 0) : total f t = 0 := by
  refine sum_eq_zero fun n hn => ?_
  obtain ⟨v, hv, rfl⟩ := List.mem_map.1 hn
  obtain ⟨k, hk⟩ := exists_lookup_of_mem_values hv
  exact h k v hk

end

def count (p : V → Bool) (t : Table K V) : Nat := total (fun v => (p v).toNat) t

section
variable {p : V → Bool}

theorem count_replace (h : t.lookup k = some v) (v' : V) :
    count p (t.insert k v') + (p v).toNat = count p t + (p v').toNat :=
  total_replace (fun v => (p v).toNat) h v'

theorem count_insert_vacant (h : t.lookup k = none) (v : V) : count p (t.insert k v) = count p t + (p v).toNat := by
  rw [count, total_insert_vacant _ h, add_comm]
  rfl

theorem count_erase (h : t.lookup k = some v) : count p (t.erase k) + (p v).toNat = count p t := by
  rw [count, count, total_erase _ h, add_comm]

theorem count_pos (h : t.lookup k = some v) (hp : p v = true) : 0 < count p t := by
  have herase := count_erase h (p := p)
  rw [hp] at herase
  exact herase ▸ Nat.succ_pos _

theorem exists_of_count_pos (h : 0 < count p t) : ∃ k v, t.lookup k = some v ∧ p v = true := by
  by_contra hnone
  have hzero : count p t = 0 := total_eq_zero fun k v hk => by
    cases hp : p v with
    | false => rfl
    | true => exact absurd ⟨k, v, hk, hp⟩ hnone
  omega

end

end Table

theorem sum_update_eq [AddCancelCommMonoid M] {n i : Nat} (f : V → M) (g : Nat → V) (hi : i < n) {x : V} {new out : M}
    (h : f (g i) + new = f x + out) :
    ∑ j ∈ Finset.range n, f (g j) + new = ∑ j ∈ Finset.range n, f (Function.update g i x j) + out := by
  have hmem := Finset.mem_range.2 hi
  have hrest : ∑ j ∈ (Finset.range n).erase i, f (Function.update g i x j) = ∑ j ∈ (Finset.range n).erase i, f (g j) :=
    Finset.sum_congr rfl fun j hj => by rw [Function.update_of_ne (Finset.ne_of_mem_erase hj)]
  rw [← Finset.add_sum_erase _ _ hmem, ← Finset.add_sum_erase _ (fun j => f (Function.update g i x j)) hmem, hrest,
    Function.update_self, add_right_comm, h, add_right_comm]

end Kotoconn.Lib
