import Mathlib

/-!
# Hash tables

`Table K V` is a finite map, Mathlib's `AList` with values of one type. `Table.retain` keeps the entries that satisfy
a predicate; `lookup_retain` reads the result. `update_eq_some` reads a map that is a function.
-/

namespace Kotoconn.Lib
open List

abbrev Table (K V : Type) := AList (fun _ : K => V)

namespace Table
variable {K V : Type}

def retain (t : Table K V) (p : V → Bool) : Table K V :=
  ⟨t.entries.filter fun e => p e.2, t.nodupKeys.sublist filter_sublist⟩

def values (t : Table K V) : List V := t.entries.map fun e => e.2

variable [DecidableEq K] {t : Table K V} {k k' : K} {v v' : V} {p : V → Bool}

theorem lookup_eq_some_iff : t.lookup k = some v ↔ (⟨k, v⟩ : Sigma fun _ => V) ∈ t.entries :=
  AList.mem_lookup_iff

theorem lookup_retain : (t.retain p).lookup k = some v ↔ t.lookup k = some v ∧ p v = true := by
  rw [lookup_eq_some_iff, lookup_eq_some_iff]
  exact mem_filter

theorem mem_keys_retain : k ∈ (t.retain p).keys ↔ ∃ v, t.lookup k = some v ∧ p v = true := by
  rw [← AList.mem_keys, ← AList.lookup_isSome, Option.isSome_iff_exists]
  exact exists_congr fun v => lookup_retain

theorem mem_values_of_lookup (h : t.lookup k = some v) : v ∈ t.values :=
  List.mem_map.2 ⟨_, lookup_eq_some_iff.1 h, rfl⟩

theorem exists_lookup_of_mem_values (h : v ∈ t.values) : ∃ k, t.lookup k = some v := by
  obtain ⟨e, he, rfl⟩ := List.mem_map.1 h
  exact ⟨e.1, lookup_eq_some_iff.2 he⟩

theorem lookup_insert_iff :
    (t.insert k v).lookup k' = some v' ↔ (k' = k ∧ v' = v) ∨ (k' ≠ k ∧ t.lookup k' = some v') := by
  by_cases h : k' = k
  · subst h
    rw [AList.lookup_insert]
    simp [eq_comm]
  · rw [AList.lookup_insert_ne h]
    simp [h]

theorem lookup_erase_iff : (t.erase k).lookup k' = some v' ↔ k' ≠ k ∧ t.lookup k' = some v' := by
  by_cases h : k' = k
  · subst h
    simp
  · rw [AList.lookup_erase_ne h]
    simp [h]

theorem erase_vacant (h : t.lookup k = none) : t.erase k = t :=
  AList.ext (kerase_of_notMem_keys (AList.lookup_eq_none.1 h))

end Table

theorem update_eq_some {α β : Type} [DecidableEq α] {f : α → Option β} {a a' : α} {b : Option β} {c : β} :
    Function.update f a b a' = some c ↔ (a' = a ∧ b = some c) ∨ (a' ≠ a ∧ f a' = some c) := by
  by_cases h : a' = a
  · subst h
    simp
  · simp [h]

theorem getElem?_snoc {α : Type} {l : List α} {x y : α} {k : Nat} :
    (l ++ [x])[k]? = some y ↔ l[k]? = some y ∨ (k = l.length ∧ x = y) := by
  rcases Nat.lt_trichotomy k l.length with h | rfl | h
  · rw [getElem?_append_left h]
    exact ⟨Or.inl, fun hy => hy.elim id fun he => absurd he.1 (Nat.ne_of_lt h)⟩
  · simp
  · rw [getElem?_eq_none (by simp; omega), getElem?_eq_none (le_of_lt h)]
    constructor
    · intro hy
      cases hy
    · rintro (hy | ⟨he, -⟩)
      · cases hy
      · omega

theorem exists_min?_le {xs : List Nat} {x : Nat} (h : x ∈ xs) : ∃ t, xs.min? = some t ∧ t ≤ x := by
  cases hmin : xs.min? with
  | none =>
    rw [min?_eq_none_iff.1 hmin] at h
    exact absurd h not_mem_nil
  | some t => exact ⟨t, rfl, (min?_eq_some_iff.1 hmin).2 x h⟩

end Kotoconn.Lib
