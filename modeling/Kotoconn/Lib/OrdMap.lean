import Mathlib

/-!
# Ordered maps on natural keys

`OrdMap α` is a finite map kept in increasing key order, with the cursor operations of an ordered tree map. Every proof
goes through `(k, v) ∈ m`; nothing outside this module looks at the list.
-/

namespace Kotoconn.Lib
open List

structure OrdMap (α : Type) where
  entries : List (Nat × α)
  sorted : entries.Pairwise (fun a b => a.1 < b.1)

namespace OrdMap
variable {α : Type}

instance : Membership (Nat × α) (OrdMap α) := ⟨fun m p => p ∈ m.entries⟩

variable {m : OrdMap α} {p : Nat × α}

theorem mem_def : p ∈ m ↔ p ∈ m.entries := Iff.rfl

theorem eq_of_key {p q : Nat × α} (hp : p ∈ m) (hq : q ∈ m) (h : p.1 = q.1) : p = q := by
  by_contra hne
  have hkeys : m.entries.Pairwise (fun a b => a.1 ≠ b.1) := m.sorted.imp (fun h => Nat.ne_of_lt h)
  have : Std.Symm (fun a b : Nat × α => a.1 ≠ b.1) := ⟨fun _ _ h => Ne.symm h⟩
  exact hkeys.forall hp hq hne h

def empty : OrdMap α := ⟨[], List.Pairwise.nil⟩

@[simp] theorem not_mem_empty (p : Nat × α) : p ∉ (empty : OrdMap α) := by simp [mem_def, empty]

def size (m : OrdMap α) : Nat := m.entries.length

/-! ## Updates -/

def insertEntry (k : Nat) (v : α) : List (Nat × α) → List (Nat × α)
  | [] => [(k, v)]
  | p :: t =>
    if k < p.1 then (k, v) :: p :: t
    else if k = p.1 then (k, v) :: t
    else p :: insertEntry k v t

variable {k : Nat}

theorem mem_insertEntry {v : α} : ∀ {l : List (Nat × α)},
    l.Pairwise (fun a b => a.1 < b.1) → (p ∈ insertEntry k v l ↔ p = (k, v) ∨ (p ∈ l ∧ p.1 ≠ k))
  | [], _ => by simp [insertEntry]
  | q :: t, h => by
    obtain ⟨hq, ht⟩ := pairwise_cons.1 h
    have hgt : ∀ {r}, r ∈ t → q.1 < r.1 := fun hr => hq _ hr
    unfold insertEntry
    split_ifs with h1 h2
    · constructor
      · intro hp
        rcases mem_cons.1 hp with hp | hp
        · exact .inl hp
        · refine .inr ⟨hp, ?_⟩
          rcases mem_cons.1 hp with rfl | hp
          · omega
          · have := hgt hp; omega
      · rintro (hp | ⟨hp, -⟩)
        · exact mem_cons.2 (.inl hp)
        · exact mem_cons_of_mem _ hp
    · constructor
      · intro hp
        rcases mem_cons.1 hp with hp | hp
        · exact .inl hp
        · exact .inr ⟨mem_cons_of_mem _ hp, by have := hgt hp; omega⟩
      · rintro (hp | ⟨hp, hne⟩)
        · exact mem_cons.2 (.inl hp)
        · rcases mem_cons.1 hp with rfl | hp
          · exact absurd h2.symm hne
          · exact mem_cons_of_mem _ hp
    · rw [mem_cons, mem_insertEntry ht, mem_cons]
      constructor
      · rintro (rfl | hp | ⟨hp, hne⟩)
        · exact .inr ⟨.inl rfl, by omega⟩
        · exact .inl hp
        · exact .inr ⟨.inr hp, hne⟩
      · rintro (hp | ⟨rfl | hp, hne⟩)
        · exact .inr (.inl hp)
        · exact .inl rfl
        · exact .inr (.inr ⟨hp, hne⟩)

theorem insertEntry_sorted {v : α} : ∀ {l : List (Nat × α)},
    l.Pairwise (fun a b => a.1 < b.1) → (insertEntry k v l).Pairwise (fun a b => a.1 < b.1)
  | [], _ => by simp [insertEntry]
  | q :: t, h => by
    obtain ⟨hq, ht⟩ := pairwise_cons.1 h
    unfold insertEntry
    split_ifs with h1 h2
    · refine pairwise_cons.2 ⟨fun r hr => ?_, h⟩
      rcases mem_cons.1 hr with rfl | hr
      · exact h1
      · exact Nat.lt_trans h1 (hq r hr)
    · exact pairwise_cons.2 ⟨fun r hr => by rw [h2]; exact hq r hr, ht⟩
    · refine pairwise_cons.2 ⟨fun r hr => ?_, insertEntry_sorted ht⟩
      rcases (mem_insertEntry ht).1 hr with rfl | ⟨hr, -⟩
      · simp only; omega
      · exact hq r hr

def insert (m : OrdMap α) (k : Nat) (v : α) : OrdMap α := ⟨insertEntry k v m.entries, insertEntry_sorted m.sorted⟩

theorem mem_insert {v : α} : p ∈ m.insert k v ↔ p = (k, v) ∨ (p ∈ m ∧ p.1 ≠ k) := mem_insertEntry m.sorted

def erase (m : OrdMap α) (k : Nat) : OrdMap α := ⟨m.entries.filter (fun p => p.1 ≠ k), m.sorted.filter _⟩

theorem mem_erase : p ∈ m.erase k ↔ p ∈ m ∧ p.1 ≠ k := by
  simp [mem_def, erase]

/-! ## Cursors -/

/-- The entry with the greatest key below `k`. -/
def lastBelow (m : OrdMap α) (k : Nat) : Option (Nat × α) := (m.entries.filter (fun p => p.1 < k)).getLast?

/-- The entry with the greatest key at or below `k`. -/
def lastAtMost (m : OrdMap α) (k : Nat) : Option (Nat × α) := m.lastBelow (k + 1)

/-- The entry with the least key in `[lo, hi)`. -/
def firstIn (m : OrdMap α) (lo hi : Nat) : Option (Nat × α) :=
  (m.entries.filter (fun p => lo ≤ p.1 ∧ p.1 < hi)).head?

/-- The number of keys in `[lo, hi)`. -/
def countIn (m : OrdMap α) (lo hi : Nat) : Nat := (m.entries.filter (fun p => lo ≤ p.1 ∧ p.1 < hi)).length

def first? (m : OrdMap α) : Option (Nat × α) := m.entries.head?

theorem le_getLast {l : List (Nat × α)} (h : l.Pairwise (fun a b => a.1 < b.1)) {p q : Nat × α}
    (hp : l.getLast? = some p) (hq : q ∈ l) : q.1 ≤ p.1 := by
  obtain ⟨_, rfl⟩ := getLast?_eq_some_iff.1 hp
  rcases mem_append.1 hq with hq | hq
  · exact le_of_lt ((pairwise_append.1 h).2.2 q hq p (mem_singleton_self p))
  · exact le_of_eq (congrArg Prod.fst (mem_singleton.1 hq))

theorem head_le {l : List (Nat × α)} (h : l.Pairwise (fun a b => a.1 < b.1)) {p q : Nat × α}
    (hp : l.head? = some p) (hq : q ∈ l) : p.1 ≤ q.1 := by
  obtain ⟨_, rfl⟩ := head?_eq_some_iff.1 hp
  rcases mem_cons.1 hq with rfl | hq
  · exact le_rfl
  · exact le_of_lt ((pairwise_cons.1 h).1 q hq)

theorem lastBelow_some (h : m.lastBelow k = some p) : p ∈ m ∧ p.1 < k ∧ ∀ q ∈ m, q.1 < k → q.1 ≤ p.1 := by
  have hp := mem_of_getLast? h
  simp only [mem_filter, decide_eq_true_eq] at hp
  refine ⟨hp.1, hp.2, fun q hq hk => le_getLast (m.sorted.filter _) h ?_⟩
  exact mem_filter.2 ⟨hq, by simpa using hk⟩

theorem lastBelow_none (h : m.lastBelow k = none) {q : Nat × α} (hq : q ∈ m) : k ≤ q.1 := by
  rw [lastBelow, getLast?_eq_none_iff, filter_eq_nil_iff] at h
  simpa using h q hq

theorem lastAtMost_some (h : m.lastAtMost k = some p) : p ∈ m ∧ p.1 ≤ k ∧ ∀ q ∈ m, q.1 ≤ k → q.1 ≤ p.1 := by
  obtain ⟨hp, hk, hmax⟩ := lastBelow_some h
  exact ⟨hp, Nat.le_of_lt_succ hk, fun q hq hqk => hmax q hq (Nat.lt_succ_of_le hqk)⟩

theorem lastAtMost_eq (hp : p ∈ m) (hk : p.1 ≤ k) (hmax : ∀ q ∈ m, q.1 ≤ k → q.1 ≤ p.1) : m.lastAtMost k = some p := by
  cases h : m.lastAtMost k with
  | none => have := lastBelow_none h hp; omega
  | some q =>
    obtain ⟨hq, hqk, hqmax⟩ := lastAtMost_some h
    have h1 := hmax q hq hqk
    have h2 := hqmax p hp hk
    rw [eq_of_key hp hq (by omega)]

theorem firstIn_some {lo hi : Nat} (h : m.firstIn lo hi = some p) : p ∈ m ∧ lo ≤ p.1 ∧ p.1 < hi := by
  obtain ⟨hp, hkey⟩ := mem_filter.1 (mem_of_head? h)
  exact ⟨hp, by simpa using hkey⟩

theorem firstIn_none {lo hi : Nat} (h : m.firstIn lo hi = none) {q : Nat × α} (hq : q ∈ m)
    (hlo : lo ≤ q.1) : hi ≤ q.1 := by
  rw [firstIn, head?_eq_none_iff, filter_eq_nil_iff] at h
  simpa [hlo] using h q hq

theorem first?_some (h : m.first? = some p) : p ∈ m ∧ ∀ q ∈ m, p.1 ≤ q.1 :=
  ⟨mem_of_head? h, fun _ hq => head_le m.sorted h hq⟩

theorem first?_none (h : m.first? = none) (q : Nat × α) : q ∉ m := by
  rw [first?, head?_eq_none_iff] at h
  simp [mem_def, h]

/-! ## Sizes, for loops that remove entries -/

theorem countIn_le_size (m : OrdMap α) (lo hi : Nat) : m.countIn lo hi ≤ m.size := length_filter_le _ _

theorem length_filter_insertEntry (k : Nat) (v : α) (f : Nat → Bool) (hk : f k = false) :
    ∀ {l : List (Nat × α)}, ((insertEntry k v l).filter (fun p => f p.1)).length = (l.filter (fun p => f p.1)).length
  | [] => by simp [insertEntry, hk]
  | q :: t => by
    unfold insertEntry
    split_ifs with h1 h2
    · rw [filter_cons_of_neg (by simpa using hk)]
    · rw [filter_cons_of_neg (by simpa using hk), filter_cons_of_neg (by simpa [← h2] using hk)]
    · by_cases hq : f q.1
      · simp [hq, length_filter_insertEntry k v f hk]
      · simp [hq, length_filter_insertEntry k v f hk]

theorem countIn_insert {k lo hi : Nat} {v : α} (h : ¬ (lo ≤ k ∧ k < hi)) :
    (m.insert k v).countIn lo hi = m.countIn lo hi :=
  length_filter_insertEntry k v (fun j => lo ≤ j ∧ j < hi) (by simpa using h)

theorem countIn_erase_lt {lo hi : Nat} (hp : p ∈ m) (hlo : lo ≤ p.1) (hhi : p.1 < hi) :
    (m.erase p.1).countIn lo hi < m.countIn lo hi := by
  unfold countIn erase
  simp only [List.filter_filter]
  have hcomm : (fun q : Nat × α => decide (lo ≤ q.1 ∧ q.1 < hi) && decide (q.1 ≠ p.1))
      = fun q => decide (q.1 ≠ p.1) && decide (lo ≤ q.1 ∧ q.1 < hi) := by
    funext q; exact Bool.and_comm _ _
  rw [hcomm, ← List.filter_filter]
  apply length_filter_lt_length_iff_exists.2
  exact ⟨p, mem_filter.2 ⟨hp, by simpa using And.intro hlo hhi⟩, by simp⟩

theorem countIn_eq_zero {lo hi : Nat} (h : ∀ q ∈ m, ¬ (lo ≤ q.1 ∧ q.1 < hi)) : m.countIn lo hi = 0 :=
  length_eq_zero_iff.2 (filter_eq_nil_iff.2 fun q hq => by simpa using h q hq)

theorem countIn_add {lo mid hi : Nat} (hlo : lo ≤ mid) (hhi : mid ≤ hi) :
    m.countIn lo hi = m.countIn lo mid + m.countIn mid hi := by
  unfold countIn
  induction m.entries with
  | nil => rfl
  | cons p l ih =>
    simp only [filter_cons, decide_eq_true_eq]
    split_ifs <;> (try simp only [length_cons]) <;> omega

theorem countIn_single (hp : p ∈ m) : m.countIn p.1 (p.1 + 1) = 1 := by
  have hmem : p ∈ m.entries.filter fun q => p.1 ≤ q.1 ∧ q.1 < p.1 + 1 := mem_filter.2 ⟨hp, by simp⟩
  have hkey : ∀ q ∈ m.entries.filter (fun q => p.1 ≤ q.1 ∧ q.1 < p.1 + 1), q.1 = p.1 := fun q hq => by
    have := (mem_filter.1 hq).2
    simp only [decide_eq_true_eq] at this
    omega
  have hsorted := m.sorted.filter fun q => p.1 ≤ q.1 ∧ q.1 < p.1 + 1
  unfold countIn
  generalize (m.entries.filter fun q => p.1 ≤ q.1 ∧ q.1 < p.1 + 1) = l at hmem hkey hsorted
  cases l with
  | nil => cases hmem
  | cons a l =>
    cases l with
    | nil => rfl
    | cons b =>
      have hlt := (pairwise_cons.1 hsorted).1 b mem_cons_self
      have hb := hkey b (mem_cons_of_mem _ mem_cons_self)
      rw [hkey a mem_cons_self, hb] at hlt
      exact absurd hlt (lt_irrefl _)

end OrdMap

end Kotoconn.Lib
