import Kotoconn.Tun.TcpStorage.Flat

/-!
# What the operations do to the blocks

Each operation finishes on well-formed blocks and is an update of the stored positions.
-/

namespace Kotoconn.Tun.TcpStorage
open Lib Lib.Sparse List

namespace Storage

/-! ## `insert` -/

/-- Blocks that begin before `start` end there, and outside `start .. stop` nothing changed. -/
structure Split (m m' : OrdMap Bytes) (start stop : Nat) : Prop where
  apart : Apart m'
  same : ∀ i, ¬ (start ≤ i ∧ i < stop) → cell m' i = cell m i
  ends : ∀ q ∈ m', q.1 < start → q.1 + q.2.length ≤ start

variable {start stop : Nat}

theorem splitLeft_spec {m : OrdMap Bytes} (h : Apart m) (hle : start ≤ stop) :
    Split m (splitLeft m start stop) start stop := by
  unfold splitLeft
  cases hb : m.lastBelow start with
  | none =>
    refine ⟨h, fun _ _ => rfl, fun q hq hlt => ?_⟩
    have := OrdMap.lastBelow_none hb hq
    omega
  | some p =>
    obtain ⟨key, old⟩ := p
    obtain ⟨hmem, hkey, hmax⟩ := OrdMap.lastBelow_some hb
    simp only at hkey hmax ⊢
    split_ifs with hlong
    · have hcut := h.cut hmem (show key < stop by omega)
      have hlen : (old.take (start - key)).length = start - key := by
        rw [length_take]; omega
      have hne : old.take (start - key) ≠ [] := by
        intro he
        rw [he] at hlen
        simp only [length_nil] at hlen
        omega
      -- the left part goes back where the cut block was
      have hclear : Clear (keepTail (m.erase key) key old stop) key (key + (old.take (start - key)).length) := by
        intro q hq
        rw [hlen]
        rcases (mem_cut h hmem (by omega)).1 hq with ⟨hq, hqk⟩ | ⟨rfl, -⟩
        · rcases Nat.lt_or_gt_of_ne hqk with hl | hg
          · exact .inl (h.disjoint q hq _ hmem hl)
          · have := h.disjoint _ hmem q hq hg
            simp only at this
            omega
        · right
          simp only
          omega
      refine ⟨hcut.put hne hclear, fun i hi => ?_, fun q hq hlt => ?_⟩
      · rw [cell_put hcut hne hclear, cell_cut h hmem (by omega), hlen]
        by_cases hin : key ≤ i ∧ i < key + (start - key)
        · rw [if_pos hin, getElem?_take, if_pos (by omega)]
          have hc := cell_of_mem h hmem (i := i - key) (by simp only; omega)
          simp only at hc
          rw [show key + (i - key) = i by omega] at hc
          exact hc.symm
        · rw [if_neg hin, if_neg (by omega)]
      · rcases (mem_put hcut hne hclear).1 hq with rfl | hq
        · simp only [hlen]
          omega
        · rcases (mem_cut h hmem (by omega)).1 hq with ⟨hq, hqk⟩ | ⟨rfl, -⟩
          · have h1 := hmax q hq hlt
            have h2 := h.disjoint q hq _ hmem (by simp only; omega)
            simp only at h2
            omega
          · simp only at hlt
            omega
    · refine ⟨h, fun _ _ => rfl, fun q hq hlt => ?_⟩
      have h1 := hmax q hq hlt
      rcases Nat.lt_or_ge q.1 key with hl | hg
      · have h2 := h.disjoint q hq _ hmem hl
        simp only at h2
        omega
      · have hq' : q = (key, old) := OrdMap.eq_of_key hq hmem (by simp only; omega)
        subst hq'
        simp only at hlong ⊢
        omega

/-- Cutting a block that begins inside `start .. stop` keeps `Split` and leaves fewer such blocks. -/
theorem Split.cut {m0 m : OrdMap Bytes} (h : Split m0 m start stop) {key : Nat} {old : Bytes}
    (hmem : (key, old) ∈ m) (h1 : start ≤ key) (h2 : key < stop) :
    Split m0 (keepTail (m.erase key) key old stop) start stop ∧
      (keepTail (m.erase key) key old stop).countIn start stop < m.countIn start stop := by
  refine ⟨⟨h.apart.cut hmem h2, fun i hi => ?_, fun q hq hlt => ?_⟩, ?_⟩
  · rw [cell_cut h.apart hmem h2, if_neg (by omega)]
    exact h.same i hi
  · rcases (mem_cut h.apart hmem h2).1 hq with ⟨hq, -⟩ | ⟨rfl, -⟩
    · exact h.ends q hq hlt
    · simp only at hlt
      omega
  · have hlt := OrdMap.countIn_erase_lt hmem h1 h2
    unfold keepTail
    split_ifs
    · rw [OrdMap.countIn_insert (by omega)]
      exact hlt
    · exact hlt

theorem swallow_spec {m0 m : OrdMap Bytes} (h : Split m0 m start stop) :
    ∃ m', loop (swallow start stop) (m.size + 1) m = some m' ∧ Split m0 m' start stop ∧ Clear m' start stop := by
  refine loop_spec (fun m => Split m0 m start stop) (fun m' => Split m0 m' start stop ∧ Clear m' start stop)
    (fun m => m.countIn start stop) (fun m hm => ?_) _ m h (Nat.lt_succ_of_le (m.countIn_le_size start stop))
  unfold swallow
  cases hf : m.firstIn start stop with
  | none =>
    refine .inl ⟨m, rfl, hm, fun q hq => ?_⟩
    rcases Nat.lt_or_ge q.1 start with hl | hg
    · exact .inl (hm.ends q hq hl)
    · exact .inr (OrdMap.firstIn_none hf hq hg)
  | some =>
    obtain ⟨hmem, h1, h2⟩ := OrdMap.firstIn_some hf
    exact .inr ⟨_, rfl, hm.cut hmem h1 h2⟩

variable {s : Storage}

/-- **`insert` overwrites**, whatever it overlaps. -/
theorem insert_spec (h : Apart s.blocks) (start : Nat) {bytes : Bytes} (hne : bytes ≠ []) :
    ∃ m', s.insert start bytes = some { s with blocks := m' } ∧ Apart m' ∧
      cell m' = Flat.overwrite (cell s.blocks) start bytes := by
  have hsplit := splitLeft_spec h (Nat.le_add_right start bytes.length)
  obtain ⟨m', hloop, hs, hclear⟩ := swallow_spec hsplit
  refine ⟨m'.insert start bytes, ?_, hs.apart.put hne hclear, ?_⟩
  · simp only [insert, hloop]
  · funext i
    rw [cell_put hs.apart hne hclear, Flat.overwrite]
    split_ifs with hin
    · rfl
    · exact hs.same i hin

/-! ## Dropping a prefix -/

theorem drop_spec {m : OrdMap Bytes} (h : Apart m) (stop : Nat) :
    ∃ m', loop (dropTurn stop) (m.size + 1) m = some m' ∧ Apart m' ∧ cell m' = Flat.forget (cell m) stop := by
  -- every turn cuts a block that begins before `stop`; the cut part lies before `stop`
  let Inv (m' : OrdMap Bytes) : Prop := Apart m' ∧ ∀ i, stop ≤ i → cell m' i = cell m i
  have hturn : ∀ m', Inv m' → (∃ a, dropTurn stop m' = .done a ∧ Inv a ∧ ∀ q ∈ a, stop ≤ q.1) ∨
      ∃ m'', dropTurn stop m' = .again m'' ∧ Inv m'' ∧ m''.countIn 0 stop < m'.countIn 0 stop := by
    intro m' hm
    unfold dropTurn
    cases hf : m'.first? with
    | none => exact .inl ⟨m', rfl, hm, fun q hq => absurd hq (OrdMap.first?_none hf q)⟩
    | some p =>
      obtain ⟨start, _⟩ := p
      obtain ⟨hmem, hmin⟩ := OrdMap.first?_some hf
      simp only at hmin ⊢
      split_ifs with hge
      · exact .inl ⟨m', rfl, hm, fun q hq => le_trans hge (hmin q hq)⟩
      · have hlt : start < stop := by omega
        refine .inr ⟨_, rfl, ⟨hm.1.cut hmem hlt, fun i hi => ?_⟩, ?_⟩
        · rw [cell_cut hm.1 hmem hlt, if_neg (by omega)]
          exact hm.2 i hi
        · have hfew := OrdMap.countIn_erase_lt hmem (zero_le) hlt
          unfold keepTail
          split_ifs
          · rw [OrdMap.countIn_insert (by omega)]
            exact hfew
          · exact hfew
  obtain ⟨m', hloop, ⟨hap, hsame⟩, hfrom⟩ := loop_spec Inv (fun a => Inv a ∧ ∀ q ∈ a, stop ≤ q.1)
    (fun a => a.countIn 0 stop) hturn (m.size + 1) m ⟨h, fun _ _ => rfl⟩
    (Nat.lt_succ_of_le (m.countIn_le_size 0 stop))
  refine ⟨m', hloop, hap, ?_⟩
  funext i
  rw [Flat.forget]
  split_ifs with hi
  · refine cell_eq_none hap (fun q hq hqi => ?_)
    have := hfrom q hq
    omega
  · exact hsame i (by omega)

/-! ## The operations -/

variable (h : s.WellFormed)
include h

theorem push_spec (bytes : Bytes) (hfree : ∀ i, s.head + s.length ≤ i → cell s.blocks i = none) :
    (s.push bytes).2.WellFormed ∧ (s.push bytes).1 = bytes.length ∧ (s.push bytes).2.abs =
        ⟨Flat.overwrite (cell s.blocks) (s.head + s.length) bytes, s.head, s.length + bytes.length⟩ := by
  unfold push
  by_cases hne : bytes.length ≠ 0
  · rw [if_pos hne]
    have hb : bytes ≠ [] := fun he => hne (by rw [he]; rfl)
    have hclear : Clear s.blocks (s.head + s.length) (s.head + s.length + bytes.length) := by
      intro q hq
      refine .inl ?_
      by_contra hlt
      have hpos := h.apart.length_pos hq
      have hc := cell_of_mem h.apart hq (i := q.2.length - 1) (by omega)
      rw [hfree _ (by omega), getElem?_eq_getElem (by omega)] at hc
      cases hc
    have hcell : cell (s.blocks.insert (s.head + s.length) bytes)
        = Flat.overwrite (cell s.blocks) (s.head + s.length) bytes := by
      funext i
      rw [cell_put h.apart hb hclear, Flat.overwrite]
    refine ⟨wellFormed_iff.2 ⟨h.apart.put hb hclear, fun i hi => ?_, fun i h1 h2 => ?_⟩, rfl, ?_⟩
    · simp only at hi
      rw [hcell, Flat.overwrite, if_neg (by omega)]
      exact h.below hi
    · simp only at h1 h2
      rw [hcell, Flat.overwrite]
      split_ifs with hin
      · rw [getElem?_eq_getElem (by omega)]
        exact Option.some_ne_none _
      · exact h.stored h1 (by omega)
    · simp only [abs, hcell]
  · rw [if_neg hne]
    have hb : bytes = [] := length_eq_zero_iff.1 (by omega)
    subst hb
    refine ⟨h, rfl, ?_⟩
    have hover : Flat.overwrite (cell s.blocks) (s.head + s.length) [] = cell s.blocks := by
      funext i
      rw [Flat.overwrite, if_neg (by simp only [length_nil]; omega)]
    simp only [abs, hover, length_nil, add_zero]

theorem WellFormed.forget {count : Nat} (hc : count ≤ s.length) (s' : Storage)
    (hap : Apart s'.blocks) (hcell : cell s'.blocks = Flat.forget (cell s.blocks) (s.head + count))
    (hhead : s'.head = s.head + count) (hlength : s'.length = s.length - count) :
    s'.WellFormed ∧ s'.abs = s.abs.consume count := by
  refine ⟨wellFormed_iff.2 ⟨hap, fun i hi => ?_, fun i h1 h2 => ?_⟩, ?_⟩
  · rw [hcell, Flat.forget, if_pos (by omega)]
  · rw [hcell, Flat.forget, if_neg (by omega)]
    exact h.stored (by omega) (by omega)
  · simp only [abs, Flat.consume, hcell, hhead, hlength]

theorem take_spec : (s.length = 0 ∧ s.take = some (none, s)) ∨
      ∃ d s', s.take = some (some d, s') ∧ s'.WellFormed ∧ d ≠ [] ∧ d.length ≤ s.length ∧
        s.abs.Reads s.head d ∧ s'.abs = s.abs.consume d.length := by
  unfold take
  by_cases h0 : s.length = 0
  · exact .inl ⟨h0, by rw [if_pos h0]⟩
  · right
    rw [if_neg h0]
    -- the first block begins at the head, because the head is covered
    obtain ⟨q, hq, _, _⟩ := h.covered s.head le_rfl (by omega)
    cases hf : s.blocks.first? with
    | none => exact absurd hq (OrdMap.first?_none hf q)
    | some p =>
      obtain ⟨start, bytes⟩ := p
      obtain ⟨hmem, hmin⟩ := OrdMap.first?_some hf
      have h1 := h.fromHead _ hmem
      have h2 := hmin q hq
      simp only at h1 h2 ⊢
      have hstart : start = s.head := by omega
      subst hstart
      simp only [ne_eq, not_true_eq_false, if_false]
      have hpos := h.apart.length_pos hmem
      simp only at hpos
      have hcount : 0 < min bytes.length s.length := by omega
      have hblocks : (if min bytes.length s.length < bytes.length then
          (s.blocks.erase s.head).insert (s.head + min bytes.length s.length) (bytes.drop (min bytes.length s.length))
          else s.blocks.erase s.head) = keepTail (s.blocks.erase s.head) s.head bytes (s.head + min bytes.length s.length) := by
        unfold keepTail
        rw [show s.head + min bytes.length s.length - s.head = min bytes.length s.length by omega]
        by_cases hc : min bytes.length s.length < bytes.length
        · rw [if_pos hc, if_pos (by omega)]
        · rw [if_neg hc, if_neg (by omega)]
      rw [hblocks]
      have hlt : s.head < s.head + min bytes.length s.length := by omega
      have hlen : (bytes.take (min bytes.length s.length)).length = min bytes.length s.length := by
        rw [length_take]; omega
      have hforget : cell (keepTail (s.blocks.erase s.head) s.head bytes (s.head + min bytes.length s.length))
          = Flat.forget (cell s.blocks) (s.head + min bytes.length s.length) := by
        funext i
        rw [cell_cut h.apart hmem hlt, Flat.forget]
        by_cases hi : i < s.head + min bytes.length s.length
        · rw [if_pos hi]
          split_ifs with hin
          · rfl
          · exact h.below (by omega)
        · rw [if_neg hi, if_neg (by omega)]
      have hwf := WellFormed.forget h (min_le_right bytes.length s.length)
        ({ s with
          blocks := keepTail (s.blocks.erase s.head) s.head bytes (s.head + min bytes.length s.length)
          head := s.head + min bytes.length s.length
          length := s.length - min bytes.length s.length })
        (h.apart.cut hmem hlt) hforget rfl rfl
      refine ⟨_, _, rfl, hwf.1, ?_, by omega, fun i hi => ?_, ?_⟩
      · intro he
        rw [he] at hlen
        simp only [length_nil] at hlen
        omega
      · rw [hlen] at hi
        rw [abs_bytes, getElem?_take, if_pos hi]
        exact cell_of_mem h.apart hmem (i := i) (by simp only; omega)
      · rw [hlen]
        exact hwf.2

theorem writeUnallocated_spec (offset : Nat) (data : Bytes) :
    ∃ s', s.writeUnallocated offset data = some s' ∧ s'.WellFormed ∧
      s'.abs = ⟨Flat.overwrite (cell s.blocks) (s.head + s.length + offset) data, s.head, s.length⟩ := by
  unfold writeUnallocated
  by_cases hne : data.length ≠ 0
  · rw [if_pos hne]
    obtain ⟨_, hins, hap, hcell⟩ :=
      insert_spec h.apart (s.head + s.length + offset) (fun he => hne (by rw [he]; rfl) : data ≠ [])
    refine ⟨_, hins, wellFormed_iff.2 ⟨hap, fun i hi => ?_, fun i h1 h2 => ?_⟩, ?_⟩
    · simp only at hi
      rw [hcell, Flat.overwrite, if_neg (by omega)]
      exact h.below hi
    · simp only at h1 h2
      rw [hcell, Flat.overwrite, if_neg (by omega)]
      exact h.stored h1 h2
    · simp only [abs, hcell]
  · rw [if_neg hne]
    have hb : data = [] := length_eq_zero_iff.1 (by omega)
    subst hb
    refine ⟨s, rfl, h, ?_⟩
    have hover : Flat.overwrite (cell s.blocks) (s.head + s.length + offset) [] = cell s.blocks := by
      funext i
      rw [Flat.overwrite, if_neg (by simp only [length_nil]; omega)]
    simp only [abs, hover]

theorem enqueueUnallocated_spec (count : Nat)
    (hw : ∀ i, s.head + s.length ≤ i → i < s.head + s.length + count → cell s.blocks i ≠ none) :
    (s.enqueueUnallocated count).WellFormed := by
  refine wellFormed_iff.2 ⟨h.apart, fun i hi => h.below hi, fun i h1 h2 => ?_⟩
  simp only [enqueueUnallocated] at h1 h2 ⊢
  by_cases hi : i < s.head + s.length
  · exact h.stored h1 hi
  · exact hw i (by omega) (by omega)

theorem dequeueAllocated_spec {count : Nat} (hc : count ≤ s.length) :
    ∃ s', s.dequeueAllocated count = some s' ∧ s'.WellFormed ∧ s'.abs = s.abs.consume count := by
  obtain ⟨_, hloop, hap, hcell⟩ := drop_spec h.apart (s.head + count)
  refine ⟨_, by rw [dequeueAllocated, if_neg (by omega)]; simp only [hloop]; rfl, ?_⟩
  exact WellFormed.forget h hc _ hap hcell rfl rfl

theorem clear_spec : ∃ s', s.clear = some s' ∧ s'.WellFormed ∧ s'.abs = Flat.empty := by
  have hempty : ∀ s : Storage, ({ s with blocks := .empty, head := 0, length := 0 } : Storage).WellFormed ∧
      ({ s with blocks := .empty, head := 0, length := 0 } : Storage).abs = Flat.empty := by
    intro s
    exact ⟨⟨Apart.empty, fun q hq => absurd hq (OrdMap.not_mem_empty q), fun i h1 h2 => by
      simp only at h1 h2; omega⟩, new_abs 0 false 0 0⟩
  unfold clear
  cases htx : s.tx with
  | false => exact ⟨_, rfl, hempty _⟩
  | true =>
    obtain ⟨_, hs', -, -⟩ := dequeueAllocated_spec h (Nat.le_refl s.length)
    simp only [if_true, hs']
    exact ⟨_, rfl, hempty _⟩

omit h

end Storage

end Kotoconn.Tun.TcpStorage
