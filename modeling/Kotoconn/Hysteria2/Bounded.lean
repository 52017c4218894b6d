import Kotoconn.Hysteria2.Reassembly

/-! # The reassembly stays bounded -/

namespace Kotoconn.Hysteria2

open Lib Protocol List Option Table AList

structure Pending.Partial (p : Pending) : Prop where
  received_eq : p.received = p.fragments.countP Option.isSome
  received_lt : p.received < p.fragments.length
  bytes_eq : p.bytes = weigh List.length p.fragments
  bytes_le : p.bytes ≤ maxPayload

namespace Reassembly

structure Sound (s : Reassembly) : Prop where
  nodup : s.order.Nodup
  listed : ∀ k, k ∈ s.order ↔ k ∈ s.pending
  sorted : s.order.Pairwise fun a b => ∀ p q, s.pending.lookup a = some p → s.pending.lookup b = some q →
    p.created ≤ q.created
  total : s.bytes = Table.total Pending.bytes s.pending

variable {s s' : Reassembly} {key : Key} {p : Pending} {part : Fragment} {now : Nat}

theorem Sound.size (h : s.Sound) : s.pending.keys.length = s.order.length := by
  refine List.Perm.length_eq ((perm_ext_iff_of_nodup s.pending.keys_nodup h.nodup).2 fun k => ?_)
  exact AList.mem_keys.symm.trans (h.listed k).symm

theorem Sound.lookup_of_mem (h : s.Sound) (hk : key ∈ s.order) : ∃ p, s.pending.lookup key = some p :=
  isSome_iff_exists.1 (lookup_isSome.2 ((h.listed key).1 hk))

theorem empty_sound : empty.Sound :=
  ⟨nodup_nil, fun k => by simp [empty], List.Pairwise.nil, rfl⟩

/-! ## Removing -/

structure Reduces (s s' : Reassembly) : Prop where
  sound : s'.Sound
  kept : ∀ {k p}, s'.pending.lookup k = some p → s.pending.lookup k = some p
  order : s'.order.Sublist s.order
  bytes_le : s'.bytes ≤ s.bytes

theorem Sound.reduces (h : s.Sound) : Reduces s s := ⟨h, id, List.Sublist.refl _, le_rfl⟩

theorem Reduces.trans {s'' : Reassembly} (h : Reduces s s') (h' : Reduces s' s'') : Reduces s s'' :=
  ⟨h'.sound, fun hp => h.kept (h'.kept hp), h'.order.trans h.order, le_trans h'.bytes_le h.bytes_le⟩

variable (h : s.Sound)
include h

theorem remove_spec (hp : s.pending.lookup key = some p) :
    ∃ s', s.remove key = some (some p, s') ∧ Reduces s s' ∧ s'.pending = s.pending.erase key ∧
      s'.order = s.order.filter (· ≠ key) ∧ s'.bytes + p.bytes = s.bytes := by
  have htotal := h.total.trans (total_erase Pending.bytes hp)
  have hkept : ∀ {k q}, (s.pending.erase key).lookup k = some q → s.pending.lookup k = some q := fun hq =>
    (lookup_erase_iff.1 hq).2
  refine ⟨⟨s.pending.erase key, s.order.filter (· ≠ key), s.bytes - p.bytes⟩, ?_, ⟨⟨?_, fun k => ?_, ?_, ?_⟩, hkept,
    filter_sublist, Nat.sub_le _ _⟩, rfl, rfl, by simp only; omega⟩
  · rw [remove, hp]
    exact if_neg (by omega)
  · exact h.nodup.filter _
  · rw [mem_filter, AList.mem_erase, h.listed]
    simp [and_comm]
  · exact (h.sorted.filter _).imp fun hab p q hp hq => hab p q (hkept hp) (hkept hq)
  · simp only
    omega

theorem removeOldest_spec (hk : s.order.head? = some key) :
    ∃ s', s.removeOldest key = .again s' ∧ Reduces s s' ∧ s'.order.length < s.order.length := by
  have hmem := mem_of_head? hk
  obtain ⟨_, hp⟩ := h.lookup_of_mem hmem
  obtain ⟨s', hremove, hreduces, -, horder, -⟩ := remove_spec h hp
  refine ⟨s', by rw [removeOldest, hremove], hreduces, ?_⟩
  rw [horder]
  exact length_filter_lt_length_iff_exists.2 ⟨key, hmem, by simp⟩

theorem Sound.first_oldest (hk : s.order.head? = some key) (hp : s.pending.lookup key = some p) {k : Key}
    {q : Pending} (hq : s.pending.lookup k = some q) : p.created ≤ q.created := by
  have hmem : k ∈ s.order := (h.listed k).2 (lookup_isSome.1 (isSome_iff_exists.2 ⟨q, hq⟩))
  have hsorted := h.sorted
  obtain ⟨rest, hrest⟩ : ∃ rest, s.order = key :: rest := by
    cases horder : s.order with
    | nil => rw [horder] at hk; cases hk
    | cons _ rest => rw [horder] at hk; exact ⟨rest, by rw [some.inj hk]⟩
  rw [hrest] at hmem hsorted
  rcases mem_cons.1 hmem with rfl | hmem
  · rw [hp] at hq
    exact le_of_eq (congrArg Pending.created (some.inj hq))
  · exact rel_of_pairwise_cons hsorted hmem p q hp hq

theorem expire_spec (now : Nat) : ∃ s', s.expire now = some s' ∧ Reduces s s' ∧
    ∀ k p, s'.pending.lookup k = some p → now - p.created < fragmentRetention := by
  refine loop_spec (Reduces s) _ (fun s => s.order.length) (fun s' hs' => ?_) _ s h.reduces (lt_add_one _)
  unfold expireTurn
  cases hhead : s'.order.head? with
  | none =>
    refine .inl ⟨s', rfl, hs', fun k p hp => ?_⟩
    have hk := (hs'.sound.listed k).2 (lookup_isSome.1 (isSome_iff_exists.2 ⟨p, hp⟩))
    rw [head?_eq_none_iff.1 hhead] at hk
    exact absurd hk not_mem_nil
  | some =>
    simp only
    split_ifs with hfresh
    · -- the others are no older than the first
      obtain ⟨_, hp, hp'⟩ := (Option.any_eq_true _ _).1 hfresh
      refine .inl ⟨s', rfl, hs', fun k q hq => ?_⟩
      have := hs'.sound.first_oldest hhead hp hq
      have := of_decide_eq_true hp'
      omega
    · obtain ⟨s'', hturn, hreduces, hlt⟩ := removeOldest_spec hs'.sound hhead
      exact .inr ⟨s'', hturn, hs'.trans hreduces, hlt⟩

def Room (s : Reassembly) (part : Fragment) : Prop :=
  s.bytes + part.payload.length ≤ maxBuffered ∧ (part.key ∈ s.pending ∨ s.pending.keys.length < maxPending)

theorem evict_spec (part : Fragment) : ∃ s', s.evict part = some s' ∧ Reduces s s' ∧ s'.Room part := by
  refine loop_spec (Reduces s) _ (fun s => s.order.length) (fun s' hs' => ?_) _ s h.reduces (lt_add_one _)
  unfold evictTurn
  split_ifs with hfull
  · cases hhead : s'.order.head? with
    | none =>
      -- nothing is held, so the fragment alone fits
      have hnil := head?_eq_none_iff.1 hhead
      have hsize := hs'.sound.size
      rw [hnil] at hsize
      have hentries : s'.pending.entries = [] := by
        rw [← length_eq_zero_iff, ← length_map (f := Sigma.fst)]
        exact hsize
      have hbytes : s'.bytes = 0 := by
        rw [hs'.sound.total, Table.total, Table.values, hentries]
        rfl
      have hpart := part.payload_le
      refine .inl ⟨s', rfl, hs', ?_, .inr (by rw [hsize]; decide)⟩
      rw [hbytes, zero_add]
      exact le_trans hpart (by decide)
    | some =>
      obtain ⟨s'', hturn, hreduces, hlt⟩ := removeOldest_spec hs'.sound hhead
      exact .inr ⟨s'', hturn, hs'.trans hreduces, hlt⟩
  · rw [not_or, not_and_or, isNone_iff_eq_none, lookup_eq_none, not_not] at hfull
    exact .inl ⟨s', rfl, hs', by omega, hfull.2.imp id fun h => by omega⟩

/-! ## Storing -/

/-- The entry may be written back with the same creation time, and its bytes accounted for. -/
theorem Sound.put (hpast : ∀ k p, s.pending.lookup k = some p → p.created ≤ now) (part : Fragment)
    {q : Pending} (hcreated : q.created = (s.entry part now).1.created) {b : Nat}
    (hb : b + (s.entry part now).1.bytes = s.bytes + q.bytes) :
    Sound ⟨s.pending.insert part.key q, (s.entry part now).2, b⟩ := by
  unfold entry at *
  cases hlook : s.pending.lookup part.key with
  | some p =>
    simp only [hlook] at hcreated hb ⊢
    have hmem : part.key ∈ s.pending := lookup_isSome.1 (isSome_iff_exists.2 ⟨p, hlook⟩)
    have hold : ∀ {k r}, (s.pending.insert part.key q).lookup k = some r →
        ∃ r', s.pending.lookup k = some r' ∧ r'.created = r.created := by
      intro k r hr
      rcases lookup_insert_iff.1 hr with ⟨rfl, rfl⟩ | ⟨-, hr⟩
      · exact ⟨p, hlook, hcreated.symm⟩
      · exact ⟨r, hr, rfl⟩
    refine ⟨h.nodup, fun k => ?_, h.sorted.imp fun hab x y hx hy => ?_, ?_⟩
    · rw [AList.mem_insert, h.listed]
      exact ⟨.inr, fun hk => hk.elim (fun he => he ▸ hmem) id⟩
    · obtain ⟨x', hx', hxc⟩ := hold hx
      obtain ⟨y', hy', hyc⟩ := hold hy
      rw [← hxc, ← hyc]
      exact hab x' y' hx' hy'
    · have := h.total.trans (total_erase Pending.bytes hlook)
      change b = _
      rw [total_insert]
      omega
  | none =>
    simp only [hlook] at hcreated hb ⊢
    have hnew : ∀ {k}, k ∈ s.order → k ≠ part.key := fun hk he =>
      lookup_eq_none.1 hlook ((h.listed _).1 (he ▸ hk))
    refine ⟨?_, fun k => ?_, ?_, ?_⟩
    · exact nodup_append.2 ⟨h.nodup, nodup_singleton _, fun a ha b hb => by
        rw [mem_singleton.1 hb]; exact hnew ha⟩
    · rw [AList.mem_insert, mem_append, mem_singleton, h.listed, or_comm]
    · refine pairwise_append.2 ⟨?_, pairwise_singleton _ _, fun a ha b hb x y hx hy => ?_⟩
      · refine h.sorted.imp_of_mem fun {a b} ha hb hab x y hx hy => hab x y ?_ ?_
        · rwa [lookup_insert_ne (hnew ha)] at hx
        · rwa [lookup_insert_ne (hnew hb)] at hy
      · rw [mem_singleton.1 hb, lookup_insert] at hy
        rw [lookup_insert_ne (hnew ha)] at hx
        rw [← some.inj hy, hcreated]
        exact hpast a x hx
    · have := h.total
      change b = _
      rw [total_insert_vacant Pending.bytes hlook]
      simp only [Pending.new] at hb
      omega

omit h

/-- What holds after every call, made at `now`. -/
structure Bounded (s : Reassembly) (now : Nat) : Prop extends s.Sound where
  bytes_le : s.bytes ≤ maxBuffered
  pending_le : s.pending.keys.length ≤ maxPending
  incomplete : ∀ k p, s.pending.lookup k = some p → p.Partial
  fresh : ∀ k p, s.pending.lookup k = some p → p.created ≤ now ∧ now - p.created < fragmentRetention

theorem empty_bounded (now : Nat) : empty.Bounded now :=
  ⟨empty_sound, zero_le, zero_le, fun k p hp => by simp [empty] at hp, fun k p hp => by simp [empty] at hp⟩

theorem Bounded.reduces (h : s.Bounded now) (hr : Reduces s s') : s'.Bounded now where
  toSound := hr.sound
  bytes_le := le_trans hr.bytes_le h.bytes_le
  pending_le := by
    have := hr.order.length_le
    have := h.pending_le
    rw [h.size] at this
    rw [hr.sound.size]
    omega
  incomplete k p hp := h.incomplete k p (hr.kept hp)
  fresh k p hp := h.fresh k p (hr.kept hp)

end Reassembly

theorem Pending.new_partial (part : Fragment) (now : Nat) : (Pending.new part now).Partial := by
  have hpos : 0 < part.count.toNat := UInt8.lt_iff_toNat_lt.1 part.valid.1
  refine ⟨?_, ?_, ?_, zero_le⟩
  · simp [Pending.new, countP_isSome, weigh_replicate_none]
  · simpa [Pending.new] using hpos
  · simp [Pending.new, weigh_replicate_none]

end Kotoconn.Hysteria2
