import Kotoconn.Hysteria2.Bounded

/-! # Packets are never mixed -/

namespace Kotoconn.Hysteria2

open Lib Protocol List Table AList

abbrev History := List (Nat × Fragment)

/-- The fragment counts as one of the packet `key`; a packet of one fragment never waits. -/
def Fragment.Joins (f : Fragment) (key : Key) : Prop := f.key = key ∧ f.count ≠ 1

instance (f : Fragment) (key : Key) : Decidable (f.Joins key) := inferInstanceAs (Decidable (_ ∧ _))

namespace Reassembly

inductive Run : History → Reassembly → Nat → Prop
  | empty : Run [] empty 0
  | receive {hist : History} {s s' : Reassembly} {last now : Nat} {part : Fragment} {r : Outcome} : Run hist s last →
      last ≤ now → s.receive now part = some (r, s') → Run (hist ++ [(now, part)]) s' now

def Opens (s : Reassembly) (now : Nat) (part : Fragment) : Prop :=
  part.count ≠ 1 ∧ ∃ s₁ s₂, s.expire now = some s₁ ∧ s₁.conflicts part = false ∧ s₁.evict part = some s₂ ∧
    part.key ∉ s₂.pending

/-- `parts` are the fragments of the packet that came since its entry was created, at `created`. -/
def Since (hist : History) (key : Key) (created : Nat) (parts : List Fragment) : Prop :=
  ∃ (before : History) (s : Reassembly) (last : Nat) (opener : Fragment) (later : History),
    hist = before ++ (created, opener) :: later ∧ Run before s last ∧
    s.Opens created opener ∧ opener.key = key ∧
    parts = (((created, opener) :: later).map Prod.snd).filter fun f => f.Joins key

/-- The packet is the concatenation, in index order, of fragments that came since one entry was created. -/
def Assembled (hist : History) (part : Fragment) (session : UInt32) (packet : Packet) : Prop :=
  ∃ (created : Nat) (parts : List Fragment) (pieces : List Bytes), Since hist part.key created parts ∧
    (∀ f ∈ parts, f.session = session ∧ f.packet = part.packet ∧ f.target = packet.target ∧ f.count = part.count) ∧
    slotsOf part.count.toNat parts = pieces.map some ∧ packet.payload = pieces.flatten

variable {s s' : Reassembly} {key : Key} {part : Fragment} {now last created : Nat} {hist : History}
  {parts : List Fragment}

/-! ## Fragments since the creation -/

theorem Since.skip (h : Since hist key created parts) (hpart : ¬ part.Joins key) :
    Since (hist ++ [(now, part)]) key created parts := by
  obtain ⟨before, s, last, opener, later, rfl, hrun, hopens, hkey, rfl⟩ := h
  refine ⟨before, s, last, opener, later ++ [(now, part)], by simp, hrun, hopens, hkey, ?_⟩
  rw [← cons_append, map_append, filter_append]
  simp [hpart]

theorem Since.join (h : Since hist key created parts) (hpart : part.Joins key) :
    Since (hist ++ [(now, part)]) key created (parts ++ [part]) := by
  obtain ⟨before, s, last, opener, later, rfl, hrun, hopens, hkey, rfl⟩ := h
  refine ⟨before, s, last, opener, later ++ [(now, part)], by simp, hrun, hopens, hkey, ?_⟩
  rw [← cons_append, map_append, filter_append]
  simp [hpart]

theorem Opens.since (hrun : Run hist s last) (h : s.Opens now part) :
    Since (hist ++ [(now, part)]) part.key now [part] := by
  refine ⟨hist, s, last, part, [], rfl, hrun, h, rfl, ?_⟩
  have : part.Joins part.key := ⟨rfl, h.1⟩
  simp [this]

theorem Since.joins (h : Since hist key created parts) {f : Fragment} (hf : f ∈ parts) : f.Joins key := by
  obtain ⟨_, _, _, _, _, _, _, _, _, rfl⟩ := h
  exact of_decide_eq_true (mem_filter.1 hf).2

structure Holds (hist : History) (key : Key) (p : Pending) (parts : List Fragment) : Prop where
  since : Since hist key p.created parts
  same : ∀ f ∈ parts, f.target = p.target ∧ f.count.toNat = p.fragments.length
  slots : p.fragments = slotsOf p.fragments.length parts

def Traced (hist : History) (s : Reassembly) : Prop :=
  ∀ k p, s.pending.lookup k = some p → ∃ parts, Holds hist k p parts

theorem Traced.reduces (h : Traced hist s) (hr : Reduces s s') : Traced hist s' := fun k p hp => h k p (hr.kept hp)

theorem Traced.skip (h : Traced hist s) (hpart : ∀ k ∈ s.pending, ¬ part.Joins k) :
    Traced (hist ++ [(now, part)]) s := by
  intro k p hp
  obtain ⟨parts, hholds⟩ := h k p hp
  have hk : k ∈ s.pending := lookup_isSome.1 (Option.isSome_iff_exists.2 ⟨p, hp⟩)
  exact ⟨parts, hholds.since.skip (hpart k hk), hholds.same, hholds.slots⟩

/-! ## The entry of a fragment -/

/-- The entry `p` that the fragment `part` finds or begins, with the fragments before it. -/
structure Entered (hist : History) (part : Fragment) (now : Nat) (p : Pending) (parts : List Fragment) : Prop where
  partial_ : p.Partial
  fresh : p.created ≤ now ∧ now - p.created < fragmentRetention
  target : p.target = part.target
  length : p.fragments.length = part.count.toNat
  since : Since hist part.key p.created (parts ++ [part])
  same : ∀ f ∈ parts, f.target = part.target ∧ f.count = part.count
  slots : p.fragments = slotsOf part.count.toNat parts

theorem entry_spec (hb : s.Bounded now) (ht : Traced hist s) (hcount : part.count ≠ 1)
    (hmatch : ∀ p, s.pending.lookup part.key = some p → p.target = part.target ∧ p.fragments.length = part.count.toNat)
    (hopen : part.key ∉ s.pending → Since (hist ++ [(now, part)]) part.key now [part]) :
    ∃ parts, Entered (hist ++ [(now, part)]) part now (s.entry part now).1 parts := by
  unfold entry
  cases hlook : s.pending.lookup part.key with
  | some p =>
    obtain ⟨parts, hholds⟩ := ht _ p hlook
    obtain ⟨htarget, hlength⟩ := hmatch p hlook
    refine ⟨parts, hb.incomplete _ p hlook, hb.fresh _ p hlook, htarget, hlength, hholds.since.join ⟨rfl, hcount⟩,
      fun f hf => ?_, by rw [← hlength]; exact hholds.slots⟩
    obtain ⟨h1, h2⟩ := hholds.same f hf
    exact ⟨h1.trans htarget, UInt8.toNat_inj.1 (h2.trans hlength)⟩
  | none =>
    refine ⟨[], Pending.new_partial part now, ⟨le_rfl, ?_⟩, rfl, length_replicate,
      hopen (lookup_eq_none.1 hlook), fun f hf => absurd hf not_mem_nil, firstAt_nil.symm⟩
    simp only [Pending.new, Nat.sub_self]
    decide

variable {p : Pending}

variable (h : Entered hist part now p parts)
include h

theorem Entered.slot (hcount : part.count ≠ 1) :
    ∃ slot, p.fragments[part.index.toNat]? = some slot := by
  have hlt : part.index.toNat < p.fragments.length := by
    rw [h.length]
    exact UInt8.lt_iff_toNat_lt.1 (part.valid.2.resolve_left hcount)
  exact ⟨_, getElem?_eq_getElem hlt⟩

theorem Entered.same_snoc :
    ∀ f ∈ parts ++ [part], f.target = part.target ∧ f.count = part.count := by
  intro f hf
  rcases mem_append.1 hf with hf | hf
  · exact h.same f hf
  · rw [mem_singleton.1 hf]
    exact ⟨rfl, rfl⟩

theorem Entered.repeated {b : Bytes}
    (hslot : p.fragments[part.index.toNat]? = some (some b)) : Holds hist part.key p (parts ++ [part]) := by
  refine ⟨h.since, fun f hf => ?_, ?_⟩
  · rw [h.target, h.length, (h.same_snoc f hf).2]
    exact ⟨(h.same_snoc f hf).1, rfl⟩
  · rw [h.length]
    rw [h.slots] at hslot
    rw [slotsOf, firstAt_filled hslot]
    exact h.slots

theorem Entered.fill_slots (hslot : p.fragments[part.index.toNat]? = some none) :
    (p.fill part).fragments = slotsOf part.count.toNat (parts ++ [part]) := by
  rw [h.slots] at hslot
  rw [slotsOf, firstAt_vacant hslot, Pending.fill, h.slots]

theorem Entered.filled (hslot : p.fragments[part.index.toNat]? = some none) :
    Holds hist part.key (p.fill part) (parts ++ [part]) := by
  have hlength : (p.fill part).fragments.length = part.count.toNat := by
    rw [Pending.fill, length_set, h.length]
  refine ⟨h.since, fun f hf => ?_, ?_⟩
  · rw [hlength, (h.same_snoc f hf).2]
    exact ⟨(h.same_snoc f hf).1.trans h.target.symm, rfl⟩
  · rw [hlength]
    exact h.fill_slots hslot

omit h

end Reassembly

theorem Pending.fill_counters {p : Pending} {part : Fragment} (h : p.Partial)
    (hslot : p.fragments[part.index.toNat]? = some none) :
    (p.fill part).received = (p.fill part).fragments.countP Option.isSome ∧
      (p.fill part).bytes = weigh List.length (p.fill part).fragments := by
  simp only [Pending.fill]
  rw [countP_isSome, weigh_set hslot, weigh_set hslot, ← countP_isSome, h.received_eq, h.bytes_eq]
  exact ⟨rfl, rfl⟩

namespace Reassembly

variable {s s' : Reassembly} {key : Key} {part : Fragment} {now last : Nat} {hist : History} {parts : List Fragment}
  {p q : Pending}

/-! ## One call -/

def Received (hist : History) (part : Fragment) (now : Nat) (call : Option (Outcome × Reassembly)) : Prop :=
  ∃ r s', call = some (r, s') ∧ s'.Bounded now ∧ Traced hist s' ∧
    ∀ session packet, r = .ok (some (session, packet)) → part.count ≠ 1 → Assembled hist part session packet

theorem Bounded.put (h : s.Bounded now) (hroom : s.Room part) (hcreated : q.created = (s.entry part now).1.created)
    {b : Nat} (hb : b + (s.entry part now).1.bytes = s.bytes + q.bytes) (hle : b ≤ s.bytes + part.payload.length) :
    Sound ⟨s.pending.insert part.key q, (s.entry part now).2, b⟩ ∧ b ≤ maxBuffered ∧
      (s.entry part now).2.length ≤ maxPending := by
  refine ⟨h.toSound.put (fun k p hp => (h.fresh k p hp).1) part hcreated hb, le_trans hle hroom.1, ?_⟩
  have hsize := h.size
  have hpending := h.pending_le
  unfold entry
  cases hlook : s.pending.lookup part.key with
  | some => simp only; omega
  | none =>
    have := hroom.2.resolve_left (lookup_eq_none.1 hlook)
    simp only [length_append, length_singleton]
    omega

theorem Traced.insert (h : Traced hist s) (hq : Holds (hist ++ [(now, part)]) part.key q parts) {order : List Key}
    {b : Nat} : Traced (hist ++ [(now, part)]) ⟨s.pending.insert part.key q, order, b⟩ := by
  intro k p hp
  rcases lookup_insert_iff.1 hp with ⟨rfl, rfl⟩ | ⟨hne, hp⟩
  · exact ⟨parts, hq⟩
  · obtain ⟨parts', hholds⟩ := h k p hp
    exact ⟨parts', hholds.since.skip fun hj => hne hj.1.symm, hholds.same, hholds.slots⟩

theorem Bounded.insert (h : s.Bounded now) {order : List Key} {b : Nat}
    (hsound : Sound ⟨s.pending.insert part.key q, order, b⟩) (hb : b ≤ maxBuffered) (horder : order.length ≤ maxPending)
    (hq : q.Partial) (hfresh : q.created ≤ now ∧ now - q.created < fragmentRetention) :
    Bounded ⟨s.pending.insert part.key q, order, b⟩ now := by
  refine ⟨hsound, hb, by rw [hsound.size]; exact horder, fun k p hp => ?_, fun k p hp => ?_⟩
  · rcases lookup_insert_iff.1 hp with ⟨rfl, rfl⟩ | ⟨-, hp⟩
    · exact hq
    · exact h.incomplete k p hp
  · rcases lookup_insert_iff.1 hp with ⟨rfl, rfl⟩ | ⟨-, hp⟩
    · exact hfresh
    · exact h.fresh k p hp

theorem removed_spec (h : s.Bounded now) (ht : Traced hist s) {order : List Key} {b : Nat}
    (hsound : Sound ⟨s.pending.insert part.key q, order, b⟩) (hb : b ≤ maxBuffered) (horder : order.length ≤ maxPending) :
    ∃ s', remove ⟨s.pending.insert part.key q, order, b⟩ part.key = some (some q, s') ∧ s'.Bounded now ∧
      Traced (hist ++ [(now, part)]) s' := by
  obtain ⟨s', hremove, hreduces, hpending, -, -⟩ := remove_spec hsound (lookup_insert _)
  have hkept : ∀ {k p}, s'.pending.lookup k = some p → k ≠ part.key ∧ s.pending.lookup k = some p := by
    intro k p hp
    rw [hpending] at hp
    obtain ⟨hne, hp⟩ := lookup_erase_iff.1 hp
    exact ⟨hne, by rwa [lookup_insert_ne hne] at hp⟩
  refine ⟨s', hremove, ⟨hreduces.sound, le_trans hreduces.bytes_le hb, ?_, fun k p hp => ?_, fun k p hp => ?_⟩,
    fun k p hp => ?_⟩
  · rw [hreduces.sound.size]
    exact le_trans hreduces.order.length_le horder
  · exact h.incomplete k p (hkept hp).2
  · exact h.fresh k p (hkept hp).2
  · obtain ⟨hne, hp⟩ := hkept hp
    obtain ⟨parts, hholds⟩ := ht k p hp
    exact ⟨parts, hholds.since.skip fun hj => hne hj.1.symm, hholds.same, hholds.slots⟩

theorem store_spec (hb : s.Bounded now) (ht : Traced hist s) (hroom : s.Room part) (hcount : part.count ≠ 1)
    (he : Entered (hist ++ [(now, part)]) part now (s.entry part now).1 parts) :
    Received (hist ++ [(now, part)]) part now (s.store part now) := by
  obtain ⟨slot, hslot⟩ := he.slot hcount
  unfold store
  simp only [hslot]
  cases slot with
  | some =>
    obtain ⟨hsound, hbytes, hsize⟩ := hb.put hroom rfl rfl le_self_add
    exact ⟨_, _, rfl, hb.insert hsound hbytes hsize he.partial_ he.fresh, ht.insert (he.repeated hslot),
      fun _ _ hr => by cases hr⟩
  | none =>
    obtain ⟨hreceived, hfill⟩ := Pending.fill_counters he.partial_ hslot
    obtain ⟨hsound, hbytes, hsize⟩ := hb.put (q := (s.entry part now).1.fill part) hroom rfl
      (b := s.bytes + part.payload.length) (by simp only [Pending.fill]; omega) le_rfl
    obtain ⟨s', hremove, hbounded, htraced⟩ := removed_spec hb ht hsound hbytes hsize
    simp only [settle]
    split_ifs with hover hmissing
    · exact ⟨_, s', by rw [hremove]; rfl, hbounded, htraced, fun _ _ hr => by cases hr⟩
    · refine ⟨_, _, rfl, hb.insert hsound hbytes hsize ⟨hreceived, ?_, hfill, not_lt.1 hover⟩ he.fresh,
        ht.insert (he.filled hslot), fun _ _ hr => by cases hr⟩
      have := countP_le_length (p := Option.isSome) (l := ((s.entry part now).1.fill part).fragments)
      omega
    · obtain ⟨pieces, hpieces⟩ := exists_allFilled (by rw [← hreceived]; exact not_not.1 hmissing)
      refine ⟨_, s', by simp only [complete, hremove, hpieces]; rfl, hbounded, htraced, fun session packet hr _ => ?_⟩
      obtain ⟨rfl, rfl⟩ : part.session = session ∧ (⟨(s.entry part now).1.target, pieces.flatten⟩ : Packet) = packet := by
        simpa [Pending.fill, Fragment.key] using hr
      refine ⟨_, _, pieces, he.since, fun f hf => ?_, ?_, rfl⟩
      · have hkey := (he.since.joins hf).1
        have hsame := he.same_snoc f hf
        exact ⟨congrArg Prod.fst hkey, congrArg Prod.snd hkey, hsame.1.trans he.target.symm, hsame.2⟩
      · rw [← he.fill_slots hslot]
        exact allFilled_eq_some.1 hpieces

/-- **One call**: it returns, keeps the limits, and a packet it hands out was collected by one entry. -/
theorem receive_spec (hrun : Run hist s last) (hb : s.Bounded last) (ht : Traced hist s) (hnow : last ≤ now)
    (part : Fragment) : Received (hist ++ [(now, part)]) part now (s.receive now part) := by
  obtain ⟨s₁, hexpire, hr₁, hfresh⟩ := expire_spec hb.toSound now
  have hb₁ : s₁.Bounded now := by
    refine ⟨hr₁.sound, (hb.reduces hr₁).bytes_le, (hb.reduces hr₁).pending_le, (hb.reduces hr₁).incomplete,
      fun k p hp => ⟨?_, hfresh k p hp⟩⟩
    have := (hb.fresh k p (hr₁.kept hp)).1
    omega
  have ht₁ := ht.reduces hr₁
  unfold receive
  simp only [hexpire]
  split_ifs with hone
  · exact ⟨_, s₁, rfl, hb₁, ht₁.skip fun k _ hj => hj.2 hone, fun _ _ _ hne => absurd hone hne⟩
  · unfold accept
    split_ifs with hconflict
    · -- the entry goes, with the fragment
      obtain ⟨p, hp, -⟩ := (Option.any_eq_true _ _).1 hconflict
      obtain ⟨s', hremove, hreduces, hpending, -, -⟩ := remove_spec hb₁.toSound hp
      refine ⟨_, s', by rw [hremove]; rfl, hb₁.reduces hreduces, (ht₁.reduces hreduces).skip fun k hk hj => ?_,
        fun _ _ hr => by cases hr⟩
      rw [hpending, AList.mem_erase] at hk
      exact hk.1 hj.1.symm
    · obtain ⟨s₂, hevict, hr₂, hroom⟩ := evict_spec hb₁.toSound part
      have hb₂ := hb₁.reduces hr₂
      have hmatch : ∀ p, s₂.pending.lookup part.key = some p →
          p.target = part.target ∧ p.fragments.length = part.count.toNat := by
        intro p hp
        by_contra hne
        exact hconflict ((Option.any_eq_true _ _).2 ⟨p, hr₂.kept hp, decide_eq_true (not_and_or.1 hne)⟩)
      obtain ⟨_, hentered⟩ := entry_spec hb₂ (ht₁.reduces hr₂) hone hmatch fun hnew =>
        Opens.since hrun ⟨hone, s₁, s₂, hexpire, by simpa using hconflict, hevict, hnew⟩
      simp only [hevict]
      exact store_spec hb₂ (ht₁.reduces hr₂) hroom hone hentered

theorem Run.spec (h : Run hist s last) : s.Bounded last ∧ Traced hist s := by
  induction h with
  | empty => exact ⟨empty_bounded 0, fun k p hp => by simp [Reassembly.empty] at hp⟩
  | receive hrun hnow hcall ih =>
    obtain ⟨_, _, heq, hbounded, htraced, -⟩ := receive_spec hrun ih.1 ih.2 hnow _
    rw [hcall] at heq
    obtain ⟨-, rfl⟩ := Prod.mk.inj (Option.some.inj heq)
    exact ⟨hbounded, htraced⟩

/-- **The reassembly stays bounded and never mixes packets**: from every state that calls at non-decreasing times reach,
the next call returns, the limits hold after it, and a packet of several fragments that it hands out is the
concatenation in index order of what came since its entry was created, all of one session, packet, target and count. -/
theorem reassembly_bounded (h : Run hist s last) (hnow : last ≤ now) (part : Fragment) :
    s.Bounded last ∧ ∃ r s', s.receive now part = some (r, s') ∧ s'.Bounded now ∧
      ∀ session packet, r = .ok (some (session, packet)) → part.count ≠ 1 →
        Assembled (hist ++ [(now, part)]) part session packet := by
  obtain ⟨r, s', hcall, hbounded, -, hassembled⟩ := receive_spec h h.spec.1 h.spec.2 hnow part
  exact ⟨h.spec.1, r, s', hcall, hbounded, hassembled⟩

def half (index : UInt8) (h : index < 2) : Fragment :=
  ⟨1, 2, index, 2, .domain "a" 53, [index], ⟨by decide, .inr h⟩, (by decide : 1 ≤ maxPayload)⟩

theorem reassembly_bounded_halves : ∃ s, Run [(0, half 1 (by decide))] s 0 ∧
    (s.receive 5 (half 0 (by decide))).map Prod.fst = some (.ok (some (1, ⟨.domain "a" 53, [0, 1]⟩))) ∧
    s.Bounded 0 ∧ ∃ r s', s.receive 5 (half 0 (by decide)) = some (r, s') ∧ s'.Bounded 5 ∧
      ∀ session packet, r = .ok (some (session, packet)) → (half 0 (by decide)).count ≠ 1 →
        Assembled ([(0, half 1 (by decide))] ++ [(5, half 0 (by decide))]) (half 0 (by decide)) session packet := by
  have hrun : Run [(0, half 1 (by decide))] _ 0 := .receive (r := .ok none) .empty le_rfl rfl
  exact ⟨_, hrun, rfl, reassembly_bounded hrun (by decide) (half 0 (by decide))⟩

end Reassembly

end Kotoconn.Hysteria2
