import Kotoconn.Hysteria2.History

/-!
# What a fragment does to its own packet

`progress_iff`: when a fragment brings its packet on; `progress_lost`: a run where it does not.
-/

namespace Kotoconn.Hysteria2

open Lib Protocol List Option AList

namespace Reassembly

variable {s s' : Reassembly} {key : Key} {part : Fragment} {now last : Nat} {hist : History} {p : Pending} {r : Outcome}

/-! ## Making room -/

def bytesAt (s : Reassembly) (key : Key) : Nat := (s.pending.lookup key).elim 0 Pending.bytes

def heldFrom (s : Reassembly) (key : Key) : Nat := ((s.order.dropWhile (· ≠ key)).map s.bytesAt).sum

theorem Sound.bytes_eq (h : s.Sound) : s.bytes = (s.order.map s.bytesAt).sum := by
  have hperm : s.order.Perm s.pending.keys := (perm_ext_iff_of_nodup h.nodup s.pending.keys_nodup).2 fun k =>
    (h.listed k).trans AList.mem_keys
  rw [h.total, (hperm.map s.bytesAt).sum_eq, Table.total, Table.values]
  have hkeys : s.pending.keys = s.pending.entries.map Sigma.fst := rfl
  rw [hkeys, List.map_map, List.map_map]
  refine congrArg List.sum (map_congr_left fun e he => ?_)
  have hlook : s.pending.lookup e.1 = some e.2 := Table.lookup_eq_some_iff.2 he
  rw [Function.comp_apply, Function.comp_apply, bytesAt, hlook]
  rfl

theorem Sound.heldFrom_le (h : s.Sound) (key : Key) : s.heldFrom key ≤ s.bytes := by
  rw [h.bytes_eq, heldFrom]
  exact ((dropWhile_sublist _).map s.bytesAt).sum_le_sum fun _ _ => zero_le

theorem Sound.heldFrom_head (h : s.Sound) (hhead : s.order.head? = some key) : s.heldFrom key = s.bytes := by
  rw [h.bytes_eq, heldFrom]
  obtain ⟨_, hrest⟩ := head?_eq_some_iff.1 hhead
  rw [hrest, dropWhile_cons_of_neg (by simp)]

theorem heldFrom_remove (h : s.Sound) {oldest : Key} (hhead : s.order.head? = some oldest) (hne : oldest ≠ key)
    (hpending : s'.pending = s.pending.erase oldest) (horder : s'.order = s.order.filter (· ≠ oldest)) :
    s'.heldFrom key = s.heldFrom key := by
  obtain ⟨rest, hrest⟩ := head?_eq_some_iff.1 hhead
  have hnodup := h.nodup
  rw [hrest, nodup_cons] at hnodup
  have hfilter : s.order.filter (· ≠ oldest) = rest := by
    rw [hrest, filter_cons_of_neg (by simp), filter_eq_self]
    exact fun k hk => decide_eq_true fun heq => hnodup.1 (heq ▸ hk)
  rw [heldFrom, heldFrom, horder, hfilter, hrest, dropWhile_cons_of_pos (by simpa using hne)]
  refine congrArg List.sum (map_congr_left fun k hk => ?_)
  have hk : k ≠ oldest := fun heq => hnodup.1 (heq ▸ (dropWhile_sublist _).subset hk)
  rw [bytesAt, bytesAt, hpending, lookup_erase_ne hk]

/-- **Room for a fragment**: its packet stays exactly if it and the packets begun later leave room. -/
theorem evict_own (h : s.Sound) (hp : s.pending.lookup part.key = some p) : ∃ s', s.evict part = some s' ∧
    Reduces s s' ∧ s'.Room part ∧
    (part.key ∈ s'.pending ↔ s.heldFrom part.key + part.payload.length ≤ maxBuffered) := by
  have hmem : part.key ∈ s.pending := lookup_isSome.1 (isSome_iff_exists.2 ⟨p, hp⟩)
  -- the packets that are older go first
  have hloop := @loop_spec _ _ (evictTurn part)
    (fun s' => Reduces s s' ∧ (part.key ∈ s'.pending → s'.heldFrom part.key = s.heldFrom part.key) ∧
      (s.heldFrom part.key + part.payload.length ≤ maxBuffered → part.key ∈ s'.pending))
    (fun s' => Reduces s s' ∧ (part.key ∈ s'.pending → s'.heldFrom part.key = s.heldFrom part.key) ∧
      (s.heldFrom part.key + part.payload.length ≤ maxBuffered → part.key ∈ s'.pending)) (fun s => s.order.length)
    ?_ (s.order.length + 1) s ⟨h.reduces, fun _ => rfl, fun _ => hmem⟩ (lt_add_one _)
  · obtain ⟨s', hevict, hreduces, hheld, hkeeps⟩ := hloop
    obtain ⟨s'', hevict', -, hroom⟩ := evict_spec h part
    obtain rfl := some.inj (hevict.symm.trans hevict')
    refine ⟨s', hevict, hreduces, hroom, fun hin => ?_, hkeeps⟩
    rw [← hheld hin]
    exact le_trans (Nat.add_le_add_right (hreduces.sound.heldFrom_le _) _) hroom.1
  · rintro s' ⟨hreduces, hheld, hkeeps⟩
    unfold evictTurn
    split_ifs with hfull
    · cases hhead : s'.order.head? with
      | none => exact .inl ⟨s', rfl, hreduces, hheld, hkeeps⟩
      | some oldest =>
        obtain ⟨_, hq⟩ := hreduces.sound.lookup_of_mem (mem_of_head? hhead)
        obtain ⟨s'', hremove, hreduces', hpending, horder, -⟩ := remove_spec hreduces.sound hq
        obtain ⟨s₃, hturn, -, hlt⟩ := removeOldest_spec hreduces.sound hhead
        have hsame : s₃ = s'' := by
          rw [removeOldest, hremove] at hturn
          exact (Turn.again.inj hturn).symm
        subst hsame
        refine .inr ⟨s₃, hturn, ⟨hreduces.trans hreduces', fun hin => ?_, fun hfits => ?_⟩, hlt⟩
        · rw [hpending, AList.mem_erase] at hin
          rw [heldFrom_remove hreduces.sound hhead (Ne.symm hin.1) hpending horder]
          exact hheld hin.2
        · have hin := hkeeps hfits
          rw [hpending, AList.mem_erase]
          refine ⟨fun heq => ?_, hin⟩
          -- its own packet is the oldest only if all that is held leaves room
          have hall := hreduces.sound.heldFrom_head (heq ▸ hhead)
          rw [hheld hin] at hall
          rcases hfull with hfull | ⟨hnone, -⟩
          · omega
          · rw [isNone_iff_eq_none] at hnone
            exact lookup_eq_none.1 hnone hin
    · exact .inl ⟨s', rfl, hreduces, hheld, hkeeps⟩

theorem evict_idle (hfits : s.bytes + part.payload.length ≤ maxBuffered) (hin : part.key ∈ s.pending) :
    s.evict part = some s := by
  refine loop_done ?_
  have hsome : (s.pending.lookup part.key).isNone = false := by
    rw [isNone_eq_false_iff]
    exact lookup_isSome.2 hin
  rw [evictTurn, if_neg]
  rw [hsome]
  rintro (hfull | ⟨hnone, -⟩)
  · omega
  · cases hnone

/-! ## Progress -/

structure Same (s s' : Reassembly) : Prop where
  lookup : ∀ k, s'.pending.lookup k = s.pending.lookup k
  order : s'.order = s.order
  bytes : s'.bytes = s.bytes

/-- What is stored of the packet stays, is in the packet handed out, or is dropped with it because it is too large. -/
inductive Extends (p : Pending) (part : Fragment) (r : Outcome) (s' : Reassembly) : Prop
  | stored (q : Pending) (hq : s'.pending.lookup part.key = some q)
      (h : ∀ (i : Nat) payload, p.fragments[i]? = some (some payload) → q.fragments[i]? = some (some payload))
  | returned (pieces : List Bytes) (hr : r = .ok (some (part.session, ⟨part.target, pieces.flatten⟩)))
      (h : ∀ (i : Nat) payload, p.fragments[i]? = some (some payload) → pieces[i]? = some payload)
  | oversized (hbytes : maxPayload < p.bytes + part.payload.length)
      (hr : r = failed "oversized reassembled Hysteria datagram")

def Filled (p : Pending) (part : Fragment) : Prop := ∃ payload, p.fragments[part.index.toNat]? = some (some payload)

structure Progress (p : Pending) (part : Fragment) (r : Outcome) (s s' : Reassembly) : Prop where
  repeated : Filled p part → r = .ok none ∧ Same s s'
  extended : ¬Filled p part → Extends p part r s'

theorem slot_cases (hlength : p.fragments.length = part.count.toNat) (hcount : part.count ≠ 1) :
    Filled p part ∨ p.fragments[part.index.toNat]? = some none := by
  have hlt : part.index.toNat < p.fragments.length := by
    rw [hlength]
    exact UInt8.lt_iff_toNat_lt.1 (part.valid.2.resolve_left hcount)
  cases hslot : p.fragments[part.index.toNat]? with
  | none => exact absurd (List.getElem?_eq_none_iff.1 hslot) (not_le.2 hlt)
  | some slot =>
    cases slot with
    | none => exact .inr rfl
    | some payload => exact .inl ⟨payload, hslot⟩

theorem fill_kept (hslot : p.fragments[part.index.toNat]? = some none) {i : Nat} {payload : Bytes}
    (h : p.fragments[i]? = some (some payload)) : (p.fill part).fragments[i]? = some (some payload) := by
  have hne : part.index.toNat ≠ i := fun heq => by
    rw [← heq, hslot] at h
    cases some.inj h
  show (p.fragments.set part.index.toNat _)[i]? = _
  rw [getElem?_set_ne hne]
  exact h

theorem store_extends (hp : s.pending.lookup part.key = some p) (htarget : p.target = part.target)
    (hslot : p.fragments[part.index.toNat]? = some none) (hcall : s.store part now = some (r, s')) :
    Extends p part r s' := by
  have hentry : s.entry part now = (p, s.order) := by rw [entry, hp]
  unfold store at hcall
  simp only [hentry, hslot] at hcall
  unfold settle at hcall
  split_ifs at hcall with hover hmissing
  · obtain ⟨_, -, heq⟩ := map_eq_some_iff.1 hcall
    exact .oversized hover (Prod.mk.inj heq).1.symm
  · obtain ⟨-, rfl⟩ := Prod.mk.inj (some.inj hcall)
    exact .stored (p.fill part) (lookup_insert _) fun i payload => fill_kept hslot
  · unfold complete remove at hcall
    simp only [lookup_insert] at hcall
    split_ifs at hcall
    cases hpieces : allFilled (p.fill part).fragments with
    | none =>
      simp only [hpieces] at hcall
      cases hcall
    | some pieces =>
      simp only [hpieces] at hcall
      obtain ⟨hr, -⟩ := Prod.mk.inj (some.inj hcall)
      refine .returned pieces (htarget ▸ hr.symm) fun i payload hstored => ?_
      have hfilled := fill_kept hslot hstored
      rw [allFilled_eq_some.1 hpieces, getElem?_map] at hfilled
      obtain ⟨_, hpiece, heq⟩ := map_eq_some_iff.1 hfilled
      rw [hpiece, some.inj heq]

theorem store_repeated (hp : s.pending.lookup part.key = some p) (hfilled : Filled p part)
    (hcall : s.store part now = some (r, s')) : r = .ok none ∧ Same s s' := by
  obtain ⟨_, hslot⟩ := hfilled
  have hentry : s.entry part now = (p, s.order) := by rw [entry, hp]
  unfold store at hcall
  simp only [hentry, hslot] at hcall
  obtain ⟨rfl, rfl⟩ := Prod.mk.inj (some.inj hcall)
  refine ⟨rfl, fun k => ?_, rfl, rfl⟩
  by_cases hk : k = part.key
  · rw [hk, hp, lookup_insert]
  · exact lookup_insert_ne hk

def begun (s : Reassembly) (part : Fragment) (now : Nat) : Reassembly :=
  ⟨s.pending.insert part.key ((Pending.new part now).fill part), s.order ++ [part.key], s.bytes + part.payload.length⟩

theorem begun_bytes : (s.begun part now).bytes = s.bytes + part.payload.length := rfl

theorem mem_begun : key ∈ (s.begun part now).pending ↔ key = part.key ∨ key ∈ s.pending := AList.mem_insert _

theorem lookup_begun_ne (hne : key ≠ part.key) : (s.begun part now).pending.lookup key = s.pending.lookup key :=
  lookup_insert_ne hne

theorem store_anew (hvacant : s.pending.lookup part.key = none) (hcount : part.count ≠ 1) :
    s.store part now = some (.ok none, s.begun part now) := by
  have hentry : s.entry part now = (Pending.new part now, s.order ++ [part.key]) := by rw [entry, hvacant]
  have hindex : part.index.toNat < part.count.toNat := UInt8.lt_iff_toNat_lt.1 (part.valid.2.resolve_left hcount)
  have hslot : (Pending.new part now).fragments[part.index.toNat]? = some none := by
    rw [Pending.new, getElem?_replicate, if_pos hindex]
  have hpositive : 0 < part.count.toNat := UInt8.lt_iff_toNat_lt.1 part.valid.1
  have hseveral : part.count.toNat ≠ 1 := fun heq => hcount (UInt8.toNat_inj.1 heq)
  have hfits : ¬maxPayload < ((Pending.new part now).fill part).bytes := by
    show ¬maxPayload < 0 + part.payload.length
    have := part.payload_le
    omega
  have hmissing : ((Pending.new part now).fill part).received ≠
      ((Pending.new part now).fill part).fragments.length := by
    show 0 + 1 ≠ (List.set _ _ _).length
    rw [length_set, Pending.new, length_replicate]
    omega
  unfold store
  simp only [hentry, hslot]
  unfold settle
  rw [if_neg hfits, if_pos hmissing]
  rfl

theorem Holds.stored {parts : List Fragment} (h : Holds hist key p parts) :
    ∃ (i : Nat) (payload : Bytes), p.fragments[i]? = some (some payload) := by
  obtain ⟨_, _, _, opener, _, -, -, hopens, hkey, hparts⟩ := h.since
  have hmem : opener ∈ parts := by
    rw [hparts, mem_filter]
    exact ⟨mem_cons_self, decide_eq_true ⟨hkey, hopens.1⟩⟩
  obtain ⟨-, hlength⟩ := h.same opener hmem
  have hindex : opener.index.toNat < p.fragments.length := by
    rw [← hlength]
    exact UInt8.lt_iff_toNat_lt.1 (opener.valid.2.resolve_left hopens.1)
  have hfind : (parts.find? fun f => f.index.toNat = opener.index.toNat).isSome := by
    rw [find?_isSome]
    exact ⟨opener, hmem, decide_eq_true rfl⟩
  obtain ⟨first, hfirst⟩ := isSome_iff_exists.1 hfind
  refine ⟨opener.index.toNat, first.payload, ?_⟩
  rw [h.slots, getElem?_firstAt, if_pos hindex, hfirst]
  rfl

theorem repeated_iff {s₂ : Reassembly} (h : s.Sound) (hp : s.pending.lookup part.key = some p) (hlacking : p.Partial)
    (hcount : part.count ≠ 1) (hfilled : Filled p part) (hevict : s.evict part = some s₂)
    (hcall : s₂.store part now = some (r, s')) :
    r = .ok none ∧ Same s s' ↔ s.bytes + part.payload.length ≤ maxBuffered := by
  have hmem : part.key ∈ s.pending := lookup_isSome.1 (isSome_iff_exists.2 ⟨p, hp⟩)
  constructor
  · rintro ⟨-, hsame⟩
    obtain ⟨_, hevict', hreduces, hroom, hown⟩ := evict_own h hp
    obtain rfl := some.inj (hevict.symm.trans hevict')
    cases hlook : s₂.pending.lookup part.key with
    | some =>
      obtain rfl := some.inj ((hreduces.kept hlook).symm.trans hp)
      obtain ⟨-, hsame₂⟩ := store_repeated hlook hfilled hcall
      rw [← hsame.bytes, hsame₂.bytes]
      exact hroom.1
    | none =>
      -- a packet that goes to the end of the order was not last, or it had room
      exfalso
      rw [store_anew hlook hcount] at hcall
      obtain ⟨-, rfl⟩ := Prod.mk.inj (some.inj hcall)
      have horder := hsame.order.symm
      have hlast : s.heldFrom part.key = p.bytes := by
        have hfresh : ∀ k ∈ s₂.order, decide (k ≠ part.key) = true := fun k hk => decide_eq_true fun heq => by
          have hin := (hreduces.sound.listed k).1 hk
          rw [heq] at hin
          exact lookup_eq_none.1 hlook hin
        rw [heldFrom, horder, begun, dropWhile_append_of_pos hfresh, dropWhile_cons_of_neg (by simp),
          map_singleton, sum_singleton, bytesAt, hp]
        rfl
      have hbytes := hlacking.bytes_le
      have hpayload := part.payload_le
      refine lookup_eq_none.1 hlook (hown.2 ?_)
      rw [hlast]
      exact le_trans (Nat.add_le_add hbytes hpayload) (by decide)
  · intro hfits
    obtain rfl := some.inj ((evict_idle hfits hmem).symm.trans hevict)
    exact store_repeated hp hfilled hcall

theorem extends_iff {s₂ : Reassembly} (h : s.Sound) (hp : s.pending.lookup part.key = some p)
    (hstored : ∃ (i : Nat) (payload : Bytes), p.fragments[i]? = some (some payload)) (htarget : p.target = part.target)
    (hlength : p.fragments.length = part.count.toNat) (hcount : part.count ≠ 1) (hfilled : ¬Filled p part)
    (hevict : s.evict part = some s₂) (hcall : s₂.store part now = some (r, s')) :
    Extends p part r s' ↔ s.heldFrom part.key + part.payload.length ≤ maxBuffered := by
  obtain ⟨_, hevict', hreduces, -, hown⟩ := evict_own h hp
  obtain rfl := some.inj (hevict.symm.trans hevict')
  rw [← hown]
  cases hlook : s₂.pending.lookup part.key with
  | some q =>
    obtain rfl := some.inj ((hreduces.kept hlook).symm.trans hp)
    have hslot := (slot_cases hlength hcount).resolve_left hfilled
    refine iff_of_true (store_extends hlook htarget hslot hcall) ?_
    exact lookup_isSome.1 (isSome_iff_exists.2 ⟨q, hlook⟩)
  | none =>
    rw [store_anew hlook hcount] at hcall
    obtain ⟨rfl, rfl⟩ := Prod.mk.inj (some.inj hcall)
    refine iff_of_false (fun hextends => ?_) (lookup_eq_none.1 hlook)
    cases hextends with
    | stored _ hq hkept =>
      -- the new entry holds the fragment alone
      obtain rfl := some.inj ((lookup_insert _).symm.trans hq)
      obtain ⟨i, payload, hi⟩ := hstored
      have hslot := hkept i payload hi
      by_cases heq : part.index.toNat = i
      · exact hfilled ⟨payload, heq ▸ hi⟩
      · rw [Pending.fill, getElem?_set_ne heq, Pending.new, getElem?_replicate] at hslot
        split_ifs at hslot
        cases some.inj hslot
    | returned _ hr => cases hr
    | oversized _ hr => cases hr

theorem receive_eq_store {s₁ s₂ : Reassembly} (hcount : part.count ≠ 1) (hexpire : s.expire now = some s₁)
    (hp : s₁.pending.lookup part.key = some p) (htarget : p.target = part.target)
    (hlength : p.fragments.length = part.count.toNat) (hevict : s₁.evict part = some s₂) :
    s.receive now part = s₂.store part now := by
  have hconflicts : s₁.conflicts part = false := by
    rw [conflicts, hp]
    simp [htarget, hlength]
  unfold receive
  simp only [hexpire, if_neg hcount]
  unfold accept
  simp only [hconflicts, hevict]
  rfl

/-- **A fragment destroys progress of its own packet exactly when there is no room**: a repeated one leaves everything
as it is if and only if its length fits beside all that is held, another one keeps what is stored of its packet if and
only if its length fits beside its packet and those begun later. -/
theorem progress_iff {s₁ : Reassembly} (h : Run hist s last) (hcount : part.count ≠ 1)
    (hexpire : s.expire now = some s₁) (hp : s₁.pending.lookup part.key = some p) (htarget : p.target = part.target)
    (hlength : p.fragments.length = part.count.toNat) (hcall : s.receive now part = some (r, s')) :
    Progress p part r s₁ s' ↔ (Filled p part → s₁.bytes + part.payload.length ≤ maxBuffered) ∧
      (¬Filled p part → s₁.heldFrom part.key + part.payload.length ≤ maxBuffered) := by
  obtain ⟨hbounded, htraced⟩ := h.spec
  obtain ⟨_, hexpire', hreduces, -⟩ := expire_spec hbounded.toSound now
  obtain rfl := some.inj (hexpire'.symm.trans hexpire)
  have hsound := hreduces.sound
  have hlacking := hbounded.incomplete _ p (hreduces.kept hp)
  obtain ⟨_, hholds⟩ := htraced _ p (hreduces.kept hp)
  have hstored := hholds.stored
  obtain ⟨_, hevict, -⟩ := evict_own hsound hp
  rw [receive_eq_store hcount hexpire hp htarget hlength hevict] at hcall
  have hrepeated := fun hfilled => repeated_iff hsound hp hlacking hcount hfilled hevict hcall
  have hextends := fun hfilled => extends_iff hsound hp hstored htarget hlength hcount hfilled hevict hcall
  exact ⟨fun hprogress => ⟨fun hfilled => (hrepeated hfilled).1 (hprogress.repeated hfilled),
    fun hfilled => (hextends hfilled).1 (hprogress.extended hfilled)⟩,
    fun hfits => ⟨fun hfilled => (hrepeated hfilled).2 (hfits.1 hfilled),
      fun hfilled => (hextends hfilled).2 (hfits.2 hfilled)⟩⟩

theorem progress_iff_halves : ∃ s p r s', Run [(0, half 1 (by decide))] s 0 ∧ s.expire 5 = some s ∧
    s.pending.lookup (1, 2) = some p ∧ s.receive 5 (half 0 (by decide)) = some (r, s') ∧
    (Progress p (half 0 (by decide)) r s s' ↔
      (Filled p (half 0 (by decide)) → s.bytes + (half 0 (by decide)).payload.length ≤ maxBuffered) ∧
      (¬Filled p (half 0 (by decide)) →
        s.heldFrom (half 0 (by decide)).key + (half 0 (by decide)).payload.length ≤ maxBuffered)) := by
  have hrun : Run [(0, half 1 (by decide))] _ 0 := .receive (r := .ok none) .empty le_rfl rfl
  obtain ⟨r, s', hcall, -⟩ := receive_spec hrun hrun.spec.1 hrun.spec.2 (by decide : 0 ≤ 5) (half 0 (by decide))
  exact ⟨_, _, r, s', hrun, rfl, rfl, hcall, progress_iff hrun (by decide) rfl rfl rfl rfl hcall⟩

/-! ## A packet that loses a fragment -/

theorem Sound.expire_zero (h : s.Sound) : s.expire 0 = some s := by
  refine loop_done ?_
  unfold expireTurn
  cases hhead : s.order.head? with
  | none => rfl
  | some =>
    obtain ⟨p, hp⟩ := h.lookup_of_mem (mem_of_head? hhead)
    have hfresh : decide (0 - p.created < fragmentRetention) = true := by
      rw [Nat.zero_sub]
      rfl
    simp only [hp, any_some, hfresh, if_true]

theorem Run.begin (h : Run hist s 0) (part : Fragment) (hcount : part.count ≠ 1) (hnew : part.key ∉ s.pending)
    (hfits : s.bytes + part.payload.length ≤ maxBuffered) (hpending : s.pending.keys.length < maxPending) :
    Run (hist ++ [(0, part)]) (s.begun part 0) 0 := by
  refine .receive (r := .ok none) h le_rfl ?_
  have hvacant : s.pending.lookup part.key = none := lookup_eq_none.2 hnew
  have hevict : s.evict part = some s := by
    refine loop_done ?_
    rw [evictTurn, if_neg]
    rintro (hfull | ⟨-, hfull⟩)
    · omega
    · omega
  rw [Reassembly.receive, h.spec.1.toSound.expire_zero]
  simp only [if_neg hcount]
  rw [accept, conflicts, hvacant]
  simp only [hevict, any_none, Bool.false_eq_true, if_false]
  exact store_anew hvacant hcount

/-- A fragment of `n` bytes, one of three. -/
def third (packet : UInt16) (index : UInt8) (n : Nat) (hindex : index < 3) (hn : n ≤ maxPayload) : Fragment :=
  ⟨1, packet, index, 3, .domain "a" 53, List.replicate n 0, ⟨by decide, .inr hindex⟩, by rwa [length_replicate]⟩

theorem third_length {packet : UInt16} {index : UInt8} {n : Nat} {hindex : index < 3} {hn : n ≤ maxPayload} :
    (third packet index n hindex hn).payload.length = n := length_replicate

theorem third_key {packet : UInt16} {index : UInt8} {n : Nat} {hindex : index < 3} {hn : n ≤ maxPayload} :
    (third packet index n hindex hn).key = (1, packet) := rfl

abbrev small : Fragment := third 0 0 500 (by decide) (by decide)

abbrev second : Fragment := third 0 1 5000 (by decide) (by decide)

abbrev large (packet : UInt16) : Fragment := third packet 0 65000 (by decide) (by decide)

def crowd : Reassembly :=
  ((((empty.begun small 0).begun (large 1) 0).begun (large 2) 0).begun (large 3) 0).begun (large 4) 0

theorem crowd_bytes : crowd.bytes = 260500 := by
  simp only [crowd, begun_bytes, third_length]
  rfl

theorem crowd_lookup : crowd.pending.lookup (1, 0) = some ((Pending.new small 0).fill small) := by
  rw [crowd, lookup_begun_ne (by decide), lookup_begun_ne (by decide), lookup_begun_ne (by decide),
    lookup_begun_ne (by decide)]
  exact lookup_insert _

theorem crowd_run : ∃ hist, Run hist crowd 0 := by
  have h₀ := Run.empty.begin small (by decide) (by simp [empty]) (by rw [third_length]; decide) (by decide)
  have h₁ := h₀.begin (large 1) (by decide) (by simp [mem_begun, third_key, empty])
    (by simp only [begun_bytes, third_length]; decide) (by decide)
  have h₂ := h₁.begin (large 2) (by decide) (by simp [mem_begun, third_key, empty])
    (by simp only [begun_bytes, third_length]; decide) (by decide)
  have h₃ := h₂.begin (large 3) (by decide) (by simp [mem_begun, third_key, empty])
    (by simp only [begun_bytes, third_length]; decide) (by decide)
  have h₄ := h₃.begin (large 4) (by decide) (by simp [mem_begun, third_key, empty])
    (by simp only [begun_bytes, third_length]; decide) (by decide)
  exact ⟨_, h₄⟩

/-- **A packet loses its first fragment**: its second one, of 5000 bytes, does not fit beside the four large packets
that came in between, and its own packet is the oldest. -/
theorem progress_lost : ∃ hist p r s', Run hist crowd 0 ∧ crowd.expire 0 = some crowd ∧
    crowd.pending.lookup (1, 0) = some p ∧ p.target = .domain "a" 53 ∧ p.fragments.length = 3 ∧
    crowd.receive 0 second = some (r, s') ∧ ¬Progress p second r crowd s' := by
  obtain ⟨hist, hrun⟩ := crowd_run
  obtain ⟨hbounded, htraced⟩ := hrun.spec
  obtain ⟨_, hholds⟩ := htraced _ _ crowd_lookup
  have hsound := hbounded.toSound
  have hheld : crowd.heldFrom second.key = 260500 := (hsound.heldFrom_head rfl).trans crowd_bytes
  have hlook : crowd.pending.lookup second.key = _ := crowd_lookup
  obtain ⟨s₂, hevict, -, -, hown⟩ := evict_own hsound hlook
  have hfull : ¬crowd.heldFrom second.key + second.payload.length ≤ maxBuffered := by
    rw [hheld, third_length]
    decide
  have hcall := receive_eq_store (by decide) hsound.expire_zero hlook rfl rfl hevict
  have hgone : s₂.pending.lookup second.key = none := lookup_eq_none.2 fun hin => hfull (hown.1 hin)
  have hstore : s₂.store second 0 = _ := store_anew hgone (by decide)
  have hvacant : ¬Filled ((Pending.new small 0).fill small) second := fun ⟨_, hslot⟩ => nomatch hslot
  refine ⟨hist, _, _, _, hrun, hsound.expire_zero, crowd_lookup, rfl, rfl, hcall.trans hstore, fun hprogress => ?_⟩
  exact hfull ((extends_iff hsound hlook hholds.stored rfl rfl (by decide) hvacant hevict hstore).1
    (hprogress.extended hvacant))

end Reassembly

end Kotoconn.Hysteria2
