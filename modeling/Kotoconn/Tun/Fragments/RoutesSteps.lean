import Kotoconn.Lib.Totals
import Kotoconn.Tun.Fragments.Routes

/-! # What a routing call can do -/

namespace Kotoconn.Tun

open Lib List Option Function Table

variable {r r' : Routes} {l l' : Limits} {i now : Nat} {key : FragmentKey}

/-! ## The invariant -/

/-- Every entry expires at `nextExpiry` or later. -/
def Shard.Timely (s : Shard) : Prop :=
  ∀ {k x}, s.entries.lookup k = some x → ∃ t, s.nextExpiry = some t ∧ t ≤ x.binding.expires

namespace Routes

def Known (r : Routes) (b : Binding) : Prop := r.bindings[b.id]? = some b

def Owned (r : Routes) (b : Binding) (owner : Option Nat) : Prop :=
  ∃ entry, (r.shards b.shard).entries.lookup b.key = some entry ∧ entry.binding = b ∧ entry.owner = owner

structure Inv (shardOf : FragmentKey → Nat) (r : Routes) : Prop where
  entry : ∀ {i k x}, (r.shards i).entries.lookup k = some x →
    r.Known x.binding ∧ r.active x.binding.id = true ∧ x.binding.key = k ∧ x.binding.shard = i
  alone : ∀ {i k x}, (r.shards i).entries.lookup k = some x → x.owner.isSome = true → x.pending = none
  owner_lt : ∀ {i k x w}, (r.shards i).entries.lookup k = some x → x.owner = some w → w < r.count
  live : ∀ {b}, r.Known b → r.active b.id = true → ∃ owner, r.Owned b owner
  shard : ∀ {b}, r.Known b → b.shard = shardOf b.key ∧ b.shard < r.count
  allocated : ∀ {id}, r.active id = true → id < r.bindings.length
  timely : ∀ i, (r.shards i).Timely

/-- No call forgets a binding, sets a flag again, or changes the owner of an entry that stands. -/
structure Evolves (r r' : Routes) : Prop where
  count : r'.count = r.count
  known : ∀ {b}, r.Known b → r'.Known b
  active : ∀ {b}, r.Known b → r'.active b.id = true → r.active b.id = true
  owned : ∀ {b w}, r.Owned b (some w) → r'.active b.id = true → r'.Owned b (some w)

theorem Evolves.refl (r : Routes) : r.Evolves r := ⟨rfl, id, fun _ h => h, fun h _ => h⟩

theorem Evolves.trans {r'' : Routes} {shardOf : FragmentKey → Nat} (hr : r.Inv shardOf) (h : r.Evolves r')
    (h' : r'.Evolves r'') : r.Evolves r'' where
  count := h'.count.trans h.count
  known hb := h'.known (h.known hb)
  active hb ha := h.active hb (h'.active (h.known hb) ha)
  owned := by
    rintro b w ⟨entry, hentry, rfl, howner⟩ ha
    have hknown := (hr.entry hentry).1
    exact h'.owned (h.owned ⟨entry, hentry, rfl, howner⟩ (h'.active (h.known hknown) ha)) ha

variable {shardOf : FragmentKey → Nat}

theorem Inv.new {count : Nat} : (Routes.new count).Inv shardOf where
  entry h := by simp [Routes.new, Shard.new] at h
  alone h := by simp [Routes.new, Shard.new] at h
  owner_lt h := by simp [Routes.new, Shard.new] at h
  live h := by simp [Routes.new, Known] at h
  shard h := by simp [Routes.new, Known] at h
  allocated h := by simp [Routes.new] at h
  timely i := by simp [Shard.Timely, Routes.new, Shard.new]

theorem Known.eq {b c : Binding} (hb : r.Known b) (hc : r.Known c) (h : b.id = c.id) : b = c :=
  some.inj (hb.symm.trans (h ▸ hc))

theorem Known.lt {b : Binding} (h : r.Known b) : b.id < r.bindings.length := (List.getElem?_eq_some_iff.1 h).1

theorem Inv.unique (h : r.Inv shardOf) {i j : Nat} {k k' : FragmentKey} {x y : Entry}
    (hx : (r.shards i).entries.lookup k = some x) (hy : (r.shards j).entries.lookup k' = some y)
    (hid : x.binding.id = y.binding.id) : i = j ∧ k = k' ∧ x = y := by
  obtain ⟨kx, -, rfl, rfl⟩ := h.entry hx
  obtain ⟨ky, -, rfl, rfl⟩ := h.entry hy
  rw [kx.eq ky hid] at hx ⊢
  exact ⟨rfl, rfl, some.inj (hx.symm.trans hy)⟩

theorem Owned.eq {b : Binding} {o o' : Option Nat} (h : r.Owned b o) (h' : r.Owned b o') : o = o' := by
  obtain ⟨_, hx, -, rfl⟩ := h
  obtain ⟨_, hy, -, rfl⟩ := h'
  rw [some.inj (hx.symm.trans hy)]

/-! ## Dropping entries -/

/-- `s'` is `s` without the entries in `gone`. -/
structure Drops (s : Shard) (gone : List Entry) (s' : Shard) : Prop where
  lookup : ∀ {k x}, s'.entries.lookup k = some x ↔ s.entries.lookup k = some x ∧ x ∉ gone
  stood : ∀ {x}, x ∈ gone → ∃ k, s.entries.lookup k = some x
  timely : s.Timely → s'.Timely

theorem put_shards (r : Routes) (i : Nat) (s : Shard) (gone : List Entry) (j : Nat) :
    (r.put i s gone).shards j = if j = i then s else r.shards j := update_apply ..

variable {gone : List Entry} {s : Shard}

theorem put_active {id : Nat} :
    (r.put i s gone).active id = true ↔ r.active id = true ∧ ∀ x ∈ gone, x.binding.id ≠ id := by
  simp [put]

variable {k : FragmentKey}

theorem put_lookup (hd : Drops (r.shards i) gone s) {j : Nat}
    {x : Entry} : ((r.put i s gone).shards j).entries.lookup k = some x ↔
      (r.shards j).entries.lookup k = some x ∧ (j = i → x ∉ gone) := by
  rw [put_shards]
  split_ifs with hj
  · subst hj
    simp [hd.lookup]
  · simp [hj]

theorem Inv.put (h : r.Inv shardOf) (hd : Drops (r.shards i) gone s) : (r.put i s gone).Inv shardOf where
  entry := by
    intro j k x hx
    obtain ⟨hx, hnot⟩ := (put_lookup hd).1 hx
    obtain ⟨hknown, hactive, hkey, hshard⟩ := h.entry hx
    refine ⟨hknown, put_active.2 ⟨hactive, fun y hy hid => ?_⟩, hkey, hshard⟩
    obtain ⟨_, hy'⟩ := hd.stood hy
    obtain ⟨rfl, -, rfl⟩ := h.unique hy' hx hid
    exact hnot rfl hy
  alone hx := h.alone ((put_lookup hd).1 hx).1
  owner_lt hx := h.owner_lt ((put_lookup hd).1 hx).1
  live := by
    intro b hb ha
    obtain ⟨ha, hnot⟩ := put_active.1 ha
    obtain ⟨owner, x, hx, rfl, ho⟩ := h.live hb ha
    exact ⟨owner, x, (put_lookup hd).2 ⟨hx, fun _ hmem => hnot x hmem rfl⟩, rfl, ho⟩
  shard := h.shard
  allocated ha := h.allocated (put_active.1 ha).1
  timely j := by
    rw [put_shards]
    split_ifs
    · exact hd.timely (h.timely i)
    · exact h.timely j

theorem Evolves.put (hd : Drops (r.shards i) gone s) : r.Evolves (r.put i s gone) where
  count := rfl
  known := id
  active _ ha := (put_active.1 ha).1
  owned := by
    rintro b w ⟨x, hx, rfl, ho⟩ ha
    exact ⟨x, (put_lookup hd).2 ⟨hx, fun _ hmem => (put_active.1 ha).2 x hmem rfl⟩, rfl, ho⟩

theorem drops_expire (s : Shard) (now : Nat) : Drops s (s.overdue now) (s.expire now) := by
  unfold Shard.overdue Shard.expire
  split_ifs
  · constructor
    · intro k x
      rw [lookup_retain]
      refine and_congr_right fun hx => ⟨fun hlive hmem => ?_, fun hnot => ?_⟩
      · obtain ⟨_, hx'⟩ := Table.exists_lookup_of_mem_values hmem
        have hover := (lookup_retain.1 hx').2
        rw [hlive] at hover
        cases hover
      · by_contra hlive
        exact hnot (Table.mem_values_of_lookup (lookup_retain.2 ⟨hx, by simpa using hlive⟩))
    · intro x hmem
      obtain ⟨k, hx⟩ := Table.exists_lookup_of_mem_values hmem
      exact ⟨k, (lookup_retain.1 hx).1⟩
    · exact fun _ _ _ hx => exists_min?_le (List.mem_map_of_mem (Table.mem_values_of_lookup hx))
  · exact ⟨by simp, fun hmem => absurd hmem not_mem_nil, id⟩

theorem overdue_expires {x : Entry} (h : x ∈ s.overdue now) : x.binding.expires ≤ now := by
  unfold Shard.overdue at h
  split_ifs at h
  · obtain ⟨_, hx⟩ := Table.exists_lookup_of_mem_values h
    simpa using (lookup_retain.1 hx).2
  · exact absurd h not_mem_nil

theorem drops_erase (h : r.Inv shardOf) {x : Entry} (hx : (r.shards i).entries.lookup key = some x) :
    Drops (r.shards i) [x] ⟨(r.shards i).entries.erase key, (r.shards i).nextExpiry⟩ := by
  constructor
  · intro k y
    rw [lookup_erase_iff, mem_singleton]
    constructor
    · rintro ⟨hk, hy⟩
      refine ⟨hy, ?_⟩
      rintro rfl
      exact hk ((h.entry hy).2.2.1.symm.trans (h.entry hx).2.2.1)
    · rintro ⟨hy, hne⟩
      refine ⟨?_, hy⟩
      rintro rfl
      exact hne (some.inj (hy.symm.trans hx))
  · intro y hy
    exact ⟨key, mem_singleton.1 hy ▸ hx⟩
  · exact fun htimely _ _ hy => htimely (lookup_erase_iff.1 hy).2

/-! ## Inserting and overwriting entries -/

theorem known_insertNew {b : Binding} : (r.insertNew i key now).Known b ↔ r.Known b ∨ b = r.bind i key now := by
  unfold Known insertNew
  simp only
  rcases Nat.lt_trichotomy b.id r.bindings.length with hlt | heq | hgt
  · rw [getElem?_append_left hlt]
    refine ⟨.inl, fun h => h.resolve_right ?_⟩
    rintro rfl
    exact lt_irrefl _ hlt
  · rw [heq, getElem?_concat_length, getElem?_eq_none le_rfl]
    simp [eq_comm]
  · have hne : b ≠ r.bind i key now := by
      rintro rfl
      exact lt_irrefl _ hgt
    rw [getElem?_eq_none (by simp; omega), getElem?_eq_none (by omega)]
    simp [hne]

theorem insertNew_lookup {j : Nat} {x : Entry} : ((r.insertNew i key now).shards j).entries.lookup k = some x ↔
      (j = i ∧ k = key ∧ x = ⟨r.bind i key now, none, none⟩) ∨
      (¬ (j = i ∧ k = key) ∧ (r.shards j).entries.lookup k = some x) := by
  simp only [insertNew, update_apply]
  by_cases hj : j = i
  · subst hj
    rw [if_pos rfl, lookup_insert_iff]
    simp
  · simp [hj]

theorem insertNew_active {id : Nat} :
    (r.insertNew i key now).active id = true ↔ id = r.bindings.length ∨ r.active id = true := by
  simp only [insertNew, bind, update_apply]
  split_ifs with h <;> simp [h]

theorem exists_earlier (next : Option Nat) (t : Nat) :
    ∃ u, (if next.all (t < ·) then some t else next) = some u ∧ u ≤ t ∧ ∀ v, next = some v → u ≤ v := by
  cases next with
  | none => exact ⟨t, rfl, le_rfl, nofun⟩
  | some v =>
    simp only [all_some, decide_eq_true_eq, Option.some.injEq, forall_eq']
    split_ifs with h
    · exact ⟨t, rfl, le_rfl, le_of_lt h⟩
    · exact ⟨v, rfl, not_lt.1 h, le_rfl⟩

theorem Inv.insertNew (h : r.Inv shardOf) (hi : i < r.count) (hshard : shardOf key = i)
    (hvacant : (r.shards i).entries.lookup key = none) : (r.insertNew i key now).Inv shardOf where
  entry := by
    intro j k x hx
    rcases insertNew_lookup.1 hx with ⟨rfl, rfl, rfl⟩ | ⟨-, hx⟩
    · exact ⟨known_insertNew.2 (.inr rfl), insertNew_active.2 (.inl rfl), rfl, rfl⟩
    · obtain ⟨hknown, hactive, hrest⟩ := h.entry hx
      exact ⟨known_insertNew.2 (.inl hknown), insertNew_active.2 (.inr hactive), hrest⟩
  alone := by
    intro j k x hx howner
    rcases insertNew_lookup.1 hx with ⟨rfl, rfl, rfl⟩ | ⟨-, hx⟩
    · rfl
    · exact h.alone hx howner
  owner_lt := by
    intro j k x w hx howner
    rcases insertNew_lookup.1 hx with ⟨rfl, rfl, rfl⟩ | ⟨-, hx⟩
    · cases howner
    · exact h.owner_lt hx howner
  live := by
    intro b hb ha
    rcases known_insertNew.1 hb with hb | rfl
    · have ha := (insertNew_active.1 ha).resolve_left (Nat.ne_of_lt hb.lt)
      obtain ⟨owner, x, hx, rfl, ho⟩ := h.live hb ha
      refine ⟨owner, x, insertNew_lookup.2 (.inr ⟨?_, hx⟩), rfl, ho⟩
      rintro ⟨h1, h2⟩
      rw [h1, h2, hvacant] at hx
      cases hx
    · exact ⟨none, _, insertNew_lookup.2 (.inl ⟨rfl, rfl, rfl⟩), rfl, rfl⟩
  shard := by
    intro b hb
    rcases known_insertNew.1 hb with hb | rfl
    · exact h.shard hb
    · exact ⟨hshard.symm, hi⟩
  allocated := by
    intro id ha
    have hlen : (r.insertNew i key now).bindings.length = r.bindings.length + 1 := by simp [Routes.insertNew]
    rcases insertNew_active.1 ha with rfl | ha
    · omega
    · have := h.allocated ha
      omega
  timely j := by
    intro k x hx
    obtain ⟨t, ht, hle, hle'⟩ := exists_earlier (r.shards i).nextExpiry (r.bind i key now).expires
    have hnext : ((r.insertNew i key now).shards i).nextExpiry = some t := by
      rw [← ht, Routes.insertNew]
      simp only [update_self]
    rcases insertNew_lookup.1 hx with ⟨rfl, -, rfl⟩ | ⟨-, hx⟩
    · exact ⟨t, hnext, hle⟩
    · obtain ⟨t', ht', hexpires⟩ := h.timely j hx
      by_cases hj : j = i
      · subst hj
        exact ⟨t, hnext, le_trans (hle' t' ht') hexpires⟩
      · refine ⟨t', ?_, hexpires⟩
        rw [← ht', Routes.insertNew]
        simp only [update_of_ne hj]

theorem Evolves.insertNew (hvacant : (r.shards i).entries.lookup key = none) : r.Evolves (r.insertNew i key now) where
  count := rfl
  known hb := known_insertNew.2 (.inl hb)
  active hb ha := (insertNew_active.1 ha).resolve_left (Nat.ne_of_lt hb.lt)
  owned := by
    rintro b w ⟨x, hx, rfl, ho⟩ -
    refine ⟨x, insertNew_lookup.2 (.inr ⟨?_, hx⟩), rfl, ho⟩
    rintro ⟨h1, h2⟩
    rw [h1, h2, hvacant] at hx
    cases hx

theorem set_lookup {j : Nat} {x y : Entry} : ((r.set i key y).shards j).entries.lookup k = some x ↔
      (j = i ∧ k = key ∧ x = y) ∨ (¬ (j = i ∧ k = key) ∧ (r.shards j).entries.lookup k = some x) := by
  simp only [set, update_apply]
  split_ifs with hj
  · subst hj
    rw [lookup_insert_iff]
    simp
  · simp [hj]

/-- The owner of an entry may be filled in, and a batch belongs to an entry without one. -/
theorem Inv.set (h : r.Inv shardOf) {x y : Entry} (hx : (r.shards i).entries.lookup key = some x)
    (hbinding : y.binding = x.binding) (halone : y.owner.isSome = true → y.pending = none)
    (howner : ∀ w, y.owner = some w → w < r.count) : (r.set i key y).Inv shardOf where
  entry := by
    intro j k z hz
    rcases set_lookup.1 hz with ⟨rfl, rfl, rfl⟩ | ⟨-, hz⟩
    · rw [hbinding]
      exact h.entry hx
    · exact h.entry hz
  alone := by
    intro j k z hz hsome
    rcases set_lookup.1 hz with ⟨rfl, rfl, rfl⟩ | ⟨-, hz⟩
    · exact halone hsome
    · exact h.alone hz hsome
  owner_lt := by
    intro j k z w hz hw
    rcases set_lookup.1 hz with ⟨rfl, rfl, rfl⟩ | ⟨-, hz⟩
    · exact howner w hw
    · exact h.owner_lt hz hw
  live := by
    intro b hb ha
    obtain ⟨owner, z, hz, rfl, ho⟩ := h.live hb ha
    by_cases hat : z.binding.shard = i ∧ z.binding.key = key
    · obtain ⟨rfl, rfl⟩ := hat
      rw [some.inj (hz.symm.trans hx)]
      rw [some.inj (hz.symm.trans hx)] at hx
      exact ⟨y.owner, y, set_lookup.2 (.inl ⟨rfl, rfl, rfl⟩), hbinding, rfl⟩
    · exact ⟨owner, z, set_lookup.2 (.inr ⟨hat, hz⟩), rfl, ho⟩
  shard := h.shard
  allocated := h.allocated
  timely j := by
    intro k z hz
    have hnext : ((r.set i key y).shards j).nextExpiry = (r.shards j).nextExpiry := by
      simp only [Routes.set, update_apply]
      split_ifs with hj <;> simp [hj]
    rw [hnext]
    rcases set_lookup.1 hz with ⟨rfl, rfl, rfl⟩ | ⟨-, hz⟩
    · rw [hbinding]
      exact h.timely j hx
    · exact h.timely j hz

theorem Evolves.set {x y : Entry} (hx : (r.shards i).entries.lookup key = some x) (hbinding : y.binding = x.binding)
    (howner : ∀ w, x.owner = some w → y.owner = some w) : r.Evolves (r.set i key y) where
  count := rfl
  known := id
  active _ ha := ha
  owned := by
    rintro b w ⟨z, hz, rfl, ho⟩ -
    by_cases hat : z.binding.shard = i ∧ z.binding.key = key
    · obtain ⟨rfl, rfl⟩ := hat
      have hzx := some.inj (hz.symm.trans hx)
      refine ⟨y, set_lookup.2 (.inl ⟨rfl, rfl, rfl⟩), hbinding.trans (congrArg Entry.binding hzx.symm), ?_⟩
      exact howner w (hzx ▸ ho)
    · exact ⟨z, set_lookup.2 (.inr ⟨hat, hz⟩), rfl, ho⟩

end Routes

/-! ## The calls -/

def Entry.batch (x : Entry) : List Frame :=
  match x.pending with
  | some pending => pending.frames
  | none => []

theorem Pending.push_frames {e : RoutesEnv} {p p' : Pending} {frame : Frame} {pushed : Bool}
    (h : p.push e l frame now = some (pushed, p', l')) :
    p'.frames = if pushed then p.frames ++ [frame] else p.frames := by
  unfold Pending.push at h
  by_cases hlen : frame.received.bytes.length ≤ frame.received.allocationSize
  swap
  · rw [if_neg hlen] at h
    cases h
  rw [if_pos hlen] at h
  obtain ⟨⟨resized, _⟩, -, h⟩ := bind_eq_some_iff.1 h
  cases resized with
  | false =>
    cases h
    rfl
  | true =>
    obtain ⟨⟨resized, _⟩, -, h⟩ := bind_eq_some_iff.1 h
    cases resized <;> cases h <;> rfl

namespace Routes

/-- What becomes of a frame whose entry is `x`. -/
inductive Places (r : Routes) (i : Nat) (key : FragmentKey) (firstOwner : Option Nat) (frame : Frame) (x : Entry) :
    Routed → Routes → Prop where
  | delivery {w : Nat} : x.owner.or firstOwner = some w →
      Places r i key firstOwner frame x (.delivery ⟨w, x.binding, frame, x.pending⟩)
        (r.set i key ⟨x.binding, some w, none⟩)
  | retained {p : Pending} : x.owner = none → p.frames = x.batch ++ [frame] →
      Places r i key firstOwner frame x (.retained x.binding) (r.set i key ⟨x.binding, none, some p⟩)
  | overflow {p : Pending} : x.owner = none → p.frames = x.batch →
      Places r i key firstOwner frame x (.overflow ⟨x.binding, none, some p⟩) (r.erase i key x)

/-- The outcomes of `route`, once the overdue entries are gone. -/
inductive Outcomes (r : Routes) (i : Nat) (key : FragmentKey) (firstOwner : Option Nat) (frame : Frame) (now : Nat) :
    Routed → Routes → Prop where
  | unadmitted : Outcomes r i key firstOwner frame now .unadmitted r
  | found {x : Entry} {out : Routed} {r' : Routes} : (r.shards i).entries.lookup key = some x →
      Places r i key firstOwner frame x out r' → Outcomes r i key firstOwner frame now out r'
  | inserted {out : Routed} {r' : Routes} : (r.shards i).entries.lookup key = none →
      Places (r.insertNew i key now) i key firstOwner frame ⟨r.bind i key now, none, none⟩ out r' →
      Outcomes r i key firstOwner frame now out r'

theorem lock_eq_some {s : Shard} (h : r.lock i = some s) : i < r.count ∧ s = r.shards i := by
  unfold lock at h
  split_ifs at h with hi
  exact ⟨hi, (some.inj h).symm⟩

theorem expire_eq (h : r.expire l i now = some (r', l')) :
    i < r.count ∧ r' = r.put i ((r.shards i).expire now) ((r.shards i).overdue now) := by
  obtain ⟨_, hlock, h⟩ := bind_eq_some_iff.1 h
  obtain ⟨_, -, h⟩ := bind_eq_some_iff.1 h
  obtain ⟨hi, rfl⟩ := lock_eq_some hlock
  cases h
  exact ⟨hi, rfl⟩

variable {e : RoutesEnv} {firstOwner : Option Nat} {frame : Frame} {out : Routed} {x : Entry}

theorem retain_cases (howner : x.owner = none) (h : r.retain e l i key x frame now = some (out, r', l')) :
    Places r i key firstOwner frame x out r' := by
  obtain ⟨b, o, pending⟩ := x
  obtain rfl : o = none := howner
  -- an empty batch is always granted
  obtain ⟨p, hp, h⟩ : ∃ p : Pending, p.frames = Entry.batch ⟨b, none, pending⟩ ∧
      (p.push e l frame now).bind (fun y =>
        if y.1 then some (.retained b, r.set i key ⟨b, none, some y.2.1⟩, y.2.2)
        else (y.2.2.drop y.2.1.held).bind fun l =>
          some (.overflow ⟨b, none, some y.2.1⟩, r.erase i key ⟨b, none, pending⟩, l)) = some (out, r', l') := by
    cases pending with
    | some p => exact ⟨p, rfl, h⟩
    | none =>
      refine ⟨.empty, rfl, ?_⟩
      simpa [retain, Limits.resize_empty] using h
  obtain ⟨⟨pushed, _, _⟩, hpush, h⟩ := bind_eq_some_iff.1 h
  have hframes := Pending.push_frames hpush
  rw [hp] at hframes
  cases pushed with
  | true =>
    cases h
    exact .retained rfl hframes
  | false =>
    obtain ⟨_, -, h⟩ := bind_eq_some_iff.1 h
    cases h
    exact .overflow rfl hframes

theorem route_cases (h : r.route e l i key firstOwner frame now = some (out, r', l')) :
    i < r.count ∧ Outcomes (r.put i ((r.shards i).expire now) ((r.shards i).overdue now)) i key firstOwner frame now
      out r' := by
  obtain ⟨⟨r0, _⟩, hexpire, h⟩ := bind_eq_some_iff.1 h
  obtain ⟨hi, rfl⟩ := expire_eq hexpire
  refine ⟨hi, ?_⟩
  generalize r.put i ((r.shards i).expire now) ((r.shards i).overdue now) = r0 at h
  obtain ⟨⟨found, r1, _⟩, henter, h⟩ := bind_eq_some_iff.1 h
  have hplace : ∀ x, found = some x → Places r1 i key firstOwner frame x out r' := by
    rintro x rfl
    simp only at h
    cases howner : x.owner.or firstOwner with
    | some =>
      rw [howner] at h
      cases h
      exact .delivery howner
    | none =>
      rw [howner] at h
      exact retain_cases (or_eq_none_iff.1 howner).1 h
  unfold enter at henter
  cases hlook : (r0.shards i).entries.lookup key with
  | some x =>
    rw [hlook] at henter
    cases henter
    exact .found hlook (hplace x rfl)
  | none =>
    rw [hlook] at henter
    obtain ⟨⟨reserved, _⟩, -, henter⟩ := bind_eq_some_iff.1 henter
    cases reserved with
    | false =>
      cases henter
      cases h
      exact .unadmitted
    | true =>
      cases henter
      exact .inserted hlook (hplace _ rfl)

theorem remove_cases (h : r.remove l i key = some (r', l')) : (r' = r ∧ (r.shards i).entries.lookup key = none) ∨
    ∃ x, (r.shards i).entries.lookup key = some x ∧ r' = r.erase i key x := by
  obtain ⟨_, hlock, h⟩ := bind_eq_some_iff.1 h
  obtain ⟨-, rfl⟩ := lock_eq_some hlock
  cases hlook : (r.shards i).entries.lookup key with
  | none =>
    rw [hlook] at h
    cases h
    exact .inl ⟨rfl, rfl⟩
  | some x =>
    rw [hlook] at h
    obtain ⟨_, -, h⟩ := bind_eq_some_iff.1 h
    cases h
    exact .inr ⟨x, rfl, rfl⟩

variable {b : Binding}

theorem finish_cases (h : r.finish l b = some (r', l')) :
    (r' = r ∧ ∀ x, (r.shards b.shard).entries.lookup b.key = some x → x.binding.id ≠ b.id) ∨
    ∃ x, (r.shards b.shard).entries.lookup b.key = some x ∧ x.binding.id = b.id ∧ r' = r.erase b.shard b.key x := by
  obtain ⟨_, hlock, h⟩ := bind_eq_some_iff.1 h
  obtain ⟨-, rfl⟩ := lock_eq_some hlock
  cases hlook : (r.shards b.shard).entries.lookup b.key with
  | none =>
    rw [hlook] at h
    cases h
    exact .inl ⟨rfl, fun x hx => nomatch hx⟩
  | some x =>
    rw [hlook, any_some, Binding.ptrEq] at h
    by_cases hid : x.binding.id = b.id
    · rw [if_pos (beq_iff_eq.2 hid)] at h
      rcases remove_cases h with ⟨-, hnone⟩ | ⟨y, hy, rfl⟩
      · cases hnone.symm.trans hlook
      · obtain rfl := some.inj (hlook.symm.trans hy)
        exact .inr ⟨x, rfl, hid, rfl⟩
    · rw [if_neg (mt beq_iff_eq.1 hid)] at h
      cases h
      exact .inl ⟨rfl, fun y hy => some.inj hy ▸ hid⟩

/-! ## What each call keeps -/

/-- A call keeps the invariant, and the owned entries that satisfy `p`. -/
structure Keeps (shardOf : FragmentKey → Nat) (p : Binding → Prop) (r r' : Routes) : Prop where
  inv : r'.Inv shardOf
  evolves : r.Evolves r'
  owned : ∀ {b w}, r.Owned b (some w) → p b → r'.Owned b (some w)

variable {shardOf : FragmentKey → Nat} {p : Binding → Prop}

theorem Keeps.put (hr : r.Inv shardOf) {s : Shard} {gone : List Entry} (hd : Drops (r.shards i) gone s)
    (hp : ∀ x ∈ gone, x.owner.isSome = true → ¬ p x.binding) : Keeps shardOf p r (r.put i s gone) where
  inv := hr.put hd
  evolves := .put hd
  owned := by
    rintro b w ⟨x, hx, rfl, ho⟩ hb
    exact ⟨x, (put_lookup hd).2 ⟨hx, fun _ hmem => hp x hmem (by rw [ho]; rfl) hb⟩, rfl, ho⟩

theorem Keeps.trans {r'' : Routes} (hr : r.Inv shardOf) (h : Keeps shardOf p r r')
    (h' : Keeps shardOf p r' r'') : Keeps shardOf p r r'' :=
  ⟨h'.inv, h.evolves.trans hr h'.evolves, fun ho hb => h'.owned (h.owned ho hb) hb⟩

variable (hr : r.Inv shardOf)
include hr

theorem expire_spec (h : r.expire l i now = some (r', l')) :
    Keeps shardOf (now < ·.expires) r r' := by
  obtain ⟨-, rfl⟩ := expire_eq h
  exact .put hr (drops_expire _ _) fun x hx _ hlive => absurd (overdue_expires hx) (not_le.2 hlive)

theorem Keeps.erase (hx : (r.shards i).entries.lookup key = some x)
    (hp : x.owner.isSome = true → ¬ p x.binding) : Keeps shardOf p r (r.erase i key x) :=
  .put hr (drops_erase hr hx) (forall_mem_singleton.2 hp)

theorem finish_spec (h : r.finish l b = some (r', l')) : Keeps shardOf (·.id ≠ b.id) r r' := by
  rcases finish_cases h with ⟨rfl, -⟩ | ⟨x, hx, hid, rfl⟩
  · exact ⟨hr, .refl r', fun ho _ => ho⟩
  · exact .erase hr hx fun _ hne => hne hid

theorem finish_inactive (hb : r.active b.id = false)
    (h : r.finish l b = some (r', l')) : r' = r := by
  rcases finish_cases h with ⟨rfl, -⟩ | ⟨x, hx, hid, rfl⟩
  · rfl
  · have := (hr.entry hx).2.1
    rw [hid, hb] at this
    cases this

theorem discard_spec (hold : (r.shards i).OldestPending key)
    (h : r.remove l i key = some (r', l')) : Keeps shardOf (fun _ => True) r r' := by
  obtain ⟨_, hx, hpending, -⟩ := hold
  rcases remove_cases h with ⟨rfl, hnone⟩ | ⟨y, hy, rfl⟩
  · cases hnone.symm.trans hx
  · obtain rfl := some.inj (hx.symm.trans hy)
    refine .erase hr hx fun howner => ?_
    rw [hr.alone hx howner] at hpending
    cases hpending

theorem Places.spec (hfirst : ∀ w, firstOwner = some w → w < r.count)
    (hx : (r.shards i).entries.lookup key = some x) (h : Places r i key firstOwner frame x out r') :
    Keeps shardOf (fun _ => True) r r' ∧ ∀ d, out = .delivery d → d.binding = x.binding ∧ d.frame = frame ∧
      r'.Owned d.binding (some d.owner) := by
  have hplace := (hr.entry hx).2.2
  cases h with
  | @delivery w howner =>
    have hkeep : ∀ w', x.owner = some w' → some w = some w' := fun w' hw => by
      rw [← howner, hw]
      rfl
    have hev : r.Evolves (r.set i key ⟨x.binding, some w, none⟩) := .set hx rfl hkeep
    have hlt : ∀ w', some w = some w' → w' < r.count := fun w' hw => by
      rcases or_eq_some_iff.1 (howner.trans hw) with h | ⟨-, h⟩
      · exact hr.owner_lt hx h
      · exact hfirst w' h
    refine ⟨⟨hr.set hx rfl (fun _ => rfl) hlt, hev, fun ho _ => hev.owned ho ?_⟩, ?_⟩
    · obtain ⟨y, hy, rfl, -⟩ := ho
      exact (hr.entry hy).2.1
    · rintro d hd
      cases hd
      refine ⟨rfl, rfl, _, set_lookup.2 (.inl ⟨hplace.2, hplace.1, rfl⟩), rfl, rfl⟩
  | @retained p howner =>
    have hev : r.Evolves (r.set i key ⟨x.binding, none, some p⟩) := .set hx rfl fun w hw => by
      rw [howner] at hw
      cases hw
    refine ⟨⟨hr.set hx rfl (fun hsome => nomatch hsome) (fun w hw => nomatch hw), hev, fun ho _ => hev.owned ho ?_⟩,
      fun d hd => nomatch hd⟩
    obtain ⟨_, hy, rfl, -⟩ := ho
    exact (hr.entry hy).2.1
  | overflow howner =>
    refine ⟨.erase hr hx fun hsome => ?_, fun d hd => nomatch hd⟩
    rw [howner] at hsome
    cases hsome

theorem insertNew_spec (hi : i < r.count) (hshard : shardOf key = i)
    (hvacant : (r.shards i).entries.lookup key = none) (now : Nat) :
    Keeps shardOf (fun _ => True) r (r.insertNew i key now) := by
  refine ⟨hr.insertNew hi hshard hvacant, .insertNew hvacant, fun ho _ => (Evolves.insertNew hvacant).owned ho ?_⟩
  obtain ⟨_, hx, rfl, -⟩ := ho
  exact insertNew_active.2 (.inr (hr.entry hx).2.1)

theorem Outcomes.spec (hi : i < r.count) (hshard : shardOf key = i)
    (hfirst : ∀ w, firstOwner = some w → w < r.count) (h : Outcomes r i key firstOwner frame now out r') :
    Keeps shardOf (fun _ => True) r r' ∧ ∀ d, out = .delivery d → d.frame = frame ∧ d.binding.key = key ∧
      r'.Owned d.binding (some d.owner) := by
  cases h with
  | unadmitted => exact ⟨⟨hr, .refl r, fun ho _ => ho⟩, fun d hd => nomatch hd⟩
  | found hx hplaces =>
    obtain ⟨hk, hd⟩ := hplaces.spec hr hfirst hx
    refine ⟨hk, fun d heq => ?_⟩
    obtain ⟨hbinding, hframe, howned⟩ := hd d heq
    exact ⟨hframe, hbinding ▸ (hr.entry hx).2.2.1, howned⟩
  | inserted hvacant hplaces =>
    have hnew := insertNew_spec hr hi hshard hvacant now
    obtain ⟨hk, hd⟩ := hplaces.spec hnew.inv hfirst (insertNew_lookup.2 (.inl ⟨rfl, rfl, rfl⟩))
    refine ⟨hnew.trans hr hk, fun d heq => ?_⟩
    obtain ⟨hbinding, hframe, howned⟩ := hd d heq
    exact ⟨hframe, hbinding ▸ rfl, howned⟩

/-- **`route` keeps every owned entry that is not overdue**, and a delivery names the owner of its entry. -/
theorem route_spec (hshard : shardOf key = i) (hfirst : ∀ w, firstOwner = some w → w < r.count)
    (h : r.route e l i key firstOwner frame now = some (out, r', l')) :
    Keeps shardOf (now < ·.expires) r r' ∧ ∀ d, out = .delivery d → d.frame = frame ∧ d.binding.key = key ∧
      r'.Owned d.binding (some d.owner) := by
  obtain ⟨hi, h⟩ := route_cases h
  have h0 : Keeps shardOf (now < ·.expires) r (r.put i ((r.shards i).expire now) ((r.shards i).overdue now)) :=
    .put hr (drops_expire _ _) fun x hx _ hlive => absurd (overdue_expires hx) (not_le.2 hlive)
  obtain ⟨h1, hd⟩ := h.spec h0.inv hi hshard hfirst
  exact ⟨h0.trans hr ⟨h1.inv, h1.evolves, fun ho _ => h1.owned ho trivial⟩, hd⟩

/-! ## Removed entries -/

structure Removed (r r' : Routes) (b : Binding) : Prop where
  known : r'.Known b
  gone : r'.active b.id = false
  stood : r.active b.id = true ∨ ¬ r.Known b

theorem removed_put {s : Shard} {gone : List Entry} (hd : Drops (r.shards i) gone s)
    (hx : x ∈ gone) : Removed r (r.put i s gone) x.binding := by
  obtain ⟨_, hk⟩ := hd.stood hx
  refine ⟨(hr.entry hk).1, Bool.eq_false_iff.2 fun ha => ?_, .inl (hr.entry hk).2.1⟩
  exact (put_active.1 ha).2 x hx rfl

omit hr

theorem Removed.evolves {r'' : Routes} (h : Removed r r' b) (hev : r'.Evolves r'') : Removed r r'' b := by
  refine ⟨hev.known h.known, Bool.eq_false_iff.2 fun ha => ?_, h.stood⟩
  exact Bool.eq_false_iff.1 h.gone (hev.active h.known ha)

theorem route_removed (hr : r.Inv shardOf) (hshard : shardOf key = i) (hfirst : ∀ w, firstOwner = some w → w < r.count)
    (h : r.route e l i key firstOwner frame now = some (out, r', l')) :
    (∀ x ∈ (r.shards i).overdue now, Removed r r' x.binding) ∧ ∀ x, out = .overflow x → Removed r r' x.binding := by
  obtain ⟨hi, h⟩ := route_cases h
  have hd := drops_expire (r.shards i) now
  have hr0 := hr.put hd
  refine ⟨fun x hx => (removed_put hr hd hx).evolves (h.spec hr0 hi hshard hfirst).1.evolves, fun y hy => ?_⟩
  subst hy
  cases h with
  | found hx hp =>
    cases hp with
    | overflow =>
      have hgone := removed_put hr0 (drops_erase hr0 hx) (mem_singleton_self _)
      exact ⟨hgone.known, hgone.gone, .inl (hr.entry ((put_lookup hd).1 hx).1).2.1⟩
  | inserted hvacant hp =>
    cases hp with
    | overflow =>
      have hnew : (Routes.insertNew _ i key now).Inv shardOf := hr0.insertNew hi hshard hvacant
      have hgone := removed_put hnew (drops_erase hnew (insertNew_lookup.2 (.inl ⟨rfl, rfl, rfl⟩)))
        (mem_singleton_self _)
      exact ⟨hgone.known, hgone.gone, .inr fun hk => lt_irrefl _ hk.lt⟩

theorem Inv.not_owned (hr : r.Inv shardOf) (hgone : r.active b.id = false) (owner : Option Nat) : ¬ r.Owned b owner := by
  rintro ⟨x, hx, rfl, -⟩
  exact Bool.eq_false_iff.1 hgone (hr.entry hx).2.1

theorem finish_removes (hr : r.Inv shardOf) (hb : r.Known b) (h : r.finish l b = some (r', l')) :
    r'.active b.id = false := by
  refine Bool.eq_false_iff.2 fun hactive => ?_
  rcases finish_cases h with ⟨rfl, hnone⟩ | ⟨x, -, hid, rfl⟩
  · obtain ⟨_, x, hx, rfl, -⟩ := hr.live hb hactive
    exact hnone x hx rfl
  · exact (put_active.1 hactive).2 x (mem_singleton_self x) hid

theorem expire_removes (hr : r.Inv shardOf) (hb : r.Known b) (hdue : b.expires ≤ now)
    (h : r.expire l b.shard now = some (r', l')) : r'.active b.id = false := by
  refine Bool.eq_false_iff.2 fun hactive => ?_
  obtain ⟨-, rfl⟩ := expire_eq h
  obtain ⟨hactive, hnone⟩ := put_active.1 hactive
  obtain ⟨_, x, hx, rfl, -⟩ := hr.live hb hactive
  obtain ⟨t, ht, hle⟩ := hr.timely _ hx
  refine hnone x ?_ rfl
  rw [Shard.overdue, ht, if_pos (by simpa using le_trans hle hdue)]
  exact Table.mem_values_of_lookup (lookup_retain.2 ⟨hx, by simpa using hdue⟩)

theorem remove_removes {o : Option Nat} (hb : r.Owned b o) (h : r.remove l b.shard b.key = some (r', l')) :
    r'.active b.id = false := by
  obtain ⟨x, hx, rfl, -⟩ := hb
  rcases remove_cases h with ⟨-, hnone⟩ | ⟨y, hy, rfl⟩
  · cases hnone.symm.trans hx
  · obtain rfl := some.inj (hy.symm.trans hx)
    exact Bool.eq_false_iff.2 fun hactive => (put_active.1 hactive).2 y (mem_singleton_self y) rfl

/-! ## Totals over the entries -/

section Totals
variable {M : Type} [AddCancelCommMonoid M] (f : Entry → M)

/-- `f` summed over the entries of all shards. -/
def total (r : Routes) : M := ∑ i ∈ Finset.range r.count, Table.total f (r.shards i).entries

theorem total_update (r' : Routes) {s : Shard} (hi : i < r.count) (hs : r'.shards = update r.shards i s)
    (hcount : r'.count = r.count) {new out : M}
    (h : Table.total f (r.shards i).entries + new = Table.total f s.entries + out) :
    r.total f + new = r'.total f + out := by
  unfold Routes.total
  rw [hs, hcount]
  exact sum_update_eq (fun s : Shard => Table.total f s.entries) r.shards hi h

theorem total_expire (hi : i < r.count) (now : Nat) :
    r.total f = (r.put i ((r.shards i).expire now) ((r.shards i).overdue now)).total f +
      (((r.shards i).overdue now).map f).sum := by
  have hshard : Table.total f (r.shards i).entries + 0 = Table.total f ((r.shards i).expire now).entries +
      (((r.shards i).overdue now).map f).sum := by
    rw [add_zero]
    unfold Shard.expire Shard.overdue
    split_ifs
    · exact total_retain _ _ _
    · exact (add_zero _).symm
  have := total_update f (r.put i ((r.shards i).expire now) ((r.shards i).overdue now)) hi rfl rfl hshard
  rwa [add_zero] at this

theorem total_erase (hi : i < r.count) (hx : (r.shards i).entries.lookup key = some x) :
    r.total f = (r.erase i key x).total f + f x := by
  have hshard : Table.total f (r.shards i).entries + 0 = Table.total f ((r.shards i).entries.erase key) + f x := by
    rw [add_zero, Table.total_erase f hx, add_comm]
  have := total_update f (r.erase i key x) hi rfl rfl hshard
  rwa [add_zero] at this

theorem total_set {x y : Entry} (hi : i < r.count) (hx : (r.shards i).entries.lookup key = some x) {new out : M}
    (h : f x + new = f y + out) : r.total f + new = (r.set i key y).total f + out := by
  refine total_update f (r.set i key y) (s := ⟨(r.shards i).entries.insert key y, (r.shards i).nextExpiry⟩) hi rfl rfl ?_
  rw [Table.total_erase f hx, Table.total_insert, add_right_comm, h, add_right_comm]

theorem total_insertNew (hi : i < r.count) (hvacant : (r.shards i).entries.lookup key = none) (now : Nat)
    (hnew : f ⟨r.bind i key now, none, none⟩ = 0) : (r.insertNew i key now).total f = r.total f := by
  have hinsert : Table.total f (r.shards i).entries + 0 =
      Table.total f ((r.shards i).entries.insert key ⟨r.bind i key now, none, none⟩) + 0 := by
    rw [total_insert_vacant f hvacant, hnew, zero_add]
  have hshards : (r.insertNew i key now).shards = update r.shards i ⟨_, _⟩ := rfl
  have := total_update f (r.insertNew i key now) hi hshards rfl hinsert
  rwa [add_zero, add_zero, eq_comm] at this

end Totals

end Routes

end Kotoconn.Tun
