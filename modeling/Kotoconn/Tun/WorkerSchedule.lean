import Kotoconn.Tun.Worker

/-! # The scheduling state of a worker -/

namespace Kotoconn.Tun.Worker
open Lib List Option Table AList

variable {env : WorkerEnv} {s s' s'' : Worker env} {w w' : env.World}

structure Item where
  tcp : Bool
  flow : Flow
  generation : Nat
  deadline : Option Nat
  blocked : Bool

namespace Item

def ready (i : Item) : Ready := (i.flow, i.generation)

def ofTcp (flow : Flow) (x : TcpEntry env) : Item := ⟨true, flow, x.generation, x.deadline, x.blocked⟩

def ofUdp (flow : Flow) (x : UdpEntry env) : Item := ⟨false, flow, x.generation, none, x.blocked⟩

theorem generation_ne {i : Item} {id : Ready} {g : Nat} (h : i.ready = id) (hg : id.2 ≠ g) : i.generation ≠ g :=
  fun hi => hg ((congrArg Prod.snd h).symm.trans hi)

end Item

def Live (s : Worker env) (i : Item) : Prop :=
  (∃ flow x, s.tcp.lookup flow = some x ∧ i = .ofTcp flow x) ∨ ∃ flow x, s.udp.lookup flow = some x ∧ i = .ofUdp flow x

structure Scheduled (s : Worker env) : Prop where
  distinct : ∀ {i j}, s.Live i → s.Live j → i.generation = j.generation → i = j
  counted : ∀ {i}, s.Live i → i.generation ≤ s.generation
  timers : ∀ {at_ g flow}, s.timers.lookup (toLex (at_, g)) = some flow ↔
    ∃ x, s.tcp.lookup flow = some x ∧ x.generation = g ∧ x.deadline = some at_
  blocked : ∀ {id}, id ∈ s.blocked.map Prod.fst ↔
    (∃ x, s.tcp.lookup id.1 = some x ∧ x.generation = id.2 ∧ x.blocked = true) ∨
      ∃ x, s.udp.lookup id.1 = some x ∧ x.generation = id.2 ∧ x.blocked = true
  once : (s.blocked.map Prod.fst).Nodup

variable {flow : Flow} {x : TcpEntry env}

theorem live_tcp (h : s.tcp.lookup flow = some x) : s.Live (.ofTcp flow x) :=
  .inl ⟨flow, x, h, rfl⟩

theorem live_udp {x : UdpEntry env} (h : s.udp.lookup flow = some x) : s.Live (.ofUdp flow x) :=
  .inr ⟨flow, x, h, rfl⟩

theorem exists_deadline_iff {at_ g : Nat} :
    (∃ x, s.tcp.lookup flow = some x ∧ x.generation = g ∧ x.deadline = some at_) ↔
      ∃ i, s.Live i ∧ i.ready = (flow, g) ∧ i.deadline = some at_ := by
  constructor
  · rintro ⟨x, hx, rfl, hdeadline⟩
    exact ⟨_, live_tcp hx, rfl, hdeadline⟩
  · rintro ⟨_, ⟨_, x, hx, rfl⟩ | ⟨_, x, hx, rfl⟩, hready, hdeadline⟩
    · obtain ⟨rfl, rfl⟩ := Prod.mk.inj hready
      exact ⟨x, hx, rfl, hdeadline⟩
    · cases hdeadline

theorem exists_blocked_iff {id : Ready} : ((∃ x, s.tcp.lookup id.1 = some x ∧ x.generation = id.2 ∧ x.blocked = true) ∨
      ∃ x, s.udp.lookup id.1 = some x ∧ x.generation = id.2 ∧ x.blocked = true) ↔
      ∃ i, s.Live i ∧ i.ready = id ∧ i.blocked = true := by
  obtain ⟨_, _⟩ := id
  constructor
  · rintro (⟨x, hx, rfl, hblocked⟩ | ⟨x, hx, rfl, hblocked⟩)
    · exact ⟨_, live_tcp hx, rfl, hblocked⟩
    · exact ⟨_, live_udp hx, rfl, hblocked⟩
  · rintro ⟨_, ⟨_, x, hx, rfl⟩ | ⟨_, x, hx, rfl⟩, hready, hblocked⟩
    · obtain ⟨rfl, rfl⟩ := Prod.mk.inj hready
      exact .inl ⟨x, hx, rfl, hblocked⟩
    · obtain ⟨rfl, rfl⟩ := Prod.mk.inj hready
      exact .inr ⟨x, hx, rfl, hblocked⟩

/-! ## One entry changes -/

structure Only (g : Nat) (s s' : Worker env) : Prop where
  tcp : ∀ {flow x}, x.generation ≠ g → (s'.tcp.lookup flow = some x ↔ s.tcp.lookup flow = some x)
  udp : ∀ {flow x}, x.generation ≠ g → (s'.udp.lookup flow = some x ↔ s.udp.lookup flow = some x)
  timers : ∀ {at_ g'}, g' ≠ g → s'.timers.lookup (toLex (at_, g')) = s.timers.lookup (toLex (at_, g'))
  blocked : (s'.blocked.filter fun waiting => waiting.1.2 != g) = s.blocked.filter fun waiting => waiting.1.2 != g

theorem Only.refl (g : Nat) (s : Worker env) : Only g s s := ⟨fun _ => Iff.rfl, fun _ => Iff.rfl, fun _ => rfl, rfl⟩

theorem Only.trans {g : Nat} (h : Only g s s') (h' : Only g s' s'') : Only g s s'' where
  tcp hg := (h'.tcp hg).trans (h.tcp hg)
  udp hg := (h'.udp hg).trans (h.udp hg)
  timers hg := (h'.timers hg).trans (h.timers hg)
  blocked := h'.blocked.trans h.blocked

theorem Only.live {g : Nat} (h : Only g s s') {i : Item} (hi : i.generation ≠ g) : s'.Live i ↔ s.Live i := by
  constructor
  · rintro (⟨flow, x, hx, rfl⟩ | ⟨flow, x, hx, rfl⟩)
    · exact live_tcp ((h.tcp hi).1 hx)
    · exact live_udp ((h.udp hi).1 hx)
  · rintro (⟨flow, x, hx, rfl⟩ | ⟨flow, x, hx, rfl⟩)
    · exact live_tcp ((h.tcp hi).2 hx)
    · exact live_udp ((h.udp hi).2 hx)

theorem Only.mem_blocked {g : Nat} (h : Only g s s') {id : Ready} (hid : id.2 ≠ g) :
    (s'.blocked.map Prod.fst).count id = (s.blocked.map Prod.fst).count id := by
  have hcount : ∀ t : Worker env, (t.blocked.map Prod.fst).count id =
      ((t.blocked.filter fun waiting => waiting.1.2 != g).map Prod.fst).count id := fun t => by
    rw [← count_filter (p := fun id : Ready => id.2 != g) (bne_iff_ne.2 hid), List.filter_map]
    rfl
  rw [hcount, hcount, h.blocked]

/-- The entries of the first state that are older than `s.generation` are all that such entries come from. -/
structure Keeps (s s' : Worker env) : Prop where
  grows : s.generation ≤ s'.generation
  source : ∀ {i}, s'.Live i → i.generation ≤ s.generation → ∃ j, s.Live j ∧ j.tcp = i.tcp ∧ j.ready = i.ready

theorem Keeps.refl (s : Worker env) : Keeps s s := ⟨le_rfl, fun hi _ => ⟨_, hi, rfl, rfl⟩⟩

theorem Keeps.trans (h : Keeps s s') (h' : Keeps s' s'') : Keeps s s'' where
  grows := le_trans h.grows h'.grows
  source hi hg := by
    obtain ⟨_, hj, htcp, hready⟩ := h'.source hi (le_trans hg h.grows)
    obtain ⟨k, hk, htcp', hready'⟩ := h.source hj ((congrArg Prod.snd hready).trans_le hg)
    exact ⟨k, hk, htcp'.trans htcp, hready'.trans hready⟩

/-- The entry of the generation `g` becomes `new`. -/
structure Becomes (g : Nat) (new : Option Item) (s s' : Worker env) : Prop where
  only : Only g s s'
  live : ∀ {i}, i.generation = g → (s'.Live i ↔ new = some i)
  timers : ∀ {at_ flow}, s'.timers.lookup (toLex (at_, g)) = some flow ↔
    ∃ i, new = some i ∧ i.ready = (flow, g) ∧ i.deadline = some at_
  blocked : (s'.blocked.map Prod.fst).filter (fun id => id.2 == g) = (new.filter Item.blocked).toList.map Item.ready
  counted : g ≤ s'.generation
  grows : s.generation ≤ s'.generation
  source : ∀ {i}, new = some i → s.generation < g ∨ ∃ j, s.Live j ∧ j.tcp = i.tcp ∧ j.ready = i.ready

variable {new : Option Item}

theorem Becomes.count {g : Nat} (h : Becomes g new s s') {id : Ready} (hid : id.2 = g) :
    (s'.blocked.map Prod.fst).count id = ((new.filter Item.blocked).toList.map Item.ready).count id := by
  rw [← h.blocked, count_filter (p := fun id : Ready => id.2 == g) (beq_iff_eq.2 hid)]

theorem Becomes.scheduled {g : Nat} (h : Becomes g new s s') (hs : s.Scheduled) : s'.Scheduled where
  distinct := by
    intro i j hi hj heq
    by_cases hg : i.generation = g
    · exact some.inj (((h.live hg).1 hi).symm.trans ((h.live (heq ▸ hg)).1 hj))
    · exact hs.distinct ((h.only.live hg).1 hi) ((h.only.live (heq ▸ hg)).1 hj) heq
  counted := by
    intro i hi
    by_cases hg : i.generation = g
    · rw [hg]
      exact h.counted
    · exact le_trans (hs.counted ((h.only.live hg).1 hi)) h.grows
  timers := by
    intro at_ g' flow
    rw [exists_deadline_iff]
    by_cases hg : g' = g
    · subst hg
      rw [h.timers]
      refine exists_congr fun i => and_congr_left fun hi => ?_
      rw [h.live (congrArg Prod.snd hi.1)]
    · rw [h.only.timers hg, hs.timers, exists_deadline_iff]
      refine exists_congr fun i => and_congr_left fun hi => ?_
      rw [h.only.live (Item.generation_ne hi.1 hg)]
  blocked := by
    intro id
    rw [exists_blocked_iff, ← count_pos_iff]
    by_cases hg : id.2 = g
    · rw [h.count hg, count_pos_iff, List.mem_map]
      refine exists_congr fun i => ?_
      rw [mem_toList, filter_eq_some_iff]
      refine ⟨fun ⟨⟨hnew, hblocked⟩, hready⟩ => ?_, fun ⟨hi, hready, hblocked⟩ => ?_⟩
      · exact ⟨(h.live ((congrArg Prod.snd hready).trans hg)).2 hnew, hready, hblocked⟩
      · exact ⟨⟨(h.live ((congrArg Prod.snd hready).trans hg)).1 hi, hblocked⟩, hready⟩
    · rw [h.only.mem_blocked hg, count_pos_iff, hs.blocked, exists_blocked_iff]
      refine exists_congr fun i => and_congr_left fun hi => ?_
      rw [h.only.live (Item.generation_ne hi.1 hg)]
  once := by
    rw [nodup_iff_count_le_one]
    intro id
    by_cases hg : id.2 = g
    · rw [h.count hg]
      refine le_trans count_le_length ?_
      rw [length_map]
      cases new.filter Item.blocked <;> simp
    · rw [h.only.mem_blocked hg]
      exact nodup_iff_count_le_one.1 hs.once id

theorem Becomes.keeps {g : Nat} (h : Becomes g new s s') : Keeps s s' where
  grows := h.grows
  source := by
    intro i hi hold
    by_cases hg : i.generation = g
    · rcases h.source ((h.live hg).1 hi) with hnew | hsource
      · omega
      · exact hsource
    · exact ⟨i, (h.only.live hg).1 hi, rfl, rfl⟩

/-! ## The tables -/

/-- The generation `g` belongs to the entry of `flow` in one table, if to any, and that entry has no other. -/
structure Slot (s : Worker env) (tcp : Bool) (flow : Flow) (g : Nat) : Prop where
  place : ∀ {i}, s.Live i → i.generation = g → i.tcp = tcp ∧ i.flow = flow
  generation : ∀ {i}, s.Live i → i.tcp = tcp → i.flow = flow → i.generation = g

theorem Scheduled.slot (h : s.Scheduled) {i : Item} (hi : s.Live i) : s.Slot i.tcp i.flow i.generation where
  place hj heq := by
    obtain rfl := h.distinct hj hi heq
    exact ⟨rfl, rfl⟩
  generation := by
    intro j hj htcp hflow
    rcases hi with ⟨flow, x, hx, rfl⟩ | ⟨flow, x, hx, rfl⟩ <;> rcases hj with ⟨flow', y, hy, rfl⟩ | ⟨flow', y, hy, rfl⟩
    · obtain rfl : flow' = flow := hflow
      obtain rfl := some.inj (hx.symm.trans hy)
      rfl
    · cases htcp
    · cases htcp
    · obtain rfl : flow' = flow := hflow
      obtain rfl := some.inj (hx.symm.trans hy)
      rfl

theorem Scheduled.slot_fresh (h : s.Scheduled) {tcp : Bool} {g : Nat} (hg : s.generation < g)
    (hvacant : ∀ {i}, s.Live i → i.tcp = tcp → i.flow ≠ flow) : s.Slot tcp flow g where
  place hi heq := absurd (h.counted hi) (by omega)
  generation hi htcp hflow := absurd hflow (hvacant hi htcp)

section Tables
variable {flow : Flow} {g : Nat} {i : Item}

theorem lookup_insert_only {V : Type} {t : Table Flow V} {n : V → Nat} {x y : V} {f : Flow} (hx : n x = g)
    (hold : ∀ {z}, t.lookup flow = some z → n z = g) (hy : n y ≠ g) :
    (t.insert flow x).lookup f = some y ↔ t.lookup f = some y := by
  rw [lookup_insert_iff]
  constructor
  · rintro (⟨-, rfl⟩ | ⟨-, h⟩)
    · exact absurd hx hy
    · exact h
  · intro h
    refine .inr ⟨?_, h⟩
    rintro rfl
    exact hy (hold h)

theorem lookup_erase_only {V : Type} {t : Table Flow V} {n : V → Nat} {y : V} {f : Flow}
    (hold : ∀ {z}, t.lookup flow = some z → n z = g) (hy : n y ≠ g) :
    (t.erase flow).lookup f = some y ↔ t.lookup f = some y := by
  rw [lookup_erase_iff]
  refine and_iff_right_of_imp fun h => ?_
  rintro rfl
  exact hy (hold h)

theorem Slot.old_tcp (h : s.Slot true flow g) (hx : s.tcp.lookup flow = some x) : x.generation = g :=
  h.generation (live_tcp hx) rfl rfl

theorem Slot.old_udp (h : s.Slot false flow g) {x : UdpEntry env} (hx : s.udp.lookup flow = some x) : x.generation = g :=
  h.generation (live_udp hx) rfl rfl

theorem Slot.live_insertTcp (h : s.Slot true flow g) (hx : x.generation = g)
    (htcp : s'.tcp = s.tcp.insert flow x) (hudp : s'.udp = s.udp) (hi : i.generation = g) :
    s'.Live i ↔ some (.ofTcp flow x) = some i := by
  rw [some_inj, eq_comm]
  constructor
  · rintro (⟨f, y, hy, rfl⟩ | ⟨f, y, hy, rfl⟩)
    · rw [htcp, lookup_insert_iff] at hy
      rcases hy with ⟨rfl, rfl⟩ | ⟨hne, hy⟩
      · rfl
      · exact absurd (h.place (live_tcp hy) hi).2 hne
    · rw [hudp] at hy
      cases (h.place (live_udp hy) hi).1
  · rintro rfl
    exact live_tcp (by rw [htcp, lookup_insert])

theorem Slot.live_eraseTcp (h : s.Slot true flow g) (htcp : s'.tcp = s.tcp.erase flow) (hudp : s'.udp = s.udp)
    (hi : i.generation = g) : s'.Live i ↔ none = some i := by
  refine iff_of_false ?_ nofun
  rintro (⟨f, y, hy, rfl⟩ | ⟨f, y, hy, rfl⟩)
  · rw [htcp, lookup_erase_iff] at hy
    exact absurd (h.place (live_tcp hy.2) hi).2 hy.1
  · rw [hudp] at hy
    cases (h.place (live_udp hy) hi).1

theorem Slot.live_insertUdp (h : s.Slot false flow g) {x : UdpEntry env} (hx : x.generation = g)
    (htcp : s'.tcp = s.tcp) (hudp : s'.udp = s.udp.insert flow x) (hi : i.generation = g) :
    s'.Live i ↔ some (.ofUdp flow x) = some i := by
  rw [some_inj, eq_comm]
  constructor
  · rintro (⟨f, y, hy, rfl⟩ | ⟨f, y, hy, rfl⟩)
    · rw [htcp] at hy
      cases (h.place (live_tcp hy) hi).1
    · rw [hudp, lookup_insert_iff] at hy
      rcases hy with ⟨rfl, rfl⟩ | ⟨hne, hy⟩
      · rfl
      · exact absurd (h.place (live_udp hy) hi).2 hne
  · rintro rfl
    exact live_udp (by rw [hudp, lookup_insert])

theorem Slot.live_eraseUdp (h : s.Slot false flow g) (htcp : s'.tcp = s.tcp) (hudp : s'.udp = s.udp.erase flow)
    (hi : i.generation = g) : s'.Live i ↔ none = some i := by
  refine iff_of_false ?_ nofun
  rintro (⟨f, y, hy, rfl⟩ | ⟨f, y, hy, rfl⟩)
  · rw [htcp] at hy
    cases (h.place (live_tcp hy) hi).1
  · rw [hudp, lookup_erase_iff] at hy
    exact absurd (h.place (live_udp hy.2) hi).2 hy.1

end Tables

/-! ## Timers and waits -/

/-- Timers and waits of the generation `g` are gone, the others as before. -/
structure Quiet (g : Nat) (s s' : Worker env) : Prop where
  tcp : s'.tcp = s.tcp
  udp : s'.udp = s.udp
  generation : s'.generation = s.generation
  stopping : s'.stopping = s.stopping
  timer : ∀ {at_}, s'.timers.lookup (toLex (at_, g)) = none
  timers : ∀ {at_ g'}, g' ≠ g → s'.timers.lookup (toLex (at_, g')) = s.timers.lookup (toLex (at_, g'))
  wait : (s'.blocked.map Prod.fst).filter (fun id => id.2 == g) = []
  waits : (s'.blocked.filter fun waiting => waiting.1.2 != g) = s.blocked.filter fun waiting => waiting.1.2 != g

theorem toLex_ne {a a' g g' : Nat} (h : g' ≠ g) : (toLex (a', g') : Nat ×ₗ Nat) ≠ toLex (a, g) :=
  fun heq => h (congrArg (fun k => (ofLex k).2) heq)

theorem disarm_fields (s : Worker env) (deadline : Option Nat) (g : Nat) : (s.disarm deadline g).tcp = s.tcp ∧
    (s.disarm deadline g).udp = s.udp ∧ (s.disarm deadline g).generation = s.generation ∧
    (s.disarm deadline g).stopping = s.stopping ∧ (s.disarm deadline g).blocked = s.blocked := by
  cases deadline <;> exact ⟨rfl, rfl, rfl, rfl, rfl⟩

theorem unblock_fields (s : Worker env) (id : Ready) (blocked : Bool) : (s.unblock id blocked).tcp = s.tcp ∧
    (s.unblock id blocked).udp = s.udp ∧ (s.unblock id blocked).generation = s.generation ∧
    (s.unblock id blocked).stopping = s.stopping ∧ (s.unblock id blocked).timers = s.timers := by
  cases blocked <;> exact ⟨rfl, rfl, rfl, rfl, rfl⟩

theorem Scheduled.disarm_timer (h : s.Scheduled) {i : Item} (hi : s.Live i) (at_ : Nat) :
    (s.disarm i.deadline i.generation).timers.lookup (toLex (at_, i.generation)) = none := by
  have hold : ∀ {a flow}, s.timers.lookup (toLex (a, i.generation)) = some flow → i.deadline = some a := by
    intro a flow ht
    obtain ⟨_, hj, hready, hdeadline⟩ := exists_deadline_iff.1 (h.timers.1 ht)
    obtain rfl := h.distinct hj hi (congrArg Prod.snd hready)
    exact hdeadline
  cases hdeadline : i.deadline with
  | none =>
    refine eq_none_iff_forall_not_mem.2 fun flow ht => ?_
    cases hdeadline.symm.trans (hold ht)
  | some =>
    refine eq_none_iff_forall_not_mem.2 fun flow ht => ?_
    obtain ⟨hne, ht⟩ := lookup_erase_iff.1 ht
    exact hne (by rw [some.inj ((hold ht).symm.trans hdeadline)])

theorem disarm_timers (s : Worker env) {deadline : Option Nat} {g g' : Nat} (hg : g' ≠ g) (at_ : Nat) :
    (s.disarm deadline g).timers.lookup (toLex (at_, g')) = s.timers.lookup (toLex (at_, g')) := by
  cases deadline with
  | none => rfl
  | some => exact lookup_erase_ne (toLex_ne hg)

theorem Scheduled.unblock_wait (h : s.Scheduled) {i : Item} (hi : s.Live i) :
    ((s.unblock i.ready i.blocked).blocked.map Prod.fst).filter (fun id => id.2 == i.generation) = [] := by
  have hold : ∀ {id}, id ∈ s.blocked.map Prod.fst → id.2 = i.generation → id = i.ready ∧ i.blocked = true := by
    intro id hid hg
    obtain ⟨_, hj, hready, hblocked⟩ := exists_blocked_iff.1 (h.blocked.1 hid)
    obtain rfl := h.distinct hj hi ((congrArg Prod.snd hready).trans hg)
    exact ⟨hready.symm, hblocked⟩
  rw [filter_eq_nil_iff]
  intro id hid hg
  rw [beq_iff_eq] at hg
  unfold unblock at hid
  split_ifs at hid with hblocked
  · obtain ⟨_, hwaiting, rfl⟩ := List.mem_map.1 hid
    obtain ⟨hwaiting, hne⟩ := mem_filter.1 hwaiting
    exact bne_iff_ne.1 hne (hold (List.mem_map_of_mem hwaiting) hg).1
  · exact hblocked (hold hid hg).2

theorem unblock_waits (s : Worker env) (id : Ready) (blocked : Bool) :
    ((s.unblock id blocked).blocked.filter fun waiting => waiting.1.2 != id.2) =
      s.blocked.filter fun waiting => waiting.1.2 != id.2 := by
  unfold unblock
  split_ifs
  · rw [List.filter_filter]
    refine filter_congr fun waiting _ => ?_
    rw [Bool.eq_iff_iff, Bool.and_eq_true, bne_iff_ne, bne_iff_ne]
    exact and_iff_left_of_imp fun hne heq => hne (congrArg Prod.snd heq)
  · rfl

theorem Scheduled.quiet (h : s.Scheduled) {i : Item} (hi : s.Live i) :
    Quiet i.generation s ((s.disarm i.deadline i.generation).unblock i.ready i.blocked) := by
  obtain ⟨htcp, hudp, hgen, hstopping, hblocked⟩ := disarm_fields s i.deadline i.generation
  obtain ⟨htcp', hudp', hgen', hstopping', htimers'⟩ :=
    unblock_fields (s.disarm i.deadline i.generation) i.ready i.blocked
  have hsame : ((s.disarm i.deadline i.generation).unblock i.ready i.blocked).blocked =
      (s.unblock i.ready i.blocked).blocked := by
    unfold unblock
    split_ifs
    · rw [hblocked]
    · exact hblocked
  exact {
    tcp := htcp'.trans htcp
    udp := hudp'.trans hudp
    generation := hgen'.trans hgen
    stopping := hstopping'.trans hstopping
    timer := by rw [htimers']; exact h.disarm_timer hi _
    timers := fun hg => by rw [htimers']; exact disarm_timers s hg _
    wait := by rw [hsame]; exact h.unblock_wait hi
    waits := by rw [hsame]; exact unblock_waits s i.ready i.blocked }

theorem Scheduled.quiet_fresh (h : s.Scheduled) {g : Nat} (hg : s.generation < g) : Quiet g s s where
  tcp := rfl
  udp := rfl
  generation := rfl
  stopping := rfl
  timer := by
    refine eq_none_iff_forall_not_mem.2 fun flow ht => ?_
    obtain ⟨j, hj, hready, -⟩ := exists_deadline_iff.1 (h.timers.1 ht)
    have hgen : j.generation = g := congrArg Prod.snd hready
    have := h.counted hj
    omega
  timers _ := rfl
  wait := by
    rw [filter_eq_nil_iff]
    intro id hid hg'
    obtain ⟨j, hj, hready, -⟩ := exists_blocked_iff.1 (h.blocked.1 hid)
    have hgen : j.generation = g := (congrArg Prod.snd hready).trans (beq_iff_eq.1 hg')
    have := h.counted hj
    omega
  waits := rfl

theorem Scheduled.wait_eq (h : s.Scheduled) {i : Item} (hi : s.Live i) :
    (s.blocked.map Prod.fst).filter (fun id => id.2 == i.generation) = if i.blocked then [i.ready] else [] := by
  have hold : ∀ id ∈ (s.blocked.map Prod.fst).filter (fun id => id.2 == i.generation),
      id = i.ready ∧ i.blocked = true := by
    intro id hid
    obtain ⟨hid, hg⟩ := mem_filter.1 hid
    obtain ⟨_, hj, hready, hblocked⟩ := exists_blocked_iff.1 (h.blocked.1 hid)
    obtain rfl := h.distinct hj hi ((congrArg Prod.snd hready).trans (beq_iff_eq.1 hg))
    exact ⟨hready.symm, hblocked⟩
  split_ifs with hblocked
  · have hmem : i.ready ∈ (s.blocked.map Prod.fst).filter (fun id => id.2 == i.generation) :=
      mem_filter.2 ⟨h.blocked.2 (exists_blocked_iff.2 ⟨i, hi, rfl, hblocked⟩), beq_self_eq_true _⟩
    have hnodup := h.once.filter (fun id : Ready => id.2 == i.generation)
    refine (perm_singleton.1 ?_)
    rw [perm_ext_iff_of_nodup hnodup (nodup_singleton _)]
    intro id
    rw [mem_singleton]
    exact ⟨fun hid => (hold id hid).1, fun heq => heq ▸ hmem⟩
  · exact eq_nil_iff_forall_not_mem.2 fun id hid => hblocked (hold id hid).2

/-! ## The changes -/

theorem Quiet.becomes {g b : Nat} {s₁ : Worker env} (q : Quiet g s s₁) (hnew : ∀ {i}, new = some i → i.generation = g ∧
      (s.generation < g ∨ ∃ j, s.Live j ∧ j.tcp = i.tcp ∧ j.ready = i.ready))
    (htcp : ∀ {flow x}, x.generation ≠ g → (s'.tcp.lookup flow = some x ↔ s.tcp.lookup flow = some x))
    (hudp : ∀ {flow x}, x.generation ≠ g → (s'.udp.lookup flow = some x ↔ s.udp.lookup flow = some x))
    (hlive : ∀ {i}, i.generation = g → (s'.Live i ↔ new = some i))
    (htimers : s'.timers = match new.bind fun i => i.deadline.map fun at_ => (at_, i.flow) with
      | some (at_, flow) => s₁.timers.insert (toLex (at_, g)) flow
      | none => s₁.timers)
    (hblocked : s'.blocked = s₁.blocked ++ (new.filter Item.blocked).toList.map fun i => (i.ready, b))
    (hcounted : g ≤ s'.generation) (hgrows : s.generation ≤ s'.generation) : Becomes g new s s' where
  only := by
    refine ⟨htcp, hudp, fun {at_ g'} hg => ?_, ?_⟩
    · rw [htimers, ← q.timers hg]
      split
      · exact lookup_insert_ne (toLex_ne hg)
      · rfl
    · rw [hblocked, filter_append, q.waits, append_right_eq_self, filter_eq_nil_iff]
      intro waiting hwaiting hne
      obtain ⟨i, hi, rfl⟩ := List.mem_map.1 hwaiting
      rw [mem_toList, filter_eq_some_iff] at hi
      exact bne_iff_ne.1 hne (hnew hi.1).1
  live := hlive
  timers := by
    intro at_ flow
    rw [htimers]
    cases new with
    | none => simp [q.timer]
    | some i =>
      obtain ⟨_, flow', g', deadline, blocked⟩ := i
      obtain rfl : g' = g := (hnew rfl).1
      cases deadline with
      | none => simp [q.timer]
      | some a =>
        change (s₁.timers.insert (toLex (a, g')) flow').lookup (toLex (at_, g')) = some flow ↔ _
        rw [lookup_insert_iff, q.timer]
        constructor
        · rintro (⟨hkey, rfl⟩ | ⟨-, hnone⟩)
          · exact ⟨_, rfl, rfl, congrArg (fun k => some (ofLex k).1) hkey.symm⟩
          · cases hnone
        · rintro ⟨i, hi, hready, hdeadline⟩
          obtain rfl := some.inj hi
          exact .inl ⟨by rw [some.inj hdeadline], (congrArg Prod.fst hready).symm⟩
  blocked := by
    rw [hblocked, map_append, filter_append, q.wait, nil_append, List.map_map]
    refine filter_eq_self.2 fun id hid => ?_
    obtain ⟨_, hi, rfl⟩ := List.mem_map.1 hid
    rw [mem_toList, filter_eq_some_iff] at hi
    exact beq_iff_eq.2 (hnew hi.1).1
  counted := hcounted
  grows := hgrows
  source hi := (hnew hi).2

theorem Scheduled.becomes (h : s.Scheduled) {i j : Item} (hi : s.Live i) (htcp' : j.tcp = i.tcp)
    (hready : j.ready = i.ready) (hdeadline : j.deadline = i.deadline)
    (htcp : ∀ {flow x}, x.generation ≠ i.generation → (s'.tcp.lookup flow = some x ↔ s.tcp.lookup flow = some x))
    (hudp : ∀ {flow x}, x.generation ≠ i.generation → (s'.udp.lookup flow = some x ↔ s.udp.lookup flow = some x))
    (hlive : ∀ {k}, k.generation = i.generation → (s'.Live k ↔ some j = some k)) (htimers : s'.timers = s.timers)
    (hwait : (s'.blocked.map Prod.fst).filter (fun id => id.2 == i.generation) = if j.blocked then [j.ready] else [])
    (hwaits : (s'.blocked.filter fun waiting => waiting.1.2 != i.generation) =
      s.blocked.filter fun waiting => waiting.1.2 != i.generation)
    (hgen : s'.generation = s.generation) : Becomes i.generation (some j) s s' where
  only := ⟨htcp, hudp, fun _ => by rw [htimers], hwaits⟩
  live := hlive
  timers := by
    intro at_ flow
    rw [htimers, h.timers, exists_deadline_iff]
    constructor
    · rintro ⟨k, hk, hkready, hkdeadline⟩
      obtain rfl := h.distinct hk hi (congrArg Prod.snd hkready)
      exact ⟨j, rfl, hready.trans hkready, hdeadline.trans hkdeadline⟩
    · rintro ⟨_, hk, hkready, hkdeadline⟩
      obtain rfl := some.inj hk
      exact ⟨i, hi, hready.symm.trans hkready, hdeadline.symm.trans hkdeadline⟩
  blocked := by
    rw [hwait]
    cases hblocked : j.blocked <;> simp [Option.filter, hblocked]
  counted := hgen ▸ h.counted hi
  grows := hgen.ge
  source hk := .inr ⟨i, hi, by rw [← some.inj hk, htcp'], by rw [← some.inj hk, hready]⟩

theorem Scheduled.becomes_tcp (h : s.Scheduled) (hx : s.tcp.lookup flow = some x) (connection : env.Connection) :
    Becomes x.generation (some (.ofTcp flow x)) s { s with tcp := s.tcp.insert flow { x with connection } } := by
  have hslot := h.slot (live_tcp hx)
  refine h.becomes (live_tcp hx) rfl rfl rfl ?_ (fun _ => Iff.rfl) ?_ rfl (h.wait_eq (live_tcp hx)) rfl rfl
  · exact lookup_insert_only (n := TcpEntry.generation) rfl hslot.old_tcp
  · exact hslot.live_insertTcp (x := { x with connection }) rfl rfl rfl

theorem Scheduled.becomes_udp (h : s.Scheduled) {x y : UdpEntry env} (hx : s.udp.lookup flow = some x)
    (hgen : y.generation = x.generation) (hblocked : y.blocked = x.blocked) :
    Becomes x.generation (some (.ofUdp flow y)) s { s with udp := s.udp.insert flow y } := by
  have hslot := h.slot (live_udp hx)
  have hsame : Item.ofUdp flow y = .ofUdp flow x := by rw [Item.ofUdp, Item.ofUdp, hgen, hblocked]
  refine h.becomes (live_udp hx) rfl (by rw [hsame]) rfl (fun _ => Iff.rfl) ?_ ?_ rfl ?_ rfl rfl
  · exact lookup_insert_only (n := UdpEntry.generation) hgen hslot.old_udp
  · exact hslot.live_insertUdp hgen rfl rfl
  · rw [hsame]
    exact h.wait_eq (live_udp hx)

section Quiet
variable {g b : Nat} {flow : Flow} {s₁ : Worker env}

theorem Quiet.insertTcp (q : Quiet g s s₁) (hslot : s.Slot true flow g) {y : TcpEntry env} (hy : y.generation = g)
    (hsource : s.generation < g ∨ ∃ x, s.tcp.lookup flow = some x) (htcp : s'.tcp = s₁.tcp.insert flow y)
    (hudp : s'.udp = s₁.udp) (htimers : s'.timers = match y.deadline with
      | some at_ => s₁.timers.insert (toLex (at_, g)) flow
      | none => s₁.timers)
    (hblocked : s'.blocked = s₁.blocked ++ if y.blocked then [((flow, g), b)] else [])
    (hcounted : g ≤ s'.generation) (hgrows : s.generation ≤ s'.generation) :
    Becomes g (some (.ofTcp flow y)) s s' := by
  rw [q.tcp] at htcp
  rw [q.udp] at hudp
  refine q.becomes (b := b) ?_ (fun hz => ?_) (fun _ => by rw [hudp]) (hslot.live_insertTcp hy htcp hudp) ?_ ?_
    hcounted hgrows
  · rintro i hi
    obtain rfl := some.inj hi
    refine ⟨hy, hsource.imp_right fun ⟨x, hx⟩ => ⟨_, live_tcp hx, rfl, ?_⟩⟩
    exact congrArg (flow, ·) ((hslot.old_tcp hx).trans hy.symm)
  · rw [htcp]
    exact lookup_insert_only (n := TcpEntry.generation) hy hslot.old_tcp hz
  · rw [htimers, bind_some, Item.ofTcp]
    cases y.deadline <;> rfl
  · rw [hblocked, Item.ofTcp, hy]
    cases y.blocked <;> rfl

theorem Quiet.eraseTcp (q : Quiet g s s₁) (hslot : s.Slot true flow g) (htcp : s'.tcp = s₁.tcp.erase flow)
    (hudp : s'.udp = s₁.udp) (htimers : s'.timers = s₁.timers) (hblocked : s'.blocked = s₁.blocked)
    (hcounted : g ≤ s'.generation) (hgrows : s.generation ≤ s'.generation) : Becomes g none s s' := by
  rw [q.tcp] at htcp
  rw [q.udp] at hudp
  refine q.becomes (b := 0) nofun (fun hz => ?_) (fun _ => by rw [hudp]) (hslot.live_eraseTcp htcp hudp) htimers
    (hblocked.trans (append_nil _).symm) hcounted hgrows
  rw [htcp]
  exact lookup_erase_only (n := TcpEntry.generation) hslot.old_tcp hz

theorem Quiet.insertUdp (q : Quiet g s s₁) (hslot : s.Slot false flow g) {y : UdpEntry env} (hy : y.generation = g)
    (hsource : s.generation < g ∨ ∃ x, s.udp.lookup flow = some x) (htcp : s'.tcp = s₁.tcp)
    (hudp : s'.udp = s₁.udp.insert flow y) (htimers : s'.timers = s₁.timers)
    (hblocked : s'.blocked = s₁.blocked ++ if y.blocked then [((flow, g), b)] else [])
    (hcounted : g ≤ s'.generation) (hgrows : s.generation ≤ s'.generation) : Becomes g (some (.ofUdp flow y)) s s' := by
  rw [q.tcp] at htcp
  rw [q.udp] at hudp
  refine q.becomes (b := b) ?_ (fun _ => by rw [htcp]) (fun hz => ?_) (hslot.live_insertUdp hy htcp hudp) htimers
    ?_ hcounted hgrows
  · rintro i hi
    obtain rfl := some.inj hi
    refine ⟨hy, hsource.imp_right fun ⟨x, hx⟩ => ⟨_, live_udp hx, rfl, ?_⟩⟩
    exact congrArg (flow, ·) ((hslot.old_udp hx).trans hy.symm)
  · rw [hudp]
    exact lookup_insert_only (n := UdpEntry.generation) hy hslot.old_udp hz
  · rw [hblocked, Item.ofUdp, hy]
    cases y.blocked <;> rfl

theorem Quiet.eraseUdp (q : Quiet g s s₁) (hslot : s.Slot false flow g) (htcp : s'.tcp = s₁.tcp)
    (hudp : s'.udp = s₁.udp.erase flow) (htimers : s'.timers = s₁.timers) (hblocked : s'.blocked = s₁.blocked)
    (hcounted : g ≤ s'.generation) (hgrows : s.generation ≤ s'.generation) : Becomes g none s s' := by
  rw [q.tcp] at htcp
  rw [q.udp] at hudp
  refine q.becomes (b := 0) nofun (fun _ => by rw [htcp]) (fun hz => ?_) (hslot.live_eraseUdp htcp hudp) htimers
    (hblocked.trans (append_nil _).symm) hcounted hgrows
  rw [hudp]
  exact lookup_erase_only (n := UdpEntry.generation) hslot.old_udp hz

end Quiet

end Kotoconn.Tun.Worker
