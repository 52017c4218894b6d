import Kotoconn.Lib.Table

/-!
# `client.rs`: the pool of sessions

`Pool` with `prune`, `reuse`, `markIdle`, `insert`, `drain`; `none` is a failed assertion.

A handle is the number of its session.
-/

namespace Kotoconn.AnyTls
open Lib List Option Table AList

/-- An `Instant`; `turn` is a ghost, the order of the calls of `mark_idle`. -/
structure Moment where
  time : Nat
  turn : Nat

structure Slot where
  handle : Nat
  idleSince : Option Moment

structure Pool where
  sessions : Table Nat Slot
  idle : List Nat
  sequence : Nat
  draining : Bool
  /-- ghost -/
  turn : Nat

namespace Pool

def new : Pool := ⟨∅, [], 0, false, 0⟩

def keeps (closed : Nat → Bool) (now timeout : Nat) (slot : Slot) : Bool :=
  !closed slot.handle && slot.idleSince.all fun since => now - since.time < timeout

def prune (p : Pool) (closed : Nat → Bool) (now timeout : Nat) : Pool :=
  { p with
    sessions := p.sessions.retain (keeps closed now timeout)
    idle := p.idle.filter (· ∈ p.sessions.retain (keeps closed now timeout)) }

def take (p : Pool) (id : Nat) (slot : Slot) : Pool :=
  { p with idle := p.idle.dropLast, sessions := p.sessions.insert id { slot with idleSince := none } }

def reuse (p : Pool) (closed : Nat → Bool) (now timeout : Nat) : Option (Option Nat × Pool) :=
  let p := p.prune closed now timeout
  match p.idle.getLast? with
  | none => some (none, p)
  | some id =>
    match p.sessions.lookup id with
    | none => none
    | some slot =>
      if slot.idleSince.isSome then some (some slot.handle, p.take id slot) else none

def markIdle (p : Pool) (id now : Nat) : Option Pool :=
  if p.draining then some { p with sessions := p.sessions.erase id }
  else match p.sessions.lookup id with
    | none => some p
    | some slot =>
      if slot.idleSince.isSome then none
      else some { p with
        sessions := p.sessions.insert id { slot with idleSince := some ⟨now, p.turn⟩ }
        idle := p.idle ++ [id]
        turn := p.turn + 1 }

/-- `new_session` enters its session. -/
def insert (p : Pool) (id : Nat) : Pool := { p with sessions := p.sessions.insert id ⟨id, none⟩ }

def drain (p : Pool) : Pool :=
  { p with draining := true, sessions := p.sessions.retain (·.idleSince.isNone), idle := [] }

def moment (p : Pool) (id : Nat) : Option Moment := (p.sessions.lookup id).bind Slot.idleSince

def Before (p : Pool) (a b : Nat) : Prop :=
  ∀ ⦃x y⦄, p.moment a = some x → p.moment b = some y → x.time ≤ y.time ∧ x.turn < y.turn

structure Inv (p : Pool) (now : Nat) : Prop where
  nodup : p.idle.Nodup
  idle : ∀ id, id ∈ p.idle ↔ (p.moment id).isSome
  ordered : p.idle.Pairwise p.Before
  past : ∀ ⦃id x⦄, p.moment id = some x → x.time ≤ now ∧ x.turn < p.turn
  handle : ∀ ⦃id slot⦄, p.sessions.lookup id = some slot → slot.handle = id
  drained : p.draining = true → p.idle = []

variable {p p' : Pool} {now timeout id : Nat} {closed : Nat → Bool}

theorem inv_new : new.Inv 0 where
  nodup := nodup_nil
  idle _ := ⟨nofun, nofun⟩
  ordered := .nil
  past := nofun
  handle := nofun
  drained _ := rfl

variable {x : Moment}

theorem moment_eq_some :
    p.moment id = some x ↔ ∃ slot, p.sessions.lookup id = some slot ∧ slot.idleSince = some x := bind_eq_some_iff

structure Within (p p' : Pool) : Prop where
  slots : ∀ ⦃id slot⦄, p'.sessions.lookup id = some slot → ∃ slot', p.sessions.lookup id = some slot'
  moments : ∀ ⦃id x⦄, p'.moment id = some x → p.moment id = some x
  sequence : p'.sequence = p.sequence
  draining : p.draining = true → p'.draining = true

theorem Within.trans {p'' : Pool} (h : Within p p') (h' : Within p' p'') : Within p p'' where
  slots _ _ hslot := by
    obtain ⟨_, hslot'⟩ := h'.slots hslot
    exact h.slots hslot'
  moments _ _ hx := h.moments (h'.moments hx)
  sequence := h'.sequence.trans h.sequence
  draining hd := h'.draining (h.draining hd)

theorem Inv.within (h : p.Inv now) (hwithin : Within p p') (hsublist : p'.idle.Sublist p.idle)
    (hidle : ∀ id, id ∈ p'.idle ↔ (p'.moment id).isSome) (hturn : p'.turn = p.turn)
    (hhandle : ∀ ⦃id slot⦄, p'.sessions.lookup id = some slot → slot.handle = id)
    (hdrained : p'.draining = true → p'.idle = []) : p'.Inv now where
  nodup := h.nodup.sublist hsublist
  idle := hidle
  ordered := by
    refine (h.ordered.sublist hsublist).imp ?_
    intro a b hab x y hx hy
    exact hab (hwithin.moments hx) (hwithin.moments hy)
  past id x hx := by
    rw [hturn]
    exact h.past (hwithin.moments hx)
  handle := hhandle
  drained := hdrained

theorem Inv.later (h : p.Inv now) {now' : Nat} (hle : now ≤ now') : p.Inv now' :=
  { h with past := fun _ _ hx => ⟨le_trans (h.past hx).1 hle, (h.past hx).2⟩ }

/-! ## `prune` and `drain` -/

variable {slot : Slot}

theorem lookup_prune : (p.prune closed now timeout).sessions.lookup id = some slot ↔
    p.sessions.lookup id = some slot ∧ keeps closed now timeout slot = true := lookup_retain

theorem moment_prune : (p.prune closed now timeout).moment id = some x ↔
    ∃ slot, p.sessions.lookup id = some slot ∧ keeps closed now timeout slot = true ∧ slot.idleSince = some x := by
  rw [moment_eq_some]
  refine exists_congr fun slot => ?_
  rw [lookup_prune, and_assoc]

theorem prune_within (p : Pool) (closed : Nat → Bool) (now timeout : Nat) : Within p (p.prune closed now timeout) where
  slots _ _ h := ⟨_, (lookup_prune.1 h).1⟩
  moments _ _ h := by
    obtain ⟨slot, hslot, -, hx⟩ := moment_prune.1 h
    exact moment_eq_some.2 ⟨slot, hslot, hx⟩
  sequence := rfl
  draining h := h

theorem Inv.prune (h : p.Inv now) (closed : Nat → Bool) (timeout : Nat) : (p.prune closed now timeout).Inv now := by
  have hwithin := prune_within p closed now timeout
  refine h.within hwithin filter_sublist (fun id => ?_) rfl (fun id slot hslot => h.handle (lookup_prune.1 hslot).1)
    fun hd => ?_
  · have hmem : id ∈ (p.prune closed now timeout).idle ↔
        id ∈ p.idle ∧ ∃ slot, (p.prune closed now timeout).sessions.lookup id = some slot := by
      refine mem_filter.trans (and_congr_right' ?_)
      rw [decide_eq_true_iff, ← lookup_isSome, isSome_iff_exists]
      exact Iff.rfl
    rw [hmem, h.idle, isSome_iff_exists, isSome_iff_exists]
    constructor
    · rintro ⟨⟨x, hx⟩, slot, hslot⟩
      obtain ⟨_, hslot', hx⟩ := moment_eq_some.1 hx
      obtain ⟨hlookup, hkeeps⟩ := lookup_prune.1 hslot
      cases hlookup.symm.trans hslot'
      exact ⟨x, moment_prune.2 ⟨slot, hlookup, hkeeps, hx⟩⟩
    · rintro ⟨x, hx⟩
      obtain ⟨slot, hslot, -⟩ := moment_eq_some.1 hx
      exact ⟨⟨x, hwithin.moments hx⟩, slot, hslot⟩
  · show p.idle.filter _ = []
    rw [h.drained hd]
    rfl

theorem moment_drain (p : Pool) (id : Nat) : p.drain.moment id = none := by
  cases hx : p.drain.moment id with
  | none => rfl
  | some =>
    obtain ⟨_, hslot, hx⟩ := moment_eq_some.1 hx
    have hnone := (lookup_retain.1 hslot).2
    rw [hx] at hnone
    cases hnone

theorem drain_within (p : Pool) : Within p p.drain where
  slots _ _ h := ⟨_, (lookup_retain.1 h).1⟩
  moments id x h := by
    rw [moment_drain] at h
    cases h
  sequence := rfl
  draining _ := rfl

theorem Inv.drain (h : p.Inv now) : p.drain.Inv now := by
  refine h.within (drain_within p) (nil_sublist _) (fun id => ?_) rfl
    (fun id slot hslot => h.handle (lookup_retain.1 hslot).1) fun _ => rfl
  rw [moment_drain]
  exact ⟨nofun, nofun⟩

/-! ## `reuse` -/

theorem moment_take (v : Nat) : (p.take id slot).moment v = if v = id then none else p.moment v := by
  unfold moment take
  split_ifs with hv
  · rw [hv, lookup_insert]
    rfl
  · rw [lookup_insert_ne hv]

theorem Inv.take (h : p.Inv now) (hslot : p.sessions.lookup id = some slot)
    (hlast : p.idle.getLast? = some id) : (p.take id slot).Inv now ∧ Within p (p.take id slot) := by
  have hidle : p.idle = p.idle.dropLast ++ [id] := (dropLast_append_getLast? id hlast).symm
  have hfresh : id ∉ p.idle.dropLast := by
    have hnodup := h.nodup
    rw [hidle] at hnodup
    exact fun hin => (nodup_append.1 hnodup).2.2 id hin id (mem_singleton_self id) rfl
  have hwithin : Within p (p.take id slot) := by
    refine ⟨fun v slot' hslot' => ?_, fun v x hx => ?_, rfl, fun hd => hd⟩
    · rcases lookup_insert_iff.1 hslot' with ⟨rfl, -⟩ | ⟨-, hslot'⟩
      · exact ⟨slot, hslot⟩
      · exact ⟨slot', hslot'⟩
    · rw [moment_take] at hx
      split_ifs at hx
      exact hx
  refine ⟨h.within hwithin (dropLast_sublist _) (fun v => ?_) rfl (fun v slot' hslot' => ?_) fun hd => ?_, hwithin⟩
  · show v ∈ p.idle.dropLast ↔ _
    rw [moment_take]
    split_ifs with hv
    · exact ⟨fun hin => absurd (hv ▸ hin) hfresh, nofun⟩
    · rw [← h.idle v, hidle, mem_append, mem_singleton]
      simp [hv]
  · rcases lookup_insert_iff.1 hslot' with ⟨rfl, rfl⟩ | ⟨-, hslot'⟩
    · show slot.handle = _
      exact h.handle hslot
    · exact h.handle hslot'
  · show p.idle.dropLast = []
    rw [h.drained hd]
    rfl

/-- What `reuse` answers: the live session that became idle last, unless all are expired. -/
def Reused (p : Pool) (closed : Nat → Bool) (now timeout : Nat) : Option Nat → Prop
  | none => ∀ ⦃id x⦄, p.moment id = some x → closed id = true ∨ timeout ≤ now - x.time
  | some id => ∃ x, p.moment id = some x ∧ closed id = false ∧ now - x.time < timeout ∧
    ∀ ⦃id' x'⦄, p.moment id' = some x' → closed id' = false → x'.turn ≤ x.turn

theorem keeps_eq_true (hx : slot.idleSince = some x) :
    keeps closed now timeout slot = true ↔ closed slot.handle = false ∧ now - x.time < timeout := by
  unfold keeps
  rw [hx, Bool.and_eq_true, Bool.not_eq_true', all_some, decide_eq_true_iff]

theorem moment_prune_iff (h : p.Inv now) : (p.prune closed now timeout).moment id = some x ↔
    p.moment id = some x ∧ closed id = false ∧ now - x.time < timeout := by
  rw [moment_prune, moment_eq_some]
  constructor
  · rintro ⟨slot, hslot, hkeeps, hx⟩
    rw [keeps_eq_true hx, h.handle hslot] at hkeeps
    exact ⟨⟨slot, hslot, hx⟩, hkeeps⟩
  · rintro ⟨⟨slot, hslot, hx⟩, hkeeps⟩
    rw [← h.handle hslot, ← keeps_eq_true hx] at hkeeps
    exact ⟨slot, hslot, hkeeps, hx⟩

theorem Inv.compare (h : p.Inv now) {a b : Nat} {x y : Moment} (hx : p.moment a = some x) (hy : p.moment b = some y)
    (hne : a ≠ b) : p.Before a b ∨ p.Before b a := by
  have hmem : ∀ {v z}, p.moment v = some z → v ∈ p.idle := fun hz => (h.idle _).2 (isSome_iff_exists.2 ⟨_, hz⟩)
  have hsymm : Std.Symm fun a b => p.Before a b ∨ p.Before b a := ⟨fun _ _ => Or.symm⟩
  have hall : p.idle.Pairwise fun a b => p.Before a b ∨ p.Before b a := h.ordered.imp .inl
  exact hall.forall (hmem hx) (hmem hy) hne

theorem Inv.last (h : p.Inv now) (hlast : p.idle.getLast? = some id) {v : Nat} {x y : Moment} (hx : p.moment id = some x)
    (hy : p.moment v = some y) (hne : id ≠ v) : y.turn < x.turn := by
  have hidle : p.idle = p.idle.dropLast ++ [id] := (dropLast_append_getLast? id hlast).symm
  have hordered := h.ordered
  have hin := (h.idle v).2 (isSome_iff_exists.2 ⟨y, hy⟩)
  rw [hidle] at hordered hin
  rcases mem_append.1 hin with hin | hin
  · exact ((pairwise_append.1 hordered).2.2 v hin id (mem_singleton_self id) hy hx).2
  · exact absurd (mem_singleton.1 hin).symm hne

/-- **`reuse` takes the live session that became idle last.** -/
theorem Inv.reuse (h : p.Inv now) (closed : Nat → Bool) (timeout : Nat) :
    ∃ result p', p.reuse closed now timeout = some (result, p') ∧ p'.Inv now ∧ Within p p' ∧
      Reused p closed now timeout result ∧ ∀ id, result = some id → p'.moment id = none := by
  have hpruned := h.prune closed timeout
  have hwithin := prune_within p closed now timeout
  have hmem : ∀ {v z}, (p.prune closed now timeout).moment v = some z → v ∈ (p.prune closed now timeout).idle :=
    fun hz => (hpruned.idle _).2 (isSome_iff_exists.2 ⟨_, hz⟩)
  unfold Pool.reuse
  cases hlast : (p.prune closed now timeout).idle.getLast? with
  | none =>
    simp only [hlast]
    refine ⟨none, _, rfl, hpruned, hwithin, fun id x hx => ?_, nofun⟩
    by_contra hkept
    rw [not_or, Bool.not_eq_true, Nat.not_le] at hkept
    have hin := hmem ((moment_prune_iff h).2 ⟨hx, hkept⟩)
    rw [getLast?_eq_none_iff.1 hlast] at hin
    cases hin
  | some id =>
    have hin : id ∈ (p.prune closed now timeout).idle := mem_of_getLast? hlast
    obtain ⟨x, hx⟩ := isSome_iff_exists.1 ((hpruned.idle id).1 hin)
    obtain ⟨_, hslot, hsince⟩ := moment_eq_some.1 hx
    obtain ⟨hx', hlive, hfresh⟩ := (moment_prune_iff h).1 hx
    obtain ⟨htaken, hwithin'⟩ := hpruned.take hslot hlast
    simp only [hlast, hslot, hsince, isSome_some, if_true]
    refine ⟨_, _, rfl, htaken, hwithin.trans hwithin', ?_, ?_⟩
    · rw [hpruned.handle hslot]
      refine ⟨x, hx', hlive, hfresh, fun id' x' hid' hlive' => Nat.not_lt.1 fun hlater => ?_⟩
      -- a later one is not expired either, so it was kept, and the last of those kept is `id`
      have hne : id ≠ id' := by
        rintro rfl
        cases hx'.symm.trans hid'
        exact lt_irrefl _ hlater
      rcases h.compare hx' hid' hne with hbefore | hbefore
      · have htime := (hbefore hx' hid').1
        have hkept := (moment_prune_iff h).2 ⟨hid', hlive', lt_of_le_of_lt (Nat.sub_le_sub_left htime now) hfresh⟩
        exact Nat.lt_asymm hlater (hpruned.last hlast hx hkept hne)
      · exact Nat.lt_asymm hlater (hbefore hid' hx').2
    · intro v hv
      rw [← some.inj hv, hpruned.handle hslot, moment_take, if_pos rfl]

/-! ## `mark_idle` and new sessions -/

theorem moment_insert (slot : Slot) (v : Nat) : moment { p with sessions := p.sessions.insert id slot } v =
    if v = id then slot.idleSince else p.moment v := by
  unfold moment
  split_ifs with hv
  · rw [hv]
    exact congrArg (Option.bind · Slot.idleSince) (lookup_insert p.sessions)
  · exact congrArg (Option.bind · Slot.idleSince) (lookup_insert_ne hv)

theorem moment_insert_vacant (hvacant : p.sessions.lookup id = none) (v : Nat) : (p.insert id).moment v = p.moment v := by
  refine (moment_insert ⟨id, none⟩ v).trans ?_
  split_ifs with hv
  · rw [hv, moment, hvacant]
    rfl
  · rfl

theorem Inv.insert (h : p.Inv now) (hvacant : p.sessions.lookup id = none) : (p.insert id).Inv now := by
  have hmoment := moment_insert_vacant hvacant
  refine ⟨h.nodup, fun v => ?_, ?_, fun v x hx => h.past ((hmoment v).symm.trans hx), fun v slot hslot => ?_, h.drained⟩
  · rw [hmoment]
    exact h.idle v
  · refine h.ordered.imp ?_
    intro a b hab x y hx hy
    exact hab ((hmoment a).symm.trans hx) ((hmoment b).symm.trans hy)
  · rcases lookup_insert_iff.1 hslot with ⟨rfl, rfl⟩ | ⟨-, hslot⟩
    · rfl
    · exact h.handle hslot

/-- What `mark_idle` does: at most this session becomes idle. -/
structure Marked (p : Pool) (id : Nat) (p' : Pool) : Prop where
  slots : ∀ ⦃v slot⦄, p'.sessions.lookup v = some slot → ∃ slot', p.sessions.lookup v = some slot'
  moments : ∀ ⦃v x⦄, p'.moment v = some x → v = id ∨ p.moment v = some x
  sequence : p'.sequence = p.sequence
  draining : p'.draining = p.draining

theorem Inv.erase (h : p.Inv now) (hd : p.draining = true) :
    Inv { p with sessions := p.sessions.erase id } now ∧ Marked p id { p with sessions := p.sessions.erase id } := by
  have hnone : ∀ v, p.moment v = none := by
    intro v
    refine not_isSome_iff_eq_none.1 fun hsome => ?_
    have hin := (h.idle v).2 hsome
    rw [h.drained hd] at hin
    cases hin
  have hwithin : Within p { p with sessions := p.sessions.erase id } := by
    refine ⟨fun v slot hslot => ⟨slot, (lookup_erase_iff.1 hslot).2⟩, fun v x hx => ?_, rfl, fun hd => hd⟩
    obtain ⟨slot, hslot, hx⟩ := moment_eq_some.1 hx
    exact moment_eq_some.2 ⟨slot, (lookup_erase_iff.1 hslot).2, hx⟩
  refine ⟨h.within hwithin (.refl _) (fun v => ?_) rfl (fun v slot hslot => ?_) h.drained, hwithin.slots,
    fun v x hx => .inr (hwithin.moments hx), rfl, rfl⟩
  · rw [h.drained hd]
    refine ⟨nofun, fun hsome => ?_⟩
    obtain ⟨_, hx⟩ := isSome_iff_exists.1 hsome
    cases (hnone v).symm.trans (hwithin.moments hx)
  · exact h.handle (lookup_erase_iff.1 hslot).2

theorem Inv.mark (h : p.Inv now) (hslot : p.sessions.lookup id = some slot) (hidle : p.moment id = none)
    (hd : p.draining = false) (hp' : p' = { p with
      sessions := p.sessions.insert id { slot with idleSince := some ⟨now, p.turn⟩ }
      idle := p.idle ++ [id]
      turn := p.turn + 1 }) : p'.Inv now ∧ Marked p id p' := by
  have hmoment : ∀ v, p'.moment v = if v = id then some ⟨now, p.turn⟩ else p.moment v := by
    rw [hp']
    exact fun v => moment_insert _ v
  have hold : ∀ {v}, v ∈ p.idle → v ≠ id := by
    rintro v hv rfl
    have hsome := (h.idle v).1 hv
    rw [hidle] at hsome
    cases hsome
  have hmoments : ∀ {v x}, p'.moment v = some x → (v = id ∧ x = ⟨now, p.turn⟩) ∨ (v ≠ id ∧ p.moment v = some x) := by
    intro v x hx
    rw [hmoment] at hx
    split_ifs at hx with hv
    · exact .inl ⟨hv, (some.inj hx).symm⟩
    · exact .inr ⟨hv, hx⟩
  have hslots : ∀ {v slot'}, p'.sessions.lookup v = some slot' →
      (v = id ∧ slot' = { slot with idleSince := some ⟨now, p.turn⟩ }) ∨ (v ≠ id ∧ p.sessions.lookup v = some slot') := by
    rw [hp']
    exact lookup_insert_iff.1
  have hidle' : p'.idle = p.idle ++ [id] := by rw [hp']
  refine ⟨⟨?_, fun v => ?_, ?_, fun v x hx => ?_, fun v slot' hslot' => ?_, fun hd' => ?_⟩,
    fun v slot' hslot' => ?_, fun v x hx => (hmoments hx).imp And.left And.right, by rw [hp'], by rw [hp']⟩
  · rw [hidle']
    exact nodup_append.2 ⟨h.nodup, nodup_singleton id, fun v hv w hw heq =>
      hold hv (heq.trans (mem_singleton.1 hw))⟩
  · rw [hidle', mem_append, mem_singleton, hmoment]
    split_ifs with hv
    · exact ⟨fun _ => rfl, fun _ => .inr hv⟩
    · rw [h.idle v]
      exact ⟨fun hor => hor.resolve_right hv, .inl⟩
  · rw [hidle']
    refine pairwise_append.2 ⟨?_, pairwise_singleton _ _, fun v hv w hw x y hx hy => ?_⟩
    · refine h.ordered.imp_of_mem ?_
      intro a b ha hb hab x y hx hy
      rw [hmoment, if_neg (hold ha)] at hx
      rw [hmoment, if_neg (hold hb)] at hy
      exact hab hx hy
    · rw [hmoment, if_neg (hold hv)] at hx
      rw [hmoment, if_pos (mem_singleton.1 hw)] at hy
      cases hy
      exact h.past hx
  · have hturn : p'.turn = p.turn + 1 := by rw [hp']
    rw [hturn]
    rcases hmoments hx with ⟨-, rfl⟩ | ⟨-, hx⟩
    · exact ⟨le_rfl, lt_add_one _⟩
    · exact ⟨(h.past hx).1, Nat.lt_succ_of_lt (h.past hx).2⟩
  · rcases hslots hslot' with ⟨rfl, rfl⟩ | ⟨-, hslot'⟩
    · show slot.handle = v
      exact h.handle hslot
    · exact h.handle hslot'
  · rw [hp'] at hd'
    exact absurd (hd.symm.trans hd') Bool.false_ne_true
  · rcases hslots hslot' with ⟨rfl, -⟩ | ⟨-, hslot'⟩
    · exact ⟨slot, hslot⟩
    · exact ⟨slot', hslot'⟩

/-- **`mark_idle` of a session that is not idle.** -/
theorem Inv.markIdle (h : p.Inv now) (hidle : p.moment id = none) :
    ∃ p', p.markIdle id now = some p' ∧ p'.Inv now ∧ Marked p id p' := by
  unfold Pool.markIdle
  by_cases hd : p.draining = true
  · rw [if_pos hd]
    exact ⟨_, rfl, h.erase hd⟩
  · rw [if_neg hd]
    cases hslot : p.sessions.lookup id with
    | none => exact ⟨p, rfl, h, fun v slot hs => ⟨slot, hs⟩, fun v x hx => .inr hx, rfl, rfl⟩
    | some slot =>
      have hnone : slot.idleSince = none := by
        unfold moment at hidle
        rw [hslot] at hidle
        exact hidle
      simp only [hnone, isSome_none]
      exact ⟨_, rfl, h.mark hslot hidle (Bool.eq_false_iff.2 hd) rfl⟩

end Pool

end Kotoconn.AnyTls
