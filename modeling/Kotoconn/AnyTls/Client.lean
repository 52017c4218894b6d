import Kotoconn.AnyTls.Load
import Kotoconn.AnyTls.Pool

/-!
# `client.rs`: a client, its sessions and its openers

`Client.Step`: a step of an opener (`connect`, `new_session`, `Handle::open`), of a session, of the cleanup task, or
`drain`. Openers are cancelled at any time; sessions fail at any time.
-/

namespace Kotoconn.AnyTls
open Lib Option Function

/-- A caller of `connect` that did not queue its `Open` yet. -/
inductive Opener where
  /-- `new_session`, up to its number -/
  | connecting
  | numbered (id : Nat)
  | started (id : Nat)
  | reserved (id : Nat)

def Opener.session : Opener → Option Nat
  | connecting => none
  | numbered id | started id | reserved id => some id

structure Client where
  timeout : Nat
  pool : Pool
  sessions : Nat → Option Session
  openers : Nat → Option Opener
  now : Nat

namespace Client

def new (timeout : Nat) : Client := ⟨timeout, .new, fun _ => none, fun _ => none, 0⟩

/-- The token `closed` of a session. -/
def closed (c : Client) (id : Nat) : Bool := (c.sessions id).any Session.ended

def setOpener (c : Client) (k : Nat) (opener : Option Opener) : Client :=
  { c with openers := update c.openers k opener }

def setSession (c : Client) (id : Nat) (s : Session) : Client :=
  { c with sessions := update c.sessions id (some s) }

inductive Step : Client → Client → Prop
  -- the openers
  | connect {c : Client} {k : Nat} (hk : c.openers k = none) {result : Option Nat} {pool : Pool}
      (h : c.pool.reuse c.closed c.now c.timeout = some (result, pool)) :
      Step c ({ c with pool }.setOpener k (some (result.elim .connecting .reserved)))
  | number {c : Client} {k : Nat} (hk : c.openers k = some .connecting) (h : c.pool.sequence + 1 < 2 ^ 64) :
      Step c ({ c with pool := { c.pool with sequence := c.pool.sequence + 1 } }.setOpener k
        (some (.numbered (c.pool.sequence + 1))))
  | start {c : Client} {k id : Nat} (hk : c.openers k = some (.numbered id)) :
      Step c ((c.setSession id (.new true)).setOpener k (some (.started id)))
  | insert {c : Client} {k id : Nat} (hk : c.openers k = some (.started id)) :
      Step c ({ c with pool := c.pool.insert id }.setOpener k (some (.reserved id)))
  /-- The `Open` is queued; from here on the stream belongs to the session or to its owner. -/
  | queue {c : Client} {k id : Nat} {s s' : Session} (hk : c.openers k = some (.reserved id))
      (hs : c.sessions id = some s) (h : Session.Step s .opening s') : Step c ((c.setSession id s').setOpener k none)
  | cancel {c : Client} {k : Nat} {opener : Opener} (hk : c.openers k = some opener) : Step c (c.setOpener k none)
  -- the sessions
  | session {c : Client} {id : Nat} {s s' : Session} (hs : c.sessions id = some s) (h : Session.Step s .other s') :
      Step c (c.setSession id s')
  | idle {c : Client} {id : Nat} {s s' : Session} (hs : c.sessions id = some s) (h : Session.Step s .idle s') {pool : Pool}
      (hpool : c.pool.markIdle id c.now = some pool) : Step c ({ c with pool }.setSession id s')
  -- the cleanup task, `drain` and time
  | prune {c : Client} : Step c { c with pool := c.pool.prune c.closed c.now c.timeout }
  | drain {c : Client} : Step c { c with pool := c.pool.drain }
  | tick {c : Client} {now : Nat} (h : c.now ≤ now) : Step c { c with now }

abbrev Run : Client → Client → Prop := Relation.ReflTransGen Step

inductive Reachable (timeout : Nat) : Client → Prop
  | new : Reachable timeout (new timeout)
  | step {c c' : Client} (h : Reachable timeout c) (hstep : Step c c') : Reachable timeout c'

/-! ## Invariants -/

def Free (c : Client) (id : Nat) : Prop := ∃ s, c.sessions id = some s ∧ s.load = 0

structure Inv (c : Client) : Prop where
  pool : c.pool.Inv c.now
  sessions : ∀ ⦃id s⦄, c.sessions id = some s → Session.Reachable true s ∧ s.load ≤ 1 ∧ id ≤ c.pool.sequence
  slots : ∀ ⦃id slot⦄, c.pool.sessions.lookup id = some slot → ∃ s, c.sessions id = some s
  numbered : ∀ ⦃k id⦄, c.openers k = some (.numbered id) → c.sessions id = none ∧ id ≤ c.pool.sequence
  started : ∀ ⦃k id⦄, c.openers k = some (.started id) → c.pool.sessions.lookup id = none ∧ c.Free id
  reserved : ∀ ⦃k id⦄, c.openers k = some (.reserved id) → c.Free id
  single : ∀ ⦃k k' opener opener' id⦄, c.openers k = some opener → c.openers k' = some opener' →
    opener.session = some id → opener'.session = some id → k = k'
  idle : ∀ ⦃id x⦄, c.pool.moment id = some x → c.Free id ∧ ∀ k opener, c.openers k = some opener → opener.session ≠ some id

theorem inv_new (timeout : Nat) : (new timeout).Inv where
  pool := Pool.inv_new
  sessions := nofun
  slots := nofun
  numbered := nofun
  started := nofun
  reserved := nofun
  single := nofun
  idle := nofun

variable {c c' : Client} {k id : Nat} {opener : Opener} {s s' : Session} {pool : Pool}

variable (h : c.Inv)
include h

theorem Inv.le_sequence (hk : c.openers k = some opener) (hid : opener.session = some id) :
    id ≤ c.pool.sequence := by
  cases opener with
  | connecting => cases hid
  | numbered =>
    cases hid
    exact (h.numbered hk).2
  | started =>
    cases hid
    obtain ⟨s, hs, -⟩ := (h.started hk).2
    exact (h.sessions hs).2.2
  | reserved =>
    cases hid
    obtain ⟨_, hs, -⟩ := h.reserved hk
    exact (h.sessions hs).2.2

theorem Inv.move {o : Option Opener}
    (hnumbered : ∀ {id}, o = some (.numbered id) → c.sessions id = none ∧ id ≤ c.pool.sequence)
    (hstarted : ∀ {id}, o = some (.started id) → c.pool.sessions.lookup id = none ∧ c.Free id)
    (hreserved : ∀ {id}, o = some (.reserved id) → c.Free id)
    (hsingle : ∀ {opener id}, o = some opener → opener.session = some id → c.pool.moment id = none ∧
      ∀ k' opener', k' ≠ k → c.openers k' = some opener' → opener'.session ≠ some id) : (c.setOpener k o).Inv := by
  have hopeners : ∀ {k' opener}, (c.setOpener k o).openers k' = some opener →
      (k' = k ∧ o = some opener) ∨ (k' ≠ k ∧ c.openers k' = some opener) := update_eq_some.1
  refine ⟨h.pool, h.sessions, h.slots, fun k' id hk' => ?_, fun k' id hk' => ?_, fun k' id hk' => ?_, ?_, fun id x hx => ?_⟩
  · rcases hopeners hk' with ⟨-, ho⟩ | ⟨-, hk'⟩
    · exact hnumbered ho
    · exact h.numbered hk'
  · rcases hopeners hk' with ⟨-, ho⟩ | ⟨-, hk'⟩
    · exact hstarted ho
    · exact h.started hk'
  · rcases hopeners hk' with ⟨-, ho⟩ | ⟨-, hk'⟩
    · exact hreserved ho
    · exact h.reserved hk'
  · intro k₁ k₂ opener₁ opener₂ id h₁ h₂ hid₁ hid₂
    rcases hopeners h₁ with ⟨hk₁, ho₁⟩ | ⟨hne₁, hold₁⟩ <;> rcases hopeners h₂ with ⟨hk₂, ho₂⟩ | ⟨hne₂, hold₂⟩
    · exact hk₁.trans hk₂.symm
    · exact absurd hid₂ ((hsingle ho₁ hid₁).2 k₂ opener₂ hne₂ hold₂)
    · exact absurd hid₁ ((hsingle ho₂ hid₂).2 k₁ opener₁ hne₁ hold₁)
    · exact h.single hold₁ hold₂ hid₁ hid₂
  · refine ⟨(h.idle hx).1, fun k' opener hk' hid => ?_⟩
    rcases hopeners hk' with ⟨-, ho⟩ | ⟨-, hk'⟩
    · cases (hsingle ho hid).1.symm.trans hx
    · exact (h.idle hx).2 k' opener hk' hid

theorem Inv.shrink (hpool : pool.Inv c.now) (hwithin : Pool.Within c.pool pool) : Inv { c with pool } where
  pool := hpool
  sessions id s hs := by
    rw [hwithin.sequence]
    exact h.sessions hs
  slots id slot hslot := by
    obtain ⟨slot', hslot'⟩ := hwithin.slots hslot
    exact h.slots hslot'
  numbered k id hk := by
    rw [hwithin.sequence]
    exact h.numbered hk
  started k id hk := by
    refine ⟨not_isSome_iff_eq_none.1 fun hsome => ?_, (h.started hk).2⟩
    obtain ⟨_, hslot⟩ := isSome_iff_exists.1 hsome
    obtain ⟨_, hslot'⟩ := hwithin.slots hslot
    cases (h.started hk).1.symm.trans hslot'
  reserved := h.reserved
  single := h.single
  idle id x hx := h.idle (hwithin.moments hx)

def Unclaimed (c : Client) (id : Nat) : Prop :=
  c.pool.moment id = none ∧ ∀ k opener, c.openers k = some opener → opener.session ≠ some id

theorem Inv.setSession (hid : id ≤ c.pool.sequence) (hnumbered : ∀ k, c.openers k ≠ some (.numbered id))
    (hreach : Session.Reachable true s') (hload : s'.load ≤ 1) (hfree : s'.load = 0 ∨ c.Unclaimed id) :
    (c.setSession id s').Inv := by
  have hsessions : ∀ {v s''}, (c.setSession id s').sessions v = some s'' →
      (v = id ∧ some s' = some s'') ∨ (v ≠ id ∧ c.sessions v = some s'') := update_eq_some.1
  have hkept : ∀ {v}, ¬ c.Unclaimed v → c.Free v → (c.setSession id s').Free v := by
    rintro v hclaimed ⟨s'', hs'', hload''⟩
    by_cases hv : v = id
    · subst hv
      exact ⟨s', update_eq_some.2 (.inl ⟨rfl, rfl⟩), hfree.resolve_right hclaimed⟩
    · exact ⟨s'', update_eq_some.2 (.inr ⟨hv, hs''⟩), hload''⟩
  refine ⟨h.pool, fun v s'' hs'' => ?_, fun v slot hslot => ?_, fun k v hk => ⟨?_, (h.numbered hk).2⟩,
    fun k v hk => ⟨(h.started hk).1, hkept (fun hu => hu.2 k _ hk rfl) (h.started hk).2⟩,
    fun k v hk => hkept (fun hu => hu.2 k _ hk rfl) (h.reserved hk), h.single, fun v x hx => ⟨?_, (h.idle hx).2⟩⟩
  · rcases hsessions hs'' with ⟨rfl, heq⟩ | ⟨-, hs''⟩
    · cases heq
      exact ⟨hreach, hload, hid⟩
    · exact h.sessions hs''
  · by_cases hv : v = id
    · exact ⟨s', update_eq_some.2 (.inl ⟨hv, rfl⟩)⟩
    · obtain ⟨s'', hs''⟩ := h.slots hslot
      exact ⟨s'', update_eq_some.2 (.inr ⟨hv, hs''⟩)⟩
  · have hv : v ≠ id := by
      rintro rfl
      exact hnumbered k hk
    exact (update_of_ne hv _ _).trans (h.numbered hk).1
  · refine hkept (fun hu => ?_) (h.idle hx).1
    cases hu.1.symm.trans hx

theorem Inv.session (hs : c.sessions id = some s) (hreach : Session.Reachable true s') (hload : s'.load ≤ 1)
    (hfree : s'.load = 0 ∨ c.Unclaimed id) : (c.setSession id s').Inv := by
  refine h.setSession (h.sessions hs).2.2 (fun k hk => ?_) hreach hload hfree
  cases hs.symm.trans (h.numbered hk).1

theorem Inv.unclaimed (hs : c.sessions id = some s) (hload : s.load ≠ 0) : c.Unclaimed id := by
  have hbusy : ¬ c.Free id := by
    rintro ⟨_, hs', hfree⟩
    cases hs.symm.trans hs'
    exact hload hfree
  refine ⟨eq_none_iff_forall_ne_some.2 fun x hx => hbusy (h.idle hx).1, fun k opener hk hid => ?_⟩
  cases opener with
  | connecting => cases hid
  | numbered =>
    cases hid
    cases hs.symm.trans (h.numbered hk).1
  | started =>
    cases hid
    exact hbusy (h.started hk).2
  | reserved =>
    cases hid
    exact hbusy (h.reserved hk)

theorem Inv.leave (k : Nat) : (c.setOpener k none).Inv := h.move nofun nofun nofun nofun

theorem Inv.not_idle (hk : c.openers k = some opener) (hid : opener.session = some id) :
    c.pool.moment id = none := by
  cases hx : c.pool.moment id with
  | none => rfl
  | some => exact absurd hid ((h.idle hx).2 k opener hk)

theorem Inv.others (hk : c.openers k = some opener) (hid : opener.session = some id) :
    ∀ k' opener', k' ≠ k → c.openers k' = some opener' → opener'.session ≠ some id :=
  fun _ _ hne hk' hid' => hne (h.single hk' hk hid' hid)

theorem Inv.connect {result : Option Nat}
    (hreuse : c.pool.reuse c.closed c.now c.timeout = some (result, pool)) :
    ({ c with pool }.setOpener k (some (result.elim .connecting .reserved))).Inv := by
  obtain ⟨_, _, hreuse', hpool, hwithin, hreused, htaken⟩ := h.pool.reuse c.closed c.timeout
  cases hreuse.symm.trans hreuse'
  have hshrunk := h.shrink hpool hwithin
  cases result with
  | none => exact hshrunk.move nofun nofun nofun fun ho hid => by cases ho; cases hid
  | some id =>
    obtain ⟨_, hx, -⟩ := hreused
    refine hshrunk.move nofun nofun (fun ho => ?_) (fun ho hid => ?_)
    · cases ho
      exact (h.idle hx).1
    · cases ho
      cases hid
      exact ⟨htaken id rfl, fun k' opener' _ hk' => (h.idle hx).2 k' opener' hk'⟩

theorem Inv.number : ({ c with pool := { c.pool with sequence := c.pool.sequence + 1 } }.setOpener k
      (some (.numbered (c.pool.sequence + 1)))).Inv := by
  have hnew : ∀ {s}, c.sessions (c.pool.sequence + 1) ≠ some s := fun hs =>
    Nat.not_succ_le_self _ (h.sessions hs).2.2
  have hraised : Inv { c with pool := { c.pool with sequence := c.pool.sequence + 1 } } :=
    { h with
      pool := { h.pool with }
      sessions := fun id s hs => ⟨(h.sessions hs).1, (h.sessions hs).2.1, Nat.le_succ_of_le (h.sessions hs).2.2⟩
      numbered := fun k id hk => ⟨(h.numbered hk).1, Nat.le_succ_of_le (h.numbered hk).2⟩ }
  refine hraised.move (fun ho => ?_) nofun nofun fun ho hid => ?_
  · cases ho
    exact ⟨eq_none_iff_forall_ne_some.2 fun s => hnew, le_rfl⟩
  · cases ho
    cases hid
    refine ⟨eq_none_iff_forall_ne_some.2 fun x hx => ?_, fun k' opener' _ hk' hid' => ?_⟩
    · obtain ⟨_, hs, -⟩ := (h.idle hx).1
      exact hnew hs
    · exact Nat.not_succ_le_self _ (h.le_sequence hk' hid')

theorem Inv.unclaimed_leave (hk : c.openers k = some opener) (hid : opener.session = some id) :
    (c.setOpener k none).Unclaimed id := by
  refine ⟨h.not_idle hk hid, fun k' opener' hk' => ?_⟩
  rcases update_eq_some.1 hk' with ⟨-, hnone⟩ | ⟨hne, hk'⟩
  · cases hnone
  · exact h.others hk hid k' opener' hne hk'

omit h

theorem setOpener_setOpener (c : Client) (k : Nat) (o o' : Option Opener) :
    (c.setOpener k o).setOpener k o' = c.setOpener k o' := by
  unfold setOpener
  simp only [update_idem]

variable (h : c.Inv)
include h

theorem Inv.start (hk : c.openers k = some (.numbered id)) :
    ((c.setSession id (.new true)).setOpener k (some (.started id))).Inv := by
  have hunclaimed := h.unclaimed_leave hk rfl
  have hstarted : ((c.setOpener k none).setSession id (.new true)).Inv :=
    (h.leave k).setSession (h.numbered hk).2 (fun k' hk' => hunclaimed.2 k' _ hk' rfl) .new (zero_le) (.inl rfl)
  have hvacant : c.pool.sessions.lookup id = none := by
    refine eq_none_iff_forall_ne_some.2 fun slot hslot => ?_
    obtain ⟨_, hs⟩ := h.slots hslot
    cases hs.symm.trans (h.numbered hk).1
  rw [← setOpener_setOpener _ k none]
  refine hstarted.move nofun (fun ho => ?_) nofun fun ho hid => ?_
  · cases ho
    exact ⟨hvacant, _, update_self _ _ _, rfl⟩
  · cases ho
    cases hid
    exact ⟨hunclaimed.1, fun k' opener' _ hk' => hunclaimed.2 k' opener' hk'⟩

theorem Inv.insert (hk : c.openers k = some (.started id)) :
    ({ c with pool := c.pool.insert id }.setOpener k (some (.reserved id))).Inv := by
  have hunclaimed := h.unclaimed_leave hk rfl
  obtain ⟨hvacant, hfree⟩ := h.started hk
  have hleft := h.leave k
  have hmoment : ∀ v, (c.pool.insert id).moment v = c.pool.moment v := Pool.moment_insert_vacant hvacant
  have hinserted : Inv { c.setOpener k none with pool := c.pool.insert id } := by
    refine { hleft with
      pool := h.pool.insert hvacant
      slots := fun v slot hslot => ?_
      started := fun k' v hk' => ⟨?_, (hleft.started hk').2⟩
      idle := fun v x hx => hleft.idle ((hmoment v).symm.trans hx) }
    · rcases Table.lookup_insert_iff.1 hslot with ⟨rfl, -⟩ | ⟨-, hslot⟩
      · obtain ⟨s, hs, -⟩ := hfree
        exact ⟨s, hs⟩
      · exact h.slots hslot
    · have hv : v ≠ id := by
        rintro rfl
        exact hunclaimed.2 k' _ hk' rfl
      exact (AList.lookup_insert_ne hv).trans (hleft.started hk').1
  have hmoved := hinserted.move (k := k) (o := some (.reserved id)) nofun nofun (fun ho => ?_) fun ho hid => ?_
  · rw [← setOpener_setOpener _ k none]
    exact hmoved
  · cases ho
    exact hfree
  · cases ho
    cases hid
    exact ⟨(hmoment id).trans hunclaimed.1, fun k' opener' _ hk' => hunclaimed.2 k' opener' hk'⟩

theorem Inv.load (hs : c.sessions id = some s) {event : Session.Event} (hstep : Session.Step s event s') :
    Session.Reachable true s' ∧ s'.load + event.leaves ≤ s.load + event.enters :=
  have hreach := (h.sessions hs).1
  ⟨hreach.step hstep, hstep.load hreach.inv hreach.client⟩

theorem Inv.queue (hk : c.openers k = some (.reserved id)) (hs : c.sessions id = some s)
    (hstep : Session.Step s .opening s') : ((c.setSession id s').setOpener k none).Inv := by
  obtain ⟨hreach, hload⟩ := h.load hs hstep
  obtain ⟨_, hs₀, hfree⟩ := h.reserved hk
  cases hs.symm.trans hs₀
  rw [hfree] at hload
  exact (h.leave k).session hs hreach hload (.inr (h.unclaimed_leave hk rfl))

theorem Inv.other (hs : c.sessions id = some s) (hstep : Session.Step s .other s') :
    (c.setSession id s').Inv := by
  obtain ⟨hreach, hload⟩ := h.load hs hstep
  refine h.session hs hreach (le_trans hload (h.sessions hs).2.1) ?_
  by_cases hzero : s.load = 0
  · exact .inl (Nat.le_zero.1 (hzero ▸ hload))
  · exact .inr (h.unclaimed hs hzero)

theorem Inv.becomes_idle (hs : c.sessions id = some s) (hstep : Session.Step s .idle s') :
    c.Unclaimed id ∧ s'.load = 0 := by
  obtain ⟨-, hload⟩ := h.load hs hstep
  have hone := (h.sessions hs).2.1
  have hload' : s'.load + 1 ≤ s.load := hload
  exact ⟨h.unclaimed hs (by omega), by omega⟩

theorem Inv.markIdle (hs : c.sessions id = some s) (hstep : Session.Step s .idle s')
    (hpool : c.pool.markIdle id c.now = some pool) : ({ c with pool }.setSession id s').Inv := by
  obtain ⟨hunclaimed, hload⟩ := h.becomes_idle hs hstep
  obtain ⟨_, hpool', hinv, hmarked⟩ := h.pool.markIdle hunclaimed.1
  cases hpool.symm.trans hpool'
  have hstepped := h.session hs (h.load hs hstep).1 (hload ▸ zero_le) (.inl hload)
  refine { hstepped with
    pool := hinv
    sessions := fun v s'' hs'' => ?_
    slots := fun v slot hslot => ?_
    numbered := fun k v hk => ?_
    started := fun k v hk => ⟨?_, (hstepped.started hk).2⟩
    idle := fun v x hx => ?_ }
  · exact hmarked.sequence ▸ hstepped.sessions hs''
  · obtain ⟨slot', hslot'⟩ := hmarked.slots hslot
    exact hstepped.slots hslot'
  · exact hmarked.sequence ▸ hstepped.numbered hk
  · refine eq_none_iff_forall_ne_some.2 fun slot hslot => ?_
    obtain ⟨_, hslot'⟩ := hmarked.slots hslot
    cases (h.started hk).1.symm.trans hslot'
  · rcases hmarked.moments hx with rfl | hx
    · exact ⟨⟨s', update_self _ _ _, hload⟩, hunclaimed.2⟩
    · exact hstepped.idle hx

omit h

theorem Step.inv (hstep : Step c c') (h : c.Inv) : c'.Inv := by
  cases hstep with
  | connect _ hreuse => exact h.connect hreuse
  | number => exact h.number
  | start hk => exact h.start hk
  | insert hk => exact h.insert hk
  | queue hk hs hopening => exact h.queue hk hs hopening
  | cancel => exact h.leave _
  | session hs hother => exact h.other hs hother
  | idle hs hidle hpool => exact h.markIdle hs hidle hpool
  | prune => exact h.shrink (h.pool.prune _ _) (Pool.prune_within _ _ _ _)
  | drain => exact h.shrink h.pool.drain (Pool.drain_within _)
  | tick hle => exact { h with pool := h.pool.later hle }

theorem Reachable.inv {timeout : Nat} (h : Reachable timeout c) : c.Inv := by
  induction h with
  | new => exact inv_new timeout
  | step _ hstep ih => exact hstep.inv ih

theorem Step.draining (hstep : Step c c') (h : c.Inv) (hd : c.pool.draining = true) : c'.pool.draining = true := by
  cases hstep with
  | connect _ hreuse =>
    obtain ⟨_, pool', hreuse', -, hwithin, -⟩ := h.pool.reuse c.closed c.timeout
    cases hreuse.symm.trans hreuse'
    exact hwithin.draining hd
  | idle hs hidle hpool =>
    obtain ⟨_, hpool', -, hmarked⟩ := h.pool.markIdle (h.becomes_idle hs hidle).1.1
    cases hpool.symm.trans hpool'
    exact hmarked.draining.trans hd
  | drain => rfl
  | number => exact hd
  | start => exact hd
  | insert => exact hd
  | queue => exact hd
  | cancel => exact hd
  | session => exact hd
  | prune => exact hd
  | tick => exact hd

theorem Run.draining (hrun : Run c c') (h : c.Inv) (hd : c.pool.draining = true) : c'.Inv ∧ c'.pool.draining = true := by
  induction hrun with
  | refl => exact ⟨h, hd⟩
  | tail _ hstep ih => exact ⟨hstep.inv ih.1, hstep.draining ih.1 ih.2⟩

/-! ## Who has a session -/

/-- The session has no stream, and will not get one: no `Open` waits or is being processed. -/
def Quiet (c : Client) (id : Nat) : Prop :=
  ∃ s, c.sessions id = some s ∧ s.entries = ∅ ∧ (∀ address, .opening address ∉ s.messages) ∧ ∀ sid, s.doing ≠ .opening sid

theorem Inv.quiet (h : c.Inv) (hfree : c.Free id) : c.Quiet id := by
  obtain ⟨s, hs, hload⟩ := hfree
  obtain ⟨⟨hopening, hcard⟩, -⟩ := (Nat.add_eq_zero_iff.1 hload).imp_left Nat.add_eq_zero_iff.1
  have hentries := Finset.card_eq_zero.1 hcard
  refine ⟨s, hs, hentries, fun address hin => List.countP_eq_zero.1 hopening _ hin rfl, fun sid hdoing => ?_⟩
  have hentry := (h.sessions hs).1.inv.opening hdoing
  rw [hentries] at hentry
  exact Finset.notMem_empty _ hentry

structure Exclusive (c : Client) : Prop where
  /-- `idle` are the pooled sessions whose `idleSince` is set. -/
  nodup : c.pool.idle.Nodup
  idle : ∀ id, id ∈ c.pool.idle ↔ ∃ slot, c.pool.sessions.lookup id = some slot ∧ slot.idleSince.isSome = true
  quiet : ∀ ⦃id slot⦄, c.pool.sessions.lookup id = some slot → slot.idleSince.isSome = true →
    c.Quiet id ∧ ∀ k opener, c.openers k = some opener → opener.session ≠ some id
  /-- A session that was handed to a caller is quiet until its `Open`, and no other caller has it. -/
  reserved : ∀ ⦃k id⦄, c.openers k = some (.reserved id) →
    c.Quiet id ∧ ∀ k' opener, c.openers k' = some opener → opener.session = some id → k' = k
  /-- An `Open` finds no other entry. -/
  opening : ∀ ⦃id s address messages⦄, c.sessions id = some s → s.messages = .opening address :: messages →
    s.client = true ∧ s.entries = ∅
  mark : ∀ ⦃id s s'⦄, c.sessions id = some s → Session.Step s .idle s' →
    (∀ slot, c.pool.sessions.lookup id = some slot → slot.idleSince = none) ∧ (c.pool.markIdle id c.now).isSome = true
  /-- `reuse` takes the live session that became idle last. -/
  reuse : ∃ result pool, c.pool.reuse c.closed c.now c.timeout = some (result, pool) ∧
    Pool.Reused c.pool c.closed c.now c.timeout result
  /-- After `drain` no session is idle in the pool, now or later. -/
  drained : ∀ c', Run { c with pool := c.pool.drain } c' → c'.pool.idle = [] ∧
    ∀ id slot, c'.pool.sessions.lookup id = some slot → slot.idleSince = none

theorem Inv.opening (h : c.Inv) {address : Bytes} {messages : List Message} (hs : c.sessions id = some s)
    (hmsgs : s.messages = .opening address :: messages) : s.client = true ∧ s.entries = ∅ := by
  obtain ⟨hreach, hload, -⟩ := h.sessions hs
  refine ⟨hreach.client, Finset.card_eq_zero.1 ?_⟩
  unfold Session.load at hload
  rw [hmsgs, List.countP_cons_of_pos rfl] at hload
  omega

/-- **No session of the pool is handed to two callers.** -/
theorem Reachable.exclusive {timeout : Nat} (h : Reachable timeout c) : Exclusive c := by
  have hinv := h.inv
  have hmoment : ∀ {id slot}, c.pool.sessions.lookup id = some slot → slot.idleSince.isSome = true →
      ∃ x, c.pool.moment id = some x := by
    intro id slot hslot hsome
    obtain ⟨x, hx⟩ := isSome_iff_exists.1 hsome
    exact ⟨x, Pool.moment_eq_some.2 ⟨slot, hslot, hx⟩⟩
  refine ⟨hinv.pool.nodup, fun id => ?_, fun id slot hslot hsome => ?_, fun k id hk => ?_,
    fun id s address messages => hinv.opening, fun id s s' hs hidle => ?_, ?_, fun c' hrun => ?_⟩
  · rw [hinv.pool.idle, isSome_iff_exists]
    constructor
    · rintro ⟨x, hx⟩
      obtain ⟨slot, hslot, hx⟩ := Pool.moment_eq_some.1 hx
      exact ⟨slot, hslot, hx ▸ rfl⟩
    · rintro ⟨slot, hslot, hsome⟩
      exact hmoment hslot hsome
  · obtain ⟨x, hx⟩ := hmoment hslot hsome
    exact ⟨hinv.quiet (hinv.idle hx).1, (hinv.idle hx).2⟩
  · exact ⟨hinv.quiet (hinv.reserved hk), fun k' opener hk' hid => hinv.single hk' hk hid rfl⟩
  · obtain ⟨⟨hnone, -⟩, -⟩ := hinv.becomes_idle hs hidle
    obtain ⟨pool, hpool, -⟩ := hinv.pool.markIdle hnone
    refine ⟨fun slot hslot => eq_none_iff_forall_ne_some.2 fun x hx => ?_, hpool ▸ rfl⟩
    cases hnone.symm.trans (Pool.moment_eq_some.2 ⟨slot, hslot, hx⟩)
  · obtain ⟨result, pool, hreuse, -, -, hreused, -⟩ := hinv.pool.reuse c.closed c.timeout
    exact ⟨result, pool, hreuse, hreused⟩
  · obtain ⟨hinv', hd'⟩ := Run.draining hrun (Step.drain.inv hinv) rfl
    have hidle := hinv'.pool.drained hd'
    refine ⟨hidle, fun id slot hslot => eq_none_iff_forall_ne_some.2 fun x hx => ?_⟩
    have hin := (hinv'.pool.idle id).2 (isSome_iff_exists.2 ⟨x, Pool.moment_eq_some.2 ⟨slot, hslot, hx⟩⟩)
    rw [hidle] at hin
    cases hin

theorem exclusive_cancelled : ∃ c slot, Reachable 60 c ∧ c.pool.sessions.lookup 1 = some slot ∧
    slot.idleSince.isSome = true ∧ c.Quiet 1 ∧ ∀ c', Run { c with pool := c.pool.drain } c' → c'.pool.idle = [] := by
  have hstart : ∀ frame ∈ ([] : List Frame), frame.ofStream = false := nofun
  have hconnect := Reachable.step .new (@Step.connect (new 60) 0 rfl _ _ rfl)
  have hnumber := hconnect.step (@Step.number _ 0 rfl (by decide))
  have hstarted := hnumber.step (@Step.start _ 0 1 rfl)
  have hinserted := hstarted.step (@Step.insert _ 0 1 rfl)
  have hqueued := hinserted.step (@Step.queue _ 0 1 _ _ rfl rfl (@Session.Step.opening _ rfl [1]))
  have hmessage := hqueued.step (@Step.session _ 1 _ _ rfl (@Session.Step.message _ _ _ _ [] rfl rfl hstart rfl))
  have hopened := hmessage.step (@Step.session _ 1 _ _ rfl (@Session.Step.opened _ 1 _ rfl rfl false))
  have hdropped := hopened.step (@Step.session _ 1 _ _ rfl (@Session.Step.dropped _ 1 _ rfl rfl))
  have hidle := hdropped.step (@Step.idle _ 1 _ _ rfl (@Session.Step.closed _ _ _ rfl) _ rfl)
  exact ⟨_, ⟨1, some ⟨0, 0⟩⟩, hidle, rfl, rfl, (hidle.exclusive.quiet rfl rfl).1,
    fun c' hrun => (hidle.exclusive.drained c' hrun).1⟩

end Client

end Kotoconn.AnyTls
