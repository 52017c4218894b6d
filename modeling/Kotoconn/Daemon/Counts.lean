import Kotoconn.Daemon.References

/-! # Counting the users of a resource -/

namespace Kotoconn.Daemon
open Lib List Option Function Table AList

def Entry.node (e : Entry) : Node := ⟨e.tier, e.isOpen, e.lifetime.ancestors, e.uses⟩

def Creation.hold (c : Creation) : Option (ResourceId × List ResourceId) := c.reserved.map (·, c.ancestors)

namespace Manager

def links (m : Manager) : Links where
  accepting := m.accepting
  node id := (m.entries.lookup id).map Entry.node
  held u := (m.creations.lookup u).bind Creation.hold
  reserves := m.reserves
  releases := m.releases

/-- The open resources created on `t`. -/
def openUsers (entries : Table ResourceId Entry) (t : ResourceId) : Nat :=
  entries.count fun e => e.isOpen && e.uses == some t

/-- The reservations held on `t`. -/
def reservations (creations : Table ResourceId Creation) (t : ResourceId) : Nat :=
  creations.count fun c => c.reserved == some t

def Counted (entries : Table ResourceId Entry) (creations : Table ResourceId Creation) : Prop :=
  ∀ {id entry}, entries.lookup id = some entry → entry.users = openUsers entries id + reservations creations id

variable {m m' : Manager} {id u t : ResourceId} {e e' : Entry} {c c' : Creation}

/-! ## The references -/

theorem node_eq_some {n : Node} : m.links.node id = some n ↔ ∃ e, m.entries.lookup id = some e ∧ e.node = n :=
  map_eq_some_iff

theorem node_of_entry (h : m.entries.lookup id = some e) : m.links.node id = some e.node := node_eq_some.2 ⟨e, h, rfl⟩

theorem node_eq_none : m.links.node id = none ↔ m.entries.lookup id = none := map_eq_none_iff

theorem held_of_creation (h : m.creations.lookup u = some c) : m.links.held u = c.hold := by
  change (m.creations.lookup u).bind Creation.hold = _
  rw [h]
  rfl

theorem held_eq_some {hold : ResourceId × List ResourceId} : m.links.held u = some hold ↔
    ∃ c, m.creations.lookup u = some c ∧ c.reserved = some hold.1 ∧ c.ancestors = hold.2 := by
  change (m.creations.lookup u).bind Creation.hold = _ ↔ _
  rw [bind_eq_some_iff]
  refine exists_congr fun c => and_congr_right fun _ => ?_
  unfold Creation.hold
  rw [map_eq_some_iff]
  constructor
  · rintro ⟨_, ht, rfl⟩
    exact ⟨ht, rfl⟩
  · rintro ⟨ht, ha⟩
    exact ⟨hold.1, ht, Prod.ext rfl ha⟩

theorem node_insert (entries : Table ResourceId Entry) (id : ResourceId) (e : Entry) :
    (fun v => ((entries.insert id e).lookup v).map Entry.node) =
      update (fun v => (entries.lookup v).map Entry.node) id (some e.node) := by
  funext v
  by_cases hv : v = id
  · subst hv
    rw [lookup_insert, update_self]
    rfl
  · rw [lookup_insert_ne hv, update_of_ne hv]

theorem node_erase (entries : Table ResourceId Entry) (id : ResourceId) :
    (fun v => ((entries.erase id).lookup v).map Entry.node) =
      update (fun v => (entries.lookup v).map Entry.node) id none := by
  funext v
  by_cases hv : v = id
  · subst hv
    rw [lookup_erase, update_self]
    rfl
  · rw [lookup_erase_ne hv, update_of_ne hv]

theorem held_insert (creations : Table ResourceId Creation) (u : ResourceId) (c : Creation) :
    (fun v => ((creations.insert u c).lookup v).bind Creation.hold) =
      update (fun v => (creations.lookup v).bind Creation.hold) u c.hold := by
  funext v
  by_cases hv : v = u
  · subst hv
    rw [lookup_insert, update_self]
    rfl
  · rw [lookup_insert_ne hv, update_of_ne hv]

theorem held_erase (creations : Table ResourceId Creation) (u : ResourceId) :
    (fun v => ((creations.erase u).lookup v).bind Creation.hold) =
      update (fun v => (creations.lookup v).bind Creation.hold) u none := by
  funext v
  by_cases hv : v = u
  · subst hv
    rw [lookup_erase, update_self]
    rfl
  · rw [lookup_erase_ne hv, update_of_ne hv]

/-! ## Users -/

theorem uses_iff : m.links.Uses u t ↔ (∃ c, m.creations.lookup u = some c ∧ c.reserved = some t) ∨
    ∃ e, m.entries.lookup u = some e ∧ e.isOpen = true ∧ e.uses = some t := by
  unfold Links.Uses
  simp only [held_eq_some, node_eq_some]
  constructor
  · rintro (⟨a, c, hc, ht, -⟩ | ⟨n, ⟨e, he, rfl⟩, hopen, huses⟩)
    · exact .inl ⟨c, hc, ht⟩
    · exact .inr ⟨e, he, hopen, huses⟩
  · rintro (⟨c, hc, ht⟩ | ⟨e, he, hopen, huses⟩)
    · exact .inl ⟨c.ancestors, c, hc, ht, rfl⟩
    · exact .inr ⟨e.node, ⟨e, he, rfl⟩, hopen, huses⟩

theorem Counted.unused (h : Counted m.entries m.creations) (he : m.entries.lookup id = some e) (hzero : e.users = 0) :
    ∀ u, ¬ m.links.Uses u id := by
  intro u huses
  have hcount := h he
  rcases uses_iff.1 huses with ⟨c, hc, ht⟩ | ⟨e', he', hopen, ht⟩
  · have hpos : 0 < reservations m.creations id := count_pos hc (by simp [ht])
    omega
  · have hpos : 0 < openUsers m.entries id := count_pos he' (by simp [hopen, ht])
    omega

theorem count_of_unused (h : ∀ u, ¬ m.links.Uses u t) : openUsers m.entries t = 0 ∧ reservations m.creations t = 0 := by
  constructor
  · by_contra hne
    obtain ⟨v, e, he, hp⟩ := Table.exists_of_count_pos (Nat.pos_of_ne_zero hne)
    simp only [Bool.and_eq_true, beq_iff_eq] at hp
    exact h v (uses_iff.2 (.inr ⟨e, he, hp⟩))
  · by_contra hne
    obtain ⟨v, c, hc, hp⟩ := Table.exists_of_count_pos (Nat.pos_of_ne_zero hne)
    exact h v (uses_iff.2 (.inl ⟨c, hc, by simpa using hp⟩))

/-! ## `releaseUser` and `end` -/

section
variable {entries : Table ResourceId Entry} {creations : Table ResourceId Creation}

/-- The counts are right, but `t` has one user too many. -/
def CountedBut (t : ResourceId) (entries : Table ResourceId Entry) (creations : Table ResourceId Creation) : Prop :=
  ∀ {id entry}, entries.lookup id = some entry →
    entry.users = openUsers entries id + reservations creations id + if id = t then 1 else 0

variable (he : entries.lookup id = some e)
include he

theorem openUsers_insert (hnode : e'.node = e.node) (t : ResourceId) :
    openUsers (entries.insert id e') t = openUsers entries t := by
  have hreplace := count_replace (p := fun e : Entry => e.isOpen && e.uses == some t) he e'
  have hopen : e'.isOpen = e.isOpen := congrArg Node.isOpen hnode
  have huses : e'.uses = e.uses := congrArg Node.uses hnode
  rw [hopen, huses] at hreplace
  exact Nat.add_right_cancel hreplace

theorem openUsers_ended (ending : Ending) (t : ResourceId) :
    openUsers (entries.insert id { e with lifetime := ended e.lifetime ending }) t +
      (if e.isOpen = true ∧ e.uses = some t then 1 else 0) = openUsers entries t := by
  have hreplace := count_replace (p := fun e : Entry => e.isOpen && e.uses == some t) he
    { e with lifetime := ended e.lifetime ending }
  have hclosed : ({ e with lifetime := ended e.lifetime ending } : Entry).isOpen = false := rfl
  rw [hclosed, Bool.false_and, Bool.toNat_false, add_zero] at hreplace
  rw [openUsers, openUsers, ← hreplace]
  congr 1
  by_cases h : e.isOpen = true ∧ e.uses = some t
  · simp [h]
  · have hnone : (e.isOpen && e.uses == some t) = false := by simpa using h
    rw [if_neg h, hnone]
    rfl

theorem node_insert_same (hnode : e'.node = e.node) (v : ResourceId) :
    ((entries.insert id e').lookup v).map Entry.node = (entries.lookup v).map Entry.node := by
  by_cases hv : v = id
  · subst hv
    rw [lookup_insert, he, map_some, map_some, hnode]
  · rw [lookup_insert_ne hv]

omit he

def uncounted (e : Entry) : Entry := { e with users := 0 }

/-- The entries are those of `before`, but for their counts. -/
def Recounted (before : ResourceId → Option Entry) (entries : Table ResourceId Entry) : Prop :=
  ∀ v, (entries.lookup v).map uncounted = (before v).map uncounted

theorem Recounted.node {before : ResourceId → Option Entry} (h : Recounted before entries) (v : ResourceId) :
    (entries.lookup v).map Entry.node = (before v).map Entry.node := by
  have hv := congrArg (Option.map Entry.node) (h v)
  rw [Option.map_map, Option.map_map] at hv
  exact hv

theorem Recounted.lookup {before : ResourceId → Option Entry} (h : Recounted before entries)
    (hv : entries.lookup id = some e') : ∃ e, before id = some e ∧ e' = { e with users := e'.users } := by
  have heq := h id
  rw [hv, map_some, eq_comm, map_eq_some_iff] at heq
  obtain ⟨e, he, heq⟩ := heq
  refine ⟨e, he, ?_⟩
  cases e
  cases e'
  simp only [uncounted, Entry.mk.injEq] at heq ⊢
  exact ⟨heq.1.symm, heq.2.1.symm, heq.2.2.1.symm, heq.2.2.2.1.symm, trivial⟩

end

/-- **A release that is due finds a positive count**, and makes the counts right. -/
theorem CountedBut.releaseUser (h : CountedBut t m.entries m.creations) : ∃ entries,
    m.releaseUser t = some { m with entries } ∧ Counted entries m.creations ∧ Recounted (m.entries.lookup ·) entries := by
  unfold Manager.releaseUser
  cases he : m.entries.lookup t with
  | none =>
    refine ⟨m.entries, rfl, fun {v e} hv => ?_, fun _ => rfl⟩
    have hv' := h hv
    rwa [if_neg fun hvt => by rw [hvt, he] at hv; cases hv] at hv'
  | some e =>
    have hcount := h he
    rw [if_pos rfl] at hcount
    refine ⟨_, if_pos (by omega), fun {v e'} hv => ?_, fun v => ?_⟩
    · have hsame := openUsers_insert he (show Entry.node { e with users := e.users - 1 } = e.node from rfl) v
      rw [hsame]
      rcases lookup_insert_iff.1 hv with ⟨rfl, rfl⟩ | ⟨hne, hv⟩
      · simp only
        omega
      · have hv' := h hv
        rwa [if_neg hne] at hv'
    · by_cases hv : v = t
      · subst hv
        simp only [lookup_insert, he]
        rfl
      · simp only [lookup_insert_ne hv]

/-- **What `end` does**: its resource closes; if it was open, its use is released and the counts stay right. -/
theorem endResource_spec (h : Counted m.entries m.creations) (he : m.entries.lookup id = some e) (ending : Ending) :
    ∃ entries, m.endResource id ending = some { m with
        entries, releases := m.releases ++ if e.isOpen = true ∧ e.uses.isSome = true then [id] else [] } ∧
      Counted entries m.creations ∧
      Recounted ((m.entries.insert id { e with lifetime := ended e.lifetime ending }).lookup ·) entries := by
  have hcount : ∀ {v e'}, (m.entries.insert id { e with lifetime := ended e.lifetime ending }).lookup v = some e' →
      e'.users = openUsers (m.entries.insert id { e with lifetime := ended e.lifetime ending }) v +
        reservations m.creations v + if e.isOpen = true ∧ e.uses = some v then 1 else 0 := by
    intro v e' hv
    have hended := openUsers_ended he ending v
    have hbefore : ∃ e'', m.entries.lookup v = some e'' ∧ e'.users = e''.users := by
      rcases lookup_insert_iff.1 hv with ⟨rfl, rfl⟩ | ⟨-, hv⟩
      · exact ⟨e, he, rfl⟩
      · exact ⟨e', hv, rfl⟩
    obtain ⟨_, he'', _⟩ := hbefore
    have := h he''
    omega
  unfold endResource
  rw [he]
  by_cases hopen : e.isOpen = true
  · obtain huses | ⟨used, huses⟩ := eq_none_or_eq_some e.uses
    · refine ⟨_, ?_, fun {v e'} hv => ?_, fun _ => rfl⟩
      · simp [hopen, huses]
      · simpa [huses] using hcount hv
    · have hbut : CountedBut used (m.entries.insert id { e with lifetime := ended e.lifetime ending }) m.creations :=
        fun {v e'} hv => by simpa [hopen, huses, eq_comm] using hcount hv
      obtain ⟨entries, hrelease, hcounted, hsame⟩ := @CountedBut.releaseUser
        { m with
          entries := m.entries.insert id { e with lifetime := ended e.lifetime ending }
          releases := m.releases ++ [id] } used hbut
      exact ⟨entries, by simpa [hopen, huses] using hrelease, hcounted, hsame⟩
  · refine ⟨_, ?_, fun {v e'} hv => ?_, fun _ => rfl⟩
    · simp [hopen]
    · simpa [hopen] using hcount hv

/-- The entry of a resource that `drain_tier` reaches. -/
def endedIn (ids : List ResourceId) (id : ResourceId) (e : Entry) : Entry :=
  if id ∈ ids then { e with lifetime := ended e.lifetime (.drain none) } else e

def usersIn (m : Manager) (ids : List ResourceId) : List ResourceId :=
  ids.filter fun id => ((m.entries.lookup id).bind Entry.uses).isSome

theorem drainTier_spec {ids : List ResourceId} (h : Counted m.entries m.creations) (hnodup : ids.Nodup)
    (hopen : ∀ id ∈ ids, ∃ e, m.entries.lookup id = some e ∧ e.isOpen = true) :
    ∃ entries, ids.foldlM (fun m id => m.endResource id (.drain none)) m = some { m with
        entries, releases := m.releases ++ m.usersIn ids } ∧
      Counted entries m.creations ∧ Recounted (fun v => (m.entries.lookup v).map (endedIn ids v)) entries := by
  induction ids generalizing m with
  | nil =>
    refine ⟨m.entries, ?_, h, fun v => ?_⟩
    · simp [usersIn]
    · have hsame : endedIn [] v = id := rfl
      simp only [hsame, Option.map_id_fun, id_eq]
  | cons id rest ih =>
    obtain ⟨hid, hrest⟩ := nodup_cons.1 hnodup
    obtain ⟨e, he, heopen⟩ := hopen id mem_cons_self
    obtain ⟨entries, hend, hcounted, hsame⟩ := endResource_spec h he (.drain none)
    -- the entries of the rest are as before
    have hkeep : ∀ v ∈ rest, ∃ e' e'', m.entries.lookup v = some e' ∧ entries.lookup v = some e'' ∧
        e'' = { e' with users := e''.users } := by
      intro v hv
      obtain ⟨e', he', -⟩ := hopen v (mem_cons_of_mem _ hv)
      have hne : v ≠ id := fun heq => hid (heq ▸ hv)
      have hv' := hsame v
      simp only [lookup_insert_ne hne, he', map_some, map_eq_some_iff] at hv'
      obtain ⟨e'', he'', -⟩ := hv'
      obtain ⟨e', hbefore, heq⟩ := hsame.lookup he''
      simp only [lookup_insert_ne hne] at hbefore
      exact ⟨e', e'', hbefore, he'', heq⟩
    obtain ⟨entries', hfold, hcounted', hsame'⟩ := @ih { m with
        entries
        releases := m.releases ++ if e.isOpen = true ∧ e.uses.isSome = true then [id] else [] } hcounted hrest (by
      intro v hv
      obtain ⟨e', e'', he', he'', heq⟩ := hkeep v hv
      obtain ⟨_, he₀, hopen₀⟩ := hopen v (mem_cons_of_mem _ hv)
      obtain rfl := some.inj (he'.symm.trans he₀)
      exact ⟨e'', he'', by rw [heq]; exact hopen₀⟩)
    refine ⟨entries', ?_, hcounted', fun v => ?_⟩
    · rw [foldlM_cons, hend]
      refine hfold.trans ?_
      have husers : usersIn { m with
          entries
          releases := m.releases ++ if e.isOpen = true ∧ e.uses.isSome = true then [id] else [] } rest =
          m.usersIn rest := by
        refine filter_congr fun v hv => ?_
        obtain ⟨_, _, he', he'', heq⟩ := hkeep v hv
        simp only [he', he'', bind_some]
        rw [heq]
      rw [husers]
      simp only [usersIn, filter_cons, he, bind_some, heopen, true_and, append_assoc]
      split_ifs <;> rfl
    · refine (hsame' v).trans ?_
      by_cases hv : v = id
      · subst hv
        have hrest : endedIn rest v = fun e => e := funext fun e => if_neg hid
        have hthis : endedIn (v :: rest) v = fun e => { e with lifetime := ended e.lifetime (.drain none) } :=
          funext fun e => if_pos mem_cons_self
        have hv' := hsame v
        simp only [lookup_insert, map_some] at hv'
        simp only [hrest, hthis, he, map_some, Option.map_id_fun', id_eq]
        exact hv'
      · have hthis : endedIn (id :: rest) v = endedIn rest v := funext fun e => by simp [endedIn, hv]
        have hv' := congrArg (Option.map (endedIn rest v)) (hsame v)
        simp only [lookup_insert_ne hv, Option.map_map] at hv'
        simp only [hthis, Option.map_map]
        have hcommute : uncounted ∘ endedIn rest v = endedIn rest v ∘ uncounted := by
          funext e
          simp only [Function.comp_apply, endedIn]
          split_ifs <;> rfl
        rw [hcommute]
        exact hv'

end Manager

end Kotoconn.Daemon
