import Kotoconn.Daemon.Counts

/-! # Where a resource is -/

namespace Kotoconn.Daemon
open Lib List Option Function Table

namespace Manager

variable {m m' : Manager} {id u t : ResourceId} {e e' : Entry} {c c' : Creation}

/-! ## What becomes of an entry -/

/-- `e'` is `e` at a later time: admission does not reopen, and only what closes admission sets a deadline. -/
structure Follows (e e' : Entry) : Prop where
  tier : e'.tier = e.tier
  uses : e'.uses = e.uses
  ancestors : e'.lifetime.ancestors = e.lifetime.ancestors
  live : ∀ {native}, e'.live = some native → e.live = some native
  closed : e.isOpen = false → e'.isOpen = false
  deadline : e'.lifetime.deadline = e.lifetime.deadline ∨ (e.isOpen = true ∧ e'.isOpen = false)

theorem Follows.refl (e : Entry) : Follows e e := ⟨rfl, rfl, rfl, id, id, .inl rfl⟩

theorem Follows.trans {e''} (h : Follows e e') (h' : Follows e' e'') : Follows e e'' where
  tier := h'.tier.trans h.tier
  uses := h'.uses.trans h.uses
  ancestors := h'.ancestors.trans h.ancestors
  live hlive := h.live (h'.live hlive)
  closed hclosed := h'.closed (h.closed hclosed)
  deadline := by
    rcases h.deadline, h'.deadline with ⟨hsame | ⟨hopen, hclosed⟩, hsame' | ⟨hopen', hclosed'⟩⟩
    · exact .inl (hsame'.trans hsame)
    · refine .inr ⟨?_, hclosed'⟩
      by_contra hne
      rw [h.closed (by simpa using hne)] at hopen'
      cases hopen'
    · exact .inr ⟨hopen, h'.closed hclosed⟩
    · exact .inr ⟨hopen, h'.closed hclosed⟩

theorem Follows.users (e : Entry) (users : Nat) : Follows e { e with users } := ⟨rfl, rfl, rfl, id, id, .inl rfl⟩

theorem Follows.taken (e : Entry) : Follows e { e with live := none } := ⟨rfl, rfl, rfl, nofun, id, .inl rfl⟩

theorem Follows.ended (e : Entry) (ending : Ending) : Follows e { e with lifetime := ended e.lifetime ending } := by
  refine ⟨rfl, rfl, rfl, id, fun _ => rfl, ?_⟩
  cases hopen : e.isOpen with
  | true => exact .inr ⟨rfl, rfl⟩
  | false =>
    refine .inl ?_
    have hopen' : e.lifetime.isOpen = false := hopen
    simp only [Manager.ended, hopen']

/-- The entries of `m'` are those of `m`, later. -/
structure Later (entries entries' : Table ResourceId Entry) : Prop where
  back : ∀ {id e'}, entries'.lookup id = some e' → ∃ e, entries.lookup id = some e ∧ Follows e e'

theorem Later.refl (entries : Table ResourceId Entry) : Later entries entries := ⟨fun h => ⟨_, h, .refl _⟩⟩

theorem Later.trans {entries entries' entries'' : Table ResourceId Entry} (h : Later entries entries')
    (h' : Later entries' entries'') : Later entries entries'' := by
  refine ⟨fun hid => ?_⟩
  obtain ⟨_, he', hfollows'⟩ := h'.back hid
  obtain ⟨e, he, hfollows⟩ := h.back he'
  exact ⟨e, he, hfollows.trans hfollows'⟩

theorem Later.insert {entries : Table ResourceId Entry} (he : entries.lookup id = some e) (h : Follows e e') :
    Later entries (entries.insert id e') := by
  refine ⟨fun hv => ?_⟩
  rcases lookup_insert_iff.1 hv with ⟨rfl, rfl⟩ | ⟨-, hv⟩
  · exact ⟨e, he, h⟩
  · exact ⟨_, hv, .refl _⟩

theorem Later.erase (entries : Table ResourceId Entry) (id : ResourceId) : Later entries (entries.erase id) :=
  ⟨fun hv => ⟨_, (lookup_erase_iff.1 hv).2, .refl _⟩⟩

theorem Later.kind {entries entries' : Table ResourceId Entry} (h : Later entries entries')
    (hkind : ∀ {id e native}, entries.lookup id = some e → e.live = some native → native.tier = e.tier) {native : Native}
    (he : entries'.lookup id = some e') (hlive : e'.live = some native) : native.tier = e'.tier := by
  obtain ⟨_, he, hfollows⟩ := h.back he
  rw [hfollows.tier]
  exact hkind he (hfollows.live hlive)

structure Kept (entries entries' : Table ResourceId Entry) : Prop extends Later entries entries' where
  forth : ∀ {id e}, entries.lookup id = some e → ∃ e', entries'.lookup id = some e'

theorem Kept.refl (entries : Table ResourceId Entry) : Kept entries entries := ⟨.refl _, fun h => ⟨_, h⟩⟩

theorem Kept.trans {entries entries' entries'' : Table ResourceId Entry} (h : Kept entries entries')
    (h' : Kept entries' entries'') : Kept entries entries'' := by
  refine ⟨h.toLater.trans h'.toLater, fun he => ?_⟩
  obtain ⟨_, he'⟩ := h.forth he
  exact h'.forth he'

theorem Kept.insert {entries : Table ResourceId Entry} (he : entries.lookup id = some e) (h : Follows e e') :
    Kept entries (entries.insert id e') := by
  refine ⟨.insert he h, fun {v e''} hv => ?_⟩
  by_cases hvid : v = id
  · exact ⟨e', hvid ▸ AList.lookup_insert _⟩
  · exact ⟨e'', (AList.lookup_insert_ne hvid).trans hv⟩

theorem releaseUser_later (h : m.releaseUser t = some m') :
    ∃ entries, m' = { m with entries } ∧ Kept m.entries entries := by
  unfold Manager.releaseUser at h
  cases he : m.entries.lookup t with
  | none =>
    rw [he] at h
    exact ⟨m.entries, (some.inj h).symm, .refl _⟩
  | some =>
    simp only [he] at h
    split_ifs at h
    exact ⟨_, (some.inj h).symm, .insert he (.users _ _)⟩

variable {ending : Ending}

theorem endResource_later (h : m.endResource id ending = some m') :
    ∃ entries releases, m' = { m with entries, releases } ∧ Kept m.entries entries := by
  unfold endResource at h
  cases he : m.entries.lookup id with
  | none =>
    rw [he] at h
    exact ⟨m.entries, m.releases, (some.inj h).symm, .refl _⟩
  | some e =>
    simp only [he] at h
    have hended := Kept.insert he (Follows.ended e ending)
    split at h
    · obtain ⟨entries, rfl, hlater⟩ := releaseUser_later h
      exact ⟨entries, _, rfl, hended.trans hlater⟩
    · exact ⟨_, m.releases, (some.inj h).symm, hended⟩

theorem terminate_later {result : Except String Unit} (h : m.terminate id ending = some (result, m')) :
    ∃ entries releases, m' = { m with entries, releases } ∧ Kept m.entries entries := by
  unfold terminate at h
  split at h
  · cases h
    exact ⟨m.entries, m.releases, rfl, .refl _⟩
  · split_ifs at h
    · obtain ⟨_, hend, heq⟩ := map_eq_some_iff.1 h
      cases heq
      exact endResource_later hend
    · cases h
      exact ⟨m.entries, m.releases, rfl, .refl _⟩

variable {ids : List ResourceId}

theorem endResources_later (h : ids.foldlM (fun m id => m.endResource id ending) m = some m') :
    ∃ entries releases, m' = { m with entries, releases } ∧ Kept m.entries entries := by
  induction ids generalizing m with
  | nil => exact ⟨m.entries, m.releases, (some.inj h).symm, .refl _⟩
  | cons _ _ ih =>
    rw [foldlM_cons] at h
    obtain ⟨_, hend, h⟩ := bind_eq_some_iff.1 h
    obtain ⟨_, _, rfl, hlater⟩ := endResource_later hend
    obtain ⟨entries', releases', rfl, hlater'⟩ := ih h
    exact ⟨entries', releases', rfl, hlater.trans hlater'⟩

theorem drainTier_later (h : m.drainTier ids = some m') :
    ∃ entries releases, m' = { m with accepting := false, entries, releases } ∧ Kept m.entries entries :=
  endResources_later h

/-! ## Where a resource is -/

/-- The bookkeeping: identifiers are drawn once, a resource is registered by its creation, and keeps its scope until
then. -/
structure Known (m : Manager) : Prop where
  created_le : ∀ {id c}, m.creations.lookup id = some c → id ≤ m.next
  registered_le : ∀ id ∈ m.registrations, id ≤ m.next
  reserves_le : ∀ id ∈ m.reserves, id ≤ m.next
  registrations_nodup : m.registrations.Nodup
  entry : ∀ {id e}, m.entries.lookup id = some e → id ∈ m.registrations
  kind : ∀ {id e native}, m.entries.lookup id = some e → e.live = some native → native.tier = e.tier
  supervised : ∀ {id phase}, m.supervisors.lookup id = some phase → id ∈ m.registrations
  unregistered : ∀ {id c}, m.creations.lookup id = some c → c.stage ≠ .registered → id ∉ m.registrations
  registered : ∀ {id c}, m.creations.lookup id = some c → c.stage = .registered →
    c.reserved = none ∧ id ∈ m.registrations
  built : ∀ {id c}, m.creations.lookup id = some c → c.stage = .built → c.reserved = c.config.refers
  fresh : ∀ {id c}, m.creations.lookup id = some c → c.stage = .building → c.reserved = none → id ∉ m.reserves
  unused : ∀ {id c}, m.creations.lookup id = some c → c.stage = .building ∨ c.stage = .built → c.reserved = none →
    c.ancestors = []
  scope : ∀ {id c}, m.creations.lookup id = some c → c.stage = .building ∨ c.stage = .built →
    (m.scopes id).closed = false
  scope_fresh : ∀ {id}, m.next < id → (m.scopes id).closed = false

theorem known_new : new.Known where
  created_le h := by cases h
  registered_le := nofun
  reserves_le := nofun
  registrations_nodup := nodup_nil
  entry h := by cases h
  kind h := by cases h
  supervised h := by cases h
  unregistered h := by cases h
  registered h := by cases h
  built h := by cases h
  fresh h := by cases h
  unused h := by cases h
  scope _ _ := rfl
  scope_fresh _ := rfl

/-- Steps that leave the creations alone, and close scopes of registered resources only. -/
theorem Known.frame (h : m.Known) (hnext : m'.next = m.next) (hcreations : m'.creations = m.creations)
    (hregs : m'.registrations = m.registrations) (hreserves : m'.reserves = m.reserves)
    (hentries : Later m.entries m'.entries)
    (hsups : ∀ {id phase}, m'.supervisors.lookup id = some phase → id ∈ m.registrations)
    (hscopes : ∀ {id}, (m'.scopes id).closed = true → (m.scopes id).closed = true ∨ id ∈ m.registrations) :
    m'.Known where
  created_le hc := hnext ▸ h.created_le (hcreations ▸ hc)
  registered_le id hid := hnext ▸ h.registered_le id (hregs ▸ hid)
  reserves_le id hid := hnext ▸ h.reserves_le id (hreserves ▸ hid)
  registrations_nodup := hregs ▸ h.registrations_nodup
  entry he := by
    obtain ⟨_, he, -⟩ := hentries.back he
    exact hregs ▸ h.entry he
  kind he hlive := hentries.kind h.kind he hlive
  supervised hs := hregs ▸ hsups hs
  unregistered hc hstage := hregs ▸ h.unregistered (hcreations ▸ hc) hstage
  registered hc hstage := hregs ▸ h.registered (hcreations ▸ hc) hstage
  built hc := h.built (hcreations ▸ hc)
  fresh hc hstage hnone := hreserves ▸ h.fresh (hcreations ▸ hc) hstage hnone
  unused hc := h.unused (hcreations ▸ hc)
  scope {id c} hc hstage := by
    rw [hcreations] at hc
    refine Bool.eq_false_iff.2 fun hclosed => ?_
    rcases hscopes hclosed with hclosed | hid
    · rw [h.scope hc hstage] at hclosed
      cases hclosed
    · refine h.unregistered hc (fun hreg => ?_) hid
      rw [hreg] at hstage
      rcases hstage with hstage | hstage <;> cases hstage
  scope_fresh {id} hid := by
    rw [hnext] at hid
    refine Bool.eq_false_iff.2 fun hclosed => ?_
    rcases hscopes hclosed with hclosed | hreg
    · rw [h.scope_fresh hid] at hclosed
      cases hclosed
    · exact absurd (h.registered_le id hreg) (not_le.2 hid)

theorem Known.insert (h : m.Known) (hnext : m.next ≤ m'.next) (hcreations : m'.creations = m.creations.insert id c)
    (hregs : m'.registrations = m.registrations) (hreserves : ∀ u ∈ m'.reserves, u ∈ m.reserves ∨ u = id)
    (hentries : Later m.entries m'.entries) (hsups : m'.supervisors = m.supervisors)
    (hscopes : ∀ {u}, u ≠ id → m'.scopes u = m.scopes u) (hid : id ≤ m'.next) (hpending : id ∉ m.registrations)
    (hstage : c.stage ≠ .registered) (hbuilt : c.stage = .built → c.reserved = c.config.refers)
    (hfresh : c.stage = .building → c.reserved = none → id ∉ m'.reserves)
    (hunused : c.stage = .building ∨ c.stage = .built → c.reserved = none → c.ancestors = [])
    (hscope : c.stage = .building ∨ c.stage = .built → (m'.scopes id).closed = false) : m'.Known where
  created_le {u d} hd := by
    rw [hcreations] at hd
    rcases lookup_insert_iff.1 hd with ⟨rfl, -⟩ | ⟨-, hd⟩
    · exact hid
    · exact le_trans (h.created_le hd) hnext
  registered_le u hu := le_trans (h.registered_le u (hregs ▸ hu)) hnext
  reserves_le u hu := by
    rcases hreserves u hu with hu | rfl
    · exact le_trans (h.reserves_le u hu) hnext
    · exact hid
  registrations_nodup := hregs ▸ h.registrations_nodup
  entry he := by
    obtain ⟨_, he, -⟩ := hentries.back he
    exact hregs ▸ h.entry he
  kind he hlive := hentries.kind h.kind he hlive
  supervised hs := hregs ▸ h.supervised (hsups ▸ hs)
  unregistered {u d} hd hne := by
    rw [hcreations] at hd
    rw [hregs]
    rcases lookup_insert_iff.1 hd with ⟨rfl, -⟩ | ⟨-, hd⟩
    · exact hpending
    · exact h.unregistered hd hne
  registered {u d} hd hreg := by
    rw [hcreations] at hd
    rw [hregs]
    rcases lookup_insert_iff.1 hd with ⟨rfl, rfl⟩ | ⟨-, hd⟩
    · exact absurd hreg hstage
    · exact h.registered hd hreg
  built {u d} hd hb := by
    rw [hcreations] at hd
    rcases lookup_insert_iff.1 hd with ⟨rfl, rfl⟩ | ⟨-, hd⟩
    · exact hbuilt hb
    · exact h.built hd hb
  fresh {u d} hd hb hnone := by
    rw [hcreations] at hd
    rcases lookup_insert_iff.1 hd with ⟨rfl, rfl⟩ | ⟨hne, hd⟩
    · exact hfresh hb hnone
    · exact fun hu => (hreserves u hu).elim (h.fresh hd hb hnone) hne
  unused {u d} hd hb hnone := by
    rw [hcreations] at hd
    rcases lookup_insert_iff.1 hd with ⟨rfl, rfl⟩ | ⟨-, hd⟩
    · exact hunused hb hnone
    · exact h.unused hd hb hnone
  scope {u d} hd hb := by
    rw [hcreations] at hd
    rcases lookup_insert_iff.1 hd with ⟨rfl, rfl⟩ | ⟨hne, hd⟩
    · exact hscope hb
    · rw [hscopes hne]
      exact h.scope hd hb
  scope_fresh {u} hu := by
    rw [hscopes (Nat.ne_of_gt (lt_of_le_of_lt hid hu))]
    exact h.scope_fresh (lt_of_le_of_lt hnext hu)

theorem Known.erase (h : m.Known) (hnext : m'.next = m.next) (hcreations : m'.creations = m.creations.erase id)
    (hregs : m'.registrations = m.registrations) (hreserves : m'.reserves = m.reserves)
    (hentries : Later m.entries m'.entries)
    (hsups : ∀ {u phase}, m'.supervisors.lookup u = some phase → u ∈ m.registrations)
    (hscopes : m'.scopes = m.scopes) : m'.Known := by
  have hback : ∀ {u d}, m'.creations.lookup u = some d → m.creations.lookup u = some d := by
    intro u d hd
    rw [hcreations] at hd
    exact (lookup_erase_iff.1 hd).2
  refine ⟨fun hd => hnext ▸ h.created_le (hback hd), fun u hu => hnext ▸ h.registered_le u (hregs ▸ hu),
    fun u hu => hnext ▸ h.reserves_le u (hreserves ▸ hu), hregs ▸ h.registrations_nodup, fun he => ?_,
    fun he hlive => hentries.kind h.kind he hlive,
    fun hs => hregs ▸ hsups hs, fun hd hne => hregs ▸ h.unregistered (hback hd) hne,
    fun hd hr => hregs ▸ h.registered (hback hd) hr, fun hd => h.built (hback hd),
    fun hd hb hn => hreserves ▸ h.fresh (hback hd) hb hn, fun hd => h.unused (hback hd),
    fun hd hb => hscopes ▸ h.scope (hback hd) hb, fun hu => hscopes ▸ h.scope_fresh (hnext ▸ hu)⟩
  obtain ⟨_, he, -⟩ := hentries.back he
  exact hregs ▸ h.entry he

theorem reserve_later (h : m.reserve u c id = .ok m') : ∃ entry, m.entries.lookup id = some entry ∧
    entry.isOpen = true ∧ entry.live = some .dialer ∧ m' = { m with
      entries := m.entries.insert id { entry with users := entry.users + 1 }
      creations := m.creations.insert u { c with
        reserved := some id
        ancestors := if c.config.native = .dialer then id :: entry.lifetime.ancestors else [] }
      reserves := m.reserves ++ [u] } := by
  unfold reserve at h
  split at h
  · cases h
  · next entry he =>
    by_cases hopen : entry.isOpen = true
    · rw [if_pos hopen] at h
      split at h
      · cases h
      · next native hlive =>
        by_cases hdialer : native = .dialer
        · rw [if_pos hdialer] at h
          exact ⟨entry, he, hopen, hdialer ▸ hlive, (Except.ok.inj h).symm⟩
        · rw [if_neg hdialer] at h
          cases h
    · rw [if_neg hopen] at h
      cases h

theorem dropReservation_later (h : m.dropReservation id c = some m') : ∃ entries releases,
    m' = { m with creations := m.creations.erase id, entries, releases } ∧ Kept m.entries entries := by
  unfold dropReservation at h
  split at h
  · exact ⟨m.entries, m.releases, (some.inj h).symm, .refl _⟩
  · obtain ⟨entries, rfl, hlater⟩ := releaseUser_later h
    exact ⟨entries, _, rfl, hlater⟩

theorem setPhase_mem (h : m.Known) {phase : Phase} (hphase : m.supervisors.lookup id = some phase) {phase' : Phase}
    {v : ResourceId} {phase'' : Phase} (hv : (m.supervisors.insert id phase').lookup v = some phase'') :
    v ∈ m.registrations := by
  rcases lookup_insert_iff.1 hv with ⟨rfl, -⟩ | ⟨-, hv⟩
  · exact h.supervised hphase
  · exact h.supervised hv

theorem closed_or_mem {scopes : ResourceId → Scope} {scope : Scope} (hid : id ∈ ids)
    {v : ResourceId} (h : (update scopes id scope v).closed = true) : (scopes v).closed = true ∨ v ∈ ids := by
  by_cases hv : v = id
  · exact .inr (hv ▸ hid)
  · rw [update_of_ne hv] at h
    exact .inl h

theorem setScope_closed {scope : Scope} (h : scope.closed = (m.scopes id).closed) (v : ResourceId) :
    ((m.setScope id scope).scopes v).closed = (m.scopes v).closed := by
  by_cases hv : v = id
  · subst hv
    exact (congrArg Scope.closed (update_self _ _ _)).trans h
  · exact congrArg Scope.closed (update_of_ne hv _ _)

theorem Known.setScope (h : m.Known) {scope : Scope} (hsame : scope.closed = (m.scopes id).closed) :
    (m.setScope id scope).Known :=
  h.frame rfl rfl rfl rfl (.refl _) h.supervised fun hv => .inl ((setScope_closed hsame _).symm.trans hv)

theorem Known.register (h : m.Known) (hc : m.creations.lookup id = some c) (hstage : c.stage = .built)
    (haccepting : m.accepting = true) : (m.register id c).2.Known := by
  have hpending : id ∉ m.registrations := h.unregistered hc (by rw [hstage]; exact nofun)
  have hid := h.created_le hc
  unfold Manager.register
  rw [if_pos haccepting]
  refine ⟨fun {u d} hd => ?_, fun u hu => ?_, h.reserves_le, ?_, fun {u e} he => ?_,
    fun {u e native} he hlive => ?_, fun hs => mem_append_left _ (h.supervised hs), fun {u d} hd hne => ?_,
    fun {u d} hd hr => ?_, fun {u d} hd hb => ?_, fun {u d} hd hb hnone => ?_, fun {u d} hd hb hnone => ?_,
    fun {u d} hd hb => ?_, h.scope_fresh⟩
  · rcases lookup_insert_iff.1 hd with ⟨rfl, -⟩ | ⟨-, hd⟩
    · exact hid
    · exact h.created_le hd
  · rcases mem_append.1 hu with hu | hu
    · exact h.registered_le u hu
    · rw [mem_singleton.1 hu]
      exact hid
  · exact (perm_append_singleton id m.registrations).nodup_iff.2
      (nodup_cons.2 ⟨hpending, h.registrations_nodup⟩)
  · rcases lookup_insert_iff.1 he with ⟨rfl, -⟩ | ⟨-, he⟩
    · exact mem_append_right _ (mem_singleton_self _)
    · exact mem_append_left _ (h.entry he)
  · rcases lookup_insert_iff.1 he with ⟨rfl, rfl⟩ | ⟨-, he⟩
    · rw [← some.inj hlive]
    · exact h.kind he hlive
  · rcases lookup_insert_iff.1 hd with ⟨rfl, rfl⟩ | ⟨hne', hd⟩
    · exact absurd rfl hne
    · intro hu
      rcases mem_append.1 hu with hu | hu
      · exact h.unregistered hd hne hu
      · exact hne' (mem_singleton.1 hu)
  · rcases lookup_insert_iff.1 hd with ⟨rfl, rfl⟩ | ⟨-, hd⟩
    · exact ⟨rfl, mem_append_right _ (mem_singleton_self _)⟩
    · exact ⟨(h.registered hd hr).1, mem_append_left _ (h.registered hd hr).2⟩
  · rcases lookup_insert_iff.1 hd with ⟨rfl, rfl⟩ | ⟨-, hd⟩
    · cases hb
    · exact h.built hd hb
  · rcases lookup_insert_iff.1 hd with ⟨rfl, rfl⟩ | ⟨-, hd⟩
    · cases hb
    · exact h.fresh hd hb hnone
  · rcases lookup_insert_iff.1 hd with ⟨rfl, rfl⟩ | ⟨-, hd⟩
    · rcases hb with hb | hb <;> cases hb
    · exact h.unused hd hb hnone
  · rcases lookup_insert_iff.1 hd with ⟨rfl, rfl⟩ | ⟨-, hd⟩
    · rcases hb with hb | hb <;> cases hb
    · exact h.scope hd hb

theorem Task.known (hstep : Task m m') (h : m.Known) : m'.Known := by
  cases hstep with
  | create hcreate =>
    unfold Manager.create at hcreate
    split_ifs at hcreate
    cases hcreate
    exact h.insert (Nat.le_succ _) rfl rfl (fun u hu => .inl hu) (.refl _) rfl (fun _ => rfl) le_rfl
      (fun hr => Nat.not_succ_le_self _ (h.registered_le _ hr)) nofun nofun
      (fun _ _ hr => Nat.not_succ_le_self _ (h.reserves_le _ hr)) (fun _ _ => rfl)
      (fun _ => h.scope_fresh (lt_add_one _))
  | reserve hc hstage _ _ hreserve =>
    obtain ⟨entry, he, -, -, rfl⟩ := reserve_later hreserve
    refine h.insert le_rfl rfl rfl (fun u hu => ?_) (.insert he (.users _ _)) rfl
      (fun _ => rfl) (h.created_le hc) (h.unregistered hc (by rw [hstage]; exact nofun)) ?_ ?_ nofun nofun
      (fun _ => h.scope hc (.inl hstage))
    · exact (mem_append.1 hu).imp_right mem_singleton.1
    · simp [hstage]
    · simp [hstage]
  | built hc hstage hreserved =>
    have hunused := h.unused hc (.inl hstage)
    exact h.insert le_rfl rfl rfl (fun u hu => .inl hu) (.refl _) rfl (fun _ => rfl) (h.created_le hc)
      (h.unregistered hc (by rw [hstage]; exact nofun)) nofun (fun _ => hreserved) nofun
      (fun _ => hunused) (fun _ => h.scope hc (.inl hstage))
  | fail hc hstage closes =>
    have hne : ∀ {c : Creation}, c.stage = .building ∨ c.stage = .built → c.stage ≠ .registered := by
      rintro c (hstage | hstage) <;> rw [hstage] <;> exact nofun
    cases closes with
    | false =>
      exact h.insert le_rfl rfl rfl (fun u hu => .inl hu) (.refl _) rfl (fun _ => rfl) (h.created_le hc)
        (h.unregistered hc (hne hstage)) nofun nofun nofun (by simp) (by simp)
    | true =>
      exact h.insert le_rfl rfl rfl (fun u hu => .inl hu) (.refl _) rfl
        (fun hu => update_of_ne hu _ _) (h.created_le hc) (h.unregistered hc (hne hstage)) nofun nofun nofun
        (by simp) (by simp)
  | register hc hstage =>
    cases haccepting : m.accepting with
    | true => exact h.register hc hstage haccepting
    | false =>
      unfold Manager.register
      rw [if_neg (by rw [haccepting]; exact Bool.false_ne_true)]
      exact h.insert le_rfl rfl rfl (fun u hu => .inl hu) (.refl _) rfl
        (fun hu => update_of_ne hu _ _) (h.created_le hc) (h.unregistered hc (by rw [hstage]; exact nofun))
        nofun nofun nofun (by simp) (by simp)
  | dropReservation _ _ hdrop =>
    obtain ⟨entries, releases, rfl, hlater⟩ := dropReservation_later hdrop
    exact h.erase rfl rfl rfl rfl hlater.toLater h.supervised rfl
  | supervise hc hstage =>
    refine h.erase rfl rfl rfl rfl (.refl _) (fun {u phase} hu => ?_) rfl
    rcases lookup_insert_iff.1 hu with ⟨rfl, -⟩ | ⟨-, hu⟩
    · exact (h.registered hc hstage).2
    · exact h.supervised hu
  | close hclose =>
    obtain ⟨entries, releases, rfl, hlater⟩ := terminate_later hclose
    exact h.frame rfl rfl rfl rfl hlater.toLater h.supervised .inl
  | drain hdrain =>
    unfold Manager.drain at hdrain
    split_ifs at hdrain
    · obtain ⟨_, _, rfl, hlater⟩ := terminate_later hdrain
      exact h.frame rfl rfl rfl rfl hlater.toLater h.supervised .inl
    · cases hdrain
      exact h
  | noticed hphase => exact h.frame rfl rfl rfl rfl (.refl _) (setPhase_mem h hphase) .inl
  | drained hphase =>
    exact h.frame rfl rfl rfl rfl (.refl _) (setPhase_mem h hphase) (closed_or_mem (h.supervised hphase))
  | waited hphase => exact h.frame rfl rfl rfl rfl (.refl _) (setPhase_mem h hphase) .inl
  | take hphase hentry =>
    exact h.frame rfl rfl rfl rfl (.insert hentry (.taken _)) (setPhase_mem h hphase) .inl
  | dropped hphase => exact h.frame rfl rfl rfl rfl (.refl _) (setPhase_mem h hphase) .inl
  | remove hphase => exact h.frame rfl rfl rfl rfl (.erase _ _) (setPhase_mem h hphase) .inl
  | release =>
    exact h.frame rfl rfl rfl rfl (.refl _) (fun hv => h.supervised (lookup_erase_iff.1 hv).2) .inl
  | scopeClosed hentry =>
    exact h.frame rfl rfl rfl rfl (.refl _) h.supervised (closed_or_mem (h.entry hentry))
  | track => exact h.setScope rfl
  | untrack => exact h.setScope rfl
  | borrow => exact h.setScope rfl

theorem Step.known (hstep : Step m m') (h : m.Known) : m'.Known := by
  cases hstep with
  | task htask => exact htask.known h
  | drainTier _ hdrain =>
    obtain ⟨_, _, rfl, hlater⟩ := drainTier_later hdrain
    exact h.frame rfl rfl rfl rfl hlater.toLater h.supervised .inl
  | abort => exact h.frame rfl rfl rfl rfl (.refl _) h.supervised .inl

structure Grown (m m' : Manager) : Prop where
  registrations : m.registrations ⊆ m'.registrations
  back : ∀ {id e'}, m'.entries.lookup id = some e' →
    (∃ e, m.entries.lookup id = some e ∧ Follows e e') ∨
      (m.accepting = true ∧ id ∉ m.registrations ∧ e'.isOpen = true ∧ e'.lifetime.deadline = none)

theorem Grown.later (hregs : m'.registrations = m.registrations) (h : Later m.entries m'.entries) : Grown m m' :=
  ⟨hregs ▸ List.Subset.refl _, fun he => .inl (h.back he)⟩

theorem Task.grown (hstep : Task m m') (hk : m.Known) : Grown m m' := by
  cases hstep with
  | create hcreate =>
    unfold Manager.create at hcreate
    split_ifs at hcreate
    cases hcreate
    exact .later rfl (.refl _)
  | reserve _ _ _ _ hreserve =>
    obtain ⟨_, he, -, -, rfl⟩ := reserve_later hreserve
    exact .later rfl (.insert he (.users _ _))
  | fail _ _ closes => cases closes <;> exact .later rfl (.refl _)
  | register hc hstage =>
    have hpending := hk.unregistered hc (by rw [hstage]; exact nofun)
    unfold Manager.register
    split_ifs with haccepting
    · refine ⟨subset_append_left _ _, fun {v e'} he => ?_⟩
      rcases lookup_insert_iff.1 he with ⟨rfl, rfl⟩ | ⟨-, he⟩
      · exact .inr ⟨haccepting, hpending, rfl, rfl⟩
      · exact .inl ⟨e', he, .refl _⟩
    · exact .later rfl (.refl _)
  | dropReservation _ _ hdrop =>
    obtain ⟨entries, releases, rfl, hlater⟩ := dropReservation_later hdrop
    exact .later rfl hlater.toLater
  | close hclose =>
    obtain ⟨entries, releases, rfl, hlater⟩ := terminate_later hclose
    exact .later rfl hlater.toLater
  | drain hdrain =>
    unfold Manager.drain at hdrain
    split_ifs at hdrain
    · obtain ⟨_, _, rfl, hlater⟩ := terminate_later hdrain
      exact .later rfl hlater.toLater
    · cases hdrain
      exact .later rfl (.refl _)
  | take _ hentry => exact .later rfl (.insert hentry (.taken _))
  | remove => exact .later rfl (.erase _ _)
  | _ => exact .later rfl (.refl _)

theorem Task.same (hstep : Task m m') : m'.root = m.root ∧ m'.accepting = m.accepting := by
  cases hstep with
  | create hcreate =>
    unfold Manager.create at hcreate
    split_ifs at hcreate
    cases hcreate
    exact ⟨rfl, rfl⟩
  | reserve _ _ _ _ hreserve =>
    obtain ⟨_, -, -, -, rfl⟩ := reserve_later hreserve
    exact ⟨rfl, rfl⟩
  | fail _ _ closes => cases closes <;> exact ⟨rfl, rfl⟩
  | register =>
    unfold Manager.register
    split_ifs <;> exact ⟨rfl, rfl⟩
  | dropReservation _ _ hdrop =>
    obtain ⟨entries, releases, rfl, -⟩ := dropReservation_later hdrop
    exact ⟨rfl, rfl⟩
  | close hclose =>
    obtain ⟨entries, releases, rfl, -⟩ := terminate_later hclose
    exact ⟨rfl, rfl⟩
  | drain hdrain =>
    unfold Manager.drain at hdrain
    split_ifs at hdrain
    · obtain ⟨_, _, rfl, -⟩ := terminate_later hdrain
      exact ⟨rfl, rfl⟩
    · cases hdrain
      exact ⟨rfl, rfl⟩
  | _ => exact ⟨rfl, rfl⟩

theorem Step.grown (hstep : Step m m') (hk : m.Known) : Grown m m' := by
  cases hstep with
  | task htask => exact htask.grown hk
  | drainTier _ hdrain =>
    obtain ⟨_, _, rfl, hlater⟩ := drainTier_later hdrain
    exact .later rfl hlater.toLater
  | abort => exact .later rfl (.refl _)

theorem Reachable.known (h : Reachable m) : m.Known := by
  induction h with
  | new => exact known_new
  | step _ hstep ih => exact hstep.known ih

theorem Reachable.follows (h : Reachable m) (hrun : Relation.ReflTransGen Step m m') (he : m.entries.lookup id = some e)
    (he' : m'.entries.lookup id = some e') : Follows e e' := by
  have hrun' : Reachable m' ∧ id ∈ m'.registrations ∧ ∀ {e'}, m'.entries.lookup id = some e' → Follows e e' := by
    clear he'
    induction hrun with
    | refl =>
      refine ⟨h, h.known.entry he, fun he' => ?_⟩
      cases he.symm.trans he'
      exact .refl e
    | tail _ hstep ih =>
      obtain ⟨hreach, hid, ih⟩ := ih
      have hgrown := hstep.grown hreach.known
      refine ⟨hreach.step hstep, hgrown.registrations hid, fun he' => ?_⟩
      rcases hgrown.back he' with ⟨e₁, he₁, hfollows⟩ | ⟨-, hfresh, -⟩
      · exact (ih he₁).trans hfollows
      · exact absurd hid hfresh
  exact hrun'.2.2 he'

theorem Reachable.no_deadline (h : Reachable m) (he : m.entries.lookup id = some e) (hopen : e.isOpen = true) :
    e.lifetime.deadline = none := by
  induction h generalizing id e with
  | new => cases he
  | step h hstep ih =>
    rcases (hstep.grown h.known).back he with ⟨e₀, he₀, hfollows⟩ | ⟨-, -, -, hnone⟩
    · have hopen₀ : e₀.isOpen = true := by
        by_contra hclosed
        cases hopen.symm.trans (hfollows.closed (Bool.eq_false_iff.2 hclosed))
      rcases hfollows.deadline with hsame | ⟨-, hclosed⟩
      · exact hsame.trans (ih he₀ hopen₀)
      · cases hopen.symm.trans hclosed
    · exact hnone

end Manager

end Kotoconn.Daemon
