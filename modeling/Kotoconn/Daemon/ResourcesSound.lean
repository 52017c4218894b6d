import Kotoconn.Daemon.Known

/-! # The manager keeps references consistent -/

namespace Kotoconn.Daemon
open Lib Option Function Table

namespace Manager

variable {m m' : Manager} {id u t : ResourceId} {e e' : Entry} {c c' : Creation}

/-! ## Before `abort` -/

def Shut (entries : Table ResourceId Entry) (scopes : ResourceId → Scope) (supervisors : Table ResourceId Phase) : Prop :=
  ∀ ⦃id e⦄, entries.lookup id = some e → e.isOpen = true → e.tier = .service →
    (scopes id).closed = false ∧ ∀ ⦃phase⦄, supervisors.lookup id = some phase → phase = .admitting

structure Consistent (m : Manager) : Prop where
  counted : Counted m.entries m.creations
  sound : m.links.Sound
  shut : Shut m.entries m.scopes m.supervisors

theorem consistent_new : new.Consistent where
  counted h := by cases h
  sound := by
    refine ⟨fun h => ?_, fun h => ?_, fun h => ?_, fun _ _ _ _ h => ?_, fun h => ?_, Leases.nil fun u hu => ?_⟩
    · cases h
    · cases h
    · cases h
    · cases h
    · cases h
    · rcases Links.holds_iff.1 hu with ⟨_, h⟩ | ⟨_, h, -⟩ <;> cases h
  shut _ _ h := by cases h

theorem Shut.later {entries entries' : Table ResourceId Entry} {scopes : ResourceId → Scope}
    {supervisors : Table ResourceId Phase} (h : Shut entries scopes supervisors) (hlater : Later entries entries') :
    Shut entries' scopes supervisors := by
  intro id e' he' hopen htier
  obtain ⟨_, he, hfollows⟩ := hlater.back he'
  refine h he ?_ (hfollows.tier.symm.trans htier)
  by_contra hclosed
  rw [hfollows.closed (Bool.eq_false_iff.2 hclosed)] at hopen
  cases hopen

theorem Consistent.not_cancelled (h : m.Consistent) (hroot : m.root = false) (he : m.entries.lookup id = some e)
    (hopen : e.isOpen = true) (htier : e.tier = .service) : m.cancelled id e.lifetime.ancestors = false := by
  unfold cancelled
  rw [hroot, (h.shut he hopen htier).1, Bool.false_or, Bool.false_or, List.any_eq_false]
  intro a ha
  obtain ⟨_, hnode, hopen', htier'⟩ := h.sound.ancestors_open (node_of_entry he) hopen ha
  obtain ⟨_, he', rfl⟩ := node_eq_some.1 hnode
  rw [(h.shut he' hopen' htier').1]
  exact Bool.false_ne_true

section
variable {creations : Table ResourceId Creation}

theorem held_insert_same (h : (creations.lookup u).bind Creation.hold = c.hold) :
    (fun v => ((creations.insert u c).lookup v).bind Creation.hold) =
      fun v => (creations.lookup v).bind Creation.hold := by
  rw [held_insert, ← h]
  exact update_eq_self u (fun v => (creations.lookup v).bind Creation.hold)

theorem reservations_replace (hc : creations.lookup u = some c) (c' : Creation) (t : ResourceId) :
    reservations (creations.insert u c') t + (c.reserved == some t).toNat =
      reservations creations t + (c'.reserved == some t).toNat :=
  count_replace hc c'

theorem reservations_insert_same (hc : creations.lookup u = some c) (hsame : c'.reserved = c.reserved) (t : ResourceId) :
    reservations (creations.insert u c') t = reservations creations t := by
  have hreplace := reservations_replace hc c' t
  rw [hsame] at hreplace
  exact Nat.add_right_cancel hreplace

end

theorem Consistent.setStage (h : m.Consistent) (hc : m.creations.lookup u = some c) (stage : Stage) :
    (m.setStage u c stage).Consistent := by
  have hlinks : (m.setStage u c stage).links = m.links := by
    unfold Manager.setStage links
    rw [held_insert_same (by rw [hc]; rfl)]
  refine ⟨fun {id e} he => ?_, hlinks ▸ h.sound, h.shut⟩
  have hsame : reservations (m.setStage u c stage).creations id = reservations m.creations id :=
    reservations_insert_same hc rfl id
  rw [hsame]
  exact h.counted he

theorem Consistent.create (h : m.Consistent) (hk : m.Known) {config : ResourceConfig}
    (hcreate : m.create config = .ok (id, m')) : m'.Consistent := by
  unfold Manager.create at hcreate
  split_ifs at hcreate
  cases hcreate
  have hvacant : m.creations.lookup (m.next + 1) = none := by
    cases hc : m.creations.lookup (m.next + 1) with
    | none => rfl
    | some => exact absurd (hk.created_le hc) (Nat.not_succ_le_self _)
  have hlinks : links { m with
      next := m.next + 1, creations := m.creations.insert (m.next + 1) ⟨config, .building, none, []⟩ } = m.links := by
    unfold links
    rw [held_insert_same (by rw [hvacant]; rfl)]
  refine ⟨fun {v e} he => ?_, hlinks ▸ h.sound, h.shut⟩
  have hsame : reservations (m.creations.insert (m.next + 1) ⟨config, .building, none, []⟩) v =
      reservations m.creations v := count_insert_vacant hvacant _
  rw [hsame]
  exact h.counted he

theorem Known.node_pending (h : m.Known) (hc : m.creations.lookup u = some c) (hstage : c.stage ≠ .registered) :
    m.links.node u = none := by
  refine node_eq_none.2 ?_
  cases he : m.entries.lookup u with
  | none => rfl
  | some => exact absurd (h.entry he) (h.unregistered hc hstage)

theorem Consistent.reserve (h : m.Consistent) (hk : m.Known) (hc : m.creations.lookup u = some c)
    (hstage : c.stage = .building) (hnone : c.reserved = none) (hreserve : m.reserve u c id = .ok m') :
    m'.Consistent := by
  obtain ⟨entry, he, hopen, hlive, rfl⟩ := reserve_later hreserve
  have hserving : m.links.Serving id entry.node := ⟨node_of_entry he, hopen, (hk.kind he hlive).symm⟩
  refine ⟨fun {v e} hv => ?_, ?_, h.shut.later (.insert he (.users entry _))⟩
  · have husers := openUsers_insert he (show Entry.node { entry with users := entry.users + 1 } = entry.node from rfl) v
    have hreserved := reservations_replace hc { c with
      reserved := some id
      ancestors := if c.config.native = .dialer then id :: entry.lifetime.ancestors else [] } v
    have hbefore : (c.reserved == some v) = false := by rw [hnone]; rfl
    rw [hbefore, Bool.toNat_false, add_zero] at hreserved
    rw [husers, hreserved]
    rcases lookup_insert_iff.1 hv with ⟨rfl, rfl⟩ | ⟨hne, hv⟩
    · have := h.counted he
      simp
      omega
    · have hother : ((some id : Option ResourceId) == some v) = false := by simpa using Ne.symm hne
      rw [hother]
      exact h.counted hv
  · have hlinks : links { m with
        entries := m.entries.insert id { entry with users := entry.users + 1 }
        creations := m.creations.insert u { c with
          reserved := some id
          ancestors := if c.config.native = .dialer then id :: entry.lifetime.ancestors else [] }
        reserves := m.reserves ++ [u] } = { m.links with
          held := update m.links.held u
            (some (id, if c.config.native = .dialer then id :: entry.lifetime.ancestors else []))
          reserves := m.links.reserves ++ [u] } := by
      unfold links
      rw [held_insert]
      congr 1
      funext v
      have hnode : Entry.node { entry with users := entry.users + 1 } = entry.node := rfl
      exact node_insert_same he hnode v
    rw [hlinks]
    have hfresh := hk.fresh hc hstage hnone
    refine Links.Step.sound (.hold hserving ?_ (hk.node_pending hc (by rw [hstage]; exact nofun)) hfresh) h.sound
    split_ifs
    · exact .inr rfl
    · exact .inl rfl

theorem Consistent.register (h : m.Consistent) (hk : m.Known) (hc : m.creations.lookup id = some c)
    (hstage : c.stage = .built) (haccepting : m.accepting = true) : (m.register id c).2.Consistent := by
  have hnode : m.links.node id = none := hk.node_pending hc (by rw [hstage]; exact nofun)
  have hvacant := node_eq_none.1 hnode
  have hheld : m.links.held id = c.hold := held_of_creation hc
  have hanc : ((c.hold).map Prod.snd).getD [] = c.ancestors := by
    unfold Creation.hold
    obtain hnone | ⟨used, hsome⟩ := eq_none_or_eq_some c.reserved
    · rw [hnone, hk.unused hc (.inr hstage) hnone]
      rfl
    · rw [hsome]
      rfl
  have huses : (c.hold).map Prod.fst = c.reserved := by
    unfold Creation.hold
    rw [Option.map_map]
    exact Option.map_id'
  have hlinks : (m.register id c).2.links = { m.links with
      node := update m.links.node id (some ⟨c.config.native.tier, true,
        ((m.links.held id).map Prod.snd).getD [], (m.links.held id).map Prod.fst⟩)
      held := update m.links.held id none } := by
    rw [hheld, hanc, huses]
    unfold Manager.register links
    rw [if_pos haccepting]
    simp only
    rw [node_insert, held_insert]
    rfl
  have hstep : Links.Step m.links (m.register id c).2.links := by
    rw [hlinks]
    refine .confirm haccepting hnode fun hentry => ?_
    rw [hheld]
    have hreserved := hk.built hc hstage
    unfold Creation.hold
    rw [hreserved]
    cases hconfig : c.config with
    | inbound => rfl
    | dnsListener => rfl
    | dialer =>
      rw [hconfig] at hentry
      cases hentry
    | dnsService =>
      rw [hconfig] at hentry
      cases hentry
  have hunused : ∀ u, ¬ m.links.Uses u id := by
    -- what is used is registered
    rintro u (⟨a, hu⟩ | ⟨n, hu, hopen, huses⟩)
    · obtain ⟨_, hn, -⟩ := h.sound.held haccepting hu
      cases hnode.symm.trans hn.1
    · obtain ⟨_, hn', -⟩ := h.sound.uses hu hopen huses
      cases hnode.symm.trans hn'.1
  obtain ⟨_, _⟩ := count_of_unused hunused
  refine ⟨?_, hstep.sound h.sound, ?_⟩
  · unfold Manager.register
    rw [if_pos haccepting]
    intro v e hv
    have husers : openUsers (m.entries.insert id
        ⟨c.config.native.tier, some c.config.native, .new c.ancestors, c.reserved, 0⟩) v =
        openUsers m.entries v + (c.reserved == some v).toNat := count_insert_vacant hvacant _
    have hreserved := reservations_replace hc { c with stage := .registered, reserved := none } v
    have hafter : ((none : Option ResourceId) == some v) = false := rfl
    rw [hafter, Bool.toNat_false, add_zero] at hreserved
    simp only [husers]
    rcases lookup_insert_iff.1 hv with ⟨rfl, rfl⟩ | ⟨-, hv⟩
    · simp only
      omega
    · have := h.counted hv
      omega
  · unfold Manager.register
    rw [if_pos haccepting]
    intro v e hv hopen htier
    rcases lookup_insert_iff.1 hv with ⟨rfl, rfl⟩ | ⟨-, hv⟩
    · refine ⟨hk.scope hc (.inr hstage), fun phase hphase => ?_⟩
      exact absurd (hk.supervised hphase) (hk.unregistered hc (by rw [hstage]; exact nofun))
    · exact h.shut hv hopen htier

theorem reservations_erase {creations : Table ResourceId Creation} (hc : creations.lookup u = some c) (t : ResourceId) :
    reservations (creations.erase u) t + (c.reserved == some t).toNat = reservations creations t :=
  count_erase hc

theorem Consistent.eraseCreation (h : m.Consistent) (hc : m.creations.lookup id = some c) (hnone : c.reserved = none) :
    Consistent { m with creations := m.creations.erase id } := by
  have hlinks : links { m with creations := m.creations.erase id } = m.links := by
    have hhold : (m.creations.lookup id).bind Creation.hold = none :=
      (held_of_creation hc).trans (by rw [Creation.hold, hnone]; rfl)
    unfold links
    rw [held_erase, ← hhold]
    congr 1
    exact update_eq_self id (fun v => (m.creations.lookup v).bind Creation.hold)
  refine ⟨fun {v e} hv => ?_, hlinks ▸ h.sound, h.shut⟩
  rw [h.counted hv, ← reservations_erase hc v, hnone]
  rfl

theorem Consistent.dropReservation (h : m.Consistent) (hc : m.creations.lookup id = some c) :
    ∃ m', m.dropReservation id c = some m' ∧ m'.Consistent := by
  unfold Manager.dropReservation
  obtain hnone | ⟨used, hsome⟩ := eq_none_or_eq_some c.reserved
  · rw [hnone]
    exact ⟨_, rfl, h.eraseCreation hc hnone⟩
  · have hbut : CountedBut used m.entries (m.creations.erase id) := by
      intro v e hv
      rw [h.counted hv, ← reservations_erase hc v, hsome]
      by_cases hv : v = used
      · simp [hv]
        rfl
      · simp [hv, Ne.symm hv]
    obtain ⟨entries, hrelease, hcounted, hsame⟩ := @CountedBut.releaseUser
      { m with creations := m.creations.erase id, releases := m.releases ++ [id] } used hbut
    obtain ⟨_, heq, hlater⟩ := releaseUser_later hrelease
    cases heq
    simp only [hsome]
    refine ⟨_, hrelease, hcounted, ?_, h.shut.later hlater.toLater⟩
    have hlinks : links { m with entries, creations := m.creations.erase id, releases := m.releases ++ [id] } =
        { m.links with held := update m.links.held id none, releases := m.links.releases ++ [id] } := by
      unfold links
      rw [held_erase]
      congr 1
      funext v
      exact hsame.node v
    have hhold : m.links.held id = some (used, c.ancestors) := by
      rw [held_of_creation hc, Creation.hold, hsome]
      rfl
    rw [hlinks]
    exact Links.Step.sound (.letGo hhold) h.sound

theorem Consistent.endResource (h : m.Consistent) (he : m.entries.lookup id = some e) (hzero : e.users = 0)
    (ending : Ending) : ∃ m', m.endResource id ending = some m' ∧ m'.Consistent := by
  obtain ⟨entries, hend, hcounted, hsame⟩ := endResource_spec h.counted he ending
  obtain ⟨_, _, heq, hlater⟩ := endResource_later hend
  cases heq
  refine ⟨_, hend, hcounted, ?_, h.shut.later hlater.toLater⟩
  have hnode : (fun v => (entries.lookup v).map Entry.node) =
      update m.links.node id (some { e.node with isOpen := false }) := by
    rw [show (fun v => (entries.lookup v).map Entry.node) = _ from funext hsame.node, node_insert]
    rfl
  unfold links
  rw [hnode]
  by_cases hopen : e.isOpen = true
  · have hstep := Links.Step.close (node_of_entry he) hopen (Counted.unused h.counted he hzero)
    simp only [hopen, true_and]
    exact hstep.sound h.sound
  · have hkept : { e.node with isOpen := false } = e.node := by
      have hclosed : e.isOpen = false := Bool.eq_false_iff.2 hopen
      unfold Entry.node
      rw [hclosed]
    have hnode' : some e.node = m.links.node id := (node_of_entry he).symm
    rw [hkept, hnode', update_eq_self, if_neg fun hand => hopen hand.1, List.append_nil]
    exact h.sound

theorem Consistent.terminate (h : m.Consistent) {ending : Ending} {result : Except String Unit}
    (hterminate : m.terminate id ending = some (result, m')) : m'.Consistent := by
  unfold Manager.terminate at hterminate
  cases he : m.entries.lookup id with
  | none =>
    rw [he] at hterminate
    cases hterminate
    exact h
  | some =>
    simp only [he] at hterminate
    split_ifs at hterminate with hzero
    · obtain ⟨_, hend, hcons⟩ := h.endResource he hzero ending
      rw [hend] at hterminate
      cases hterminate
      exact hcons
    · cases hterminate
      exact h

theorem node_endedIn {ids : List ResourceId} {tier : Tier} (he : m.entries.lookup id = some e)
    (hids : m.OpenOf tier ids) : (endedIn ids id e).node = Links.Node.closeOf tier e.node := by
  have hiff : id ∈ ids ↔ e.tier = tier ∧ e.isOpen = true := by
    rw [hids.2 id]
    constructor
    · rintro ⟨_, he', h⟩
      obtain rfl := some.inj (he.symm.trans he')
      exact h
    · exact fun h => ⟨e, he, h⟩
  unfold endedIn Links.Node.closeOf
  by_cases htier : e.tier = tier
  · rw [if_pos (show e.node.tier = tier from htier)]
    by_cases hopen : e.isOpen = true
    · rw [if_pos (hiff.2 ⟨htier, hopen⟩)]
      rfl
    · rw [if_neg fun hid => hopen (hiff.1 hid).2]
      have hclosed : e.isOpen = false := Bool.eq_false_iff.2 hopen
      unfold Entry.node
      rw [hclosed]
  · rw [if_neg fun hid => htier (hiff.1 hid).1, if_neg (show e.node.tier ≠ tier from htier)]

theorem Consistent.drainTier (h : m.Consistent) {tier : Tier} {ids : List ResourceId} (hids : m.OpenOf tier ids) :
    ∃ m', m.drainTier ids = some m' ∧ m'.Consistent := by
  have hopen : ∀ id ∈ ids, ∃ e, m.entries.lookup id = some e ∧ e.isOpen = true := by
    intro id hid
    obtain ⟨e, he, -, hopen⟩ := (hids.2 id).1 hid
    exact ⟨e, he, hopen⟩
  obtain ⟨entries, hdrain, hcounted, hsame⟩ := @drainTier_spec { m with accepting := false } ids h.counted hids.1 hopen
  obtain ⟨_, _, heq, hlater⟩ := endResources_later hdrain
  cases heq
  refine ⟨_, hdrain, hcounted, ?_, h.shut.later hlater.toLater⟩
  have hnode : (fun v => (entries.lookup v).map Entry.node) =
      fun v => (m.links.node v).map (Links.Node.closeOf tier) := by
    funext v
    rw [hsame.node v]
    cases he : m.entries.lookup v with
    | none =>
      rw [node_eq_none.2 he]
      rfl
    | some =>
      rw [node_of_entry he]
      exact congrArg some (node_endedIn he hids)
  have hstep := @Links.Step.closeTier m.links tier (m.usersIn ids) (hids.1.filter _) fun v => by
    unfold usersIn
    rw [List.mem_filter, hids.2 v]
    constructor
    · rintro ⟨⟨e, he, htier, hopen⟩, huses⟩
      rw [he] at huses
      exact ⟨e.node, node_of_entry he, htier, hopen, huses⟩
    · rintro ⟨_, hn, htier, hopen, huses⟩
      obtain ⟨e, he, rfl⟩ := node_eq_some.1 hn
      exact ⟨⟨e, he, htier, hopen⟩, by rw [he]; exact huses⟩
  unfold links
  rw [hnode]
  exact hstep.sound h.sound

theorem Shut.other {entries : Table ResourceId Entry} {scopes scopes' : ResourceId → Scope}
    {supervisors supervisors' : Table ResourceId Phase} (h : Shut entries scopes supervisors)
    (hended : ∀ e, entries.lookup id = some e → e.isOpen = true → e.tier ≠ .service)
    (hscopes : ∀ v, v ≠ id → scopes' v = scopes v)
    (hsups : ∀ v, v ≠ id → supervisors'.lookup v = supervisors.lookup v) : Shut entries scopes' supervisors' := by
  intro v e hv hopen htier
  have hne : v ≠ id := fun heq => hended e (heq ▸ hv) hopen htier
  rw [hscopes v hne, hsups v hne]
  exact h hv hopen htier

variable (h : m.Consistent)
include h

theorem Consistent.ended {phase : Phase} (hphase : m.supervisors.lookup id = some phase)
    (hne : phase ≠ .admitting) (e : Entry) (he : m.entries.lookup id = some e) (hopen : e.isOpen = true) :
    e.tier ≠ .service :=
  fun htier => hne ((h.shut he hopen htier).2 hphase)

theorem Consistent.setPhase
    (hended : ∀ e, m.entries.lookup id = some e → e.isOpen = true → e.tier ≠ .service) (phase : Phase) :
    (m.setPhase id phase).Consistent :=
  ⟨h.counted, h.sound, h.shut.other hended (fun _ _ => rfl) fun _ hv => AList.lookup_insert_ne hv⟩

theorem Consistent.closeScope
    (hended : ∀ e, m.entries.lookup id = some e → e.isOpen = true → e.tier ≠ .service) : (m.closeScope id).Consistent :=
  ⟨h.counted, h.sound, h.shut.other hended (fun _ hv => update_of_ne hv _ _) fun _ _ => rfl⟩

theorem Consistent.setScope {scope : Scope} (hsame : scope.closed = (m.scopes id).closed) :
    (m.setScope id scope).Consistent := by
  refine ⟨h.counted, h.sound, fun v e hv hopen htier => ?_⟩
  rw [setScope_closed hsame]
  exact h.shut hv hopen htier

theorem Consistent.takeLive (he : m.entries.lookup id = some e) : (m.takeLive id e).Consistent := by
  have hnode : Entry.node { e with live := none } = e.node := rfl
  have hlinks : (m.takeLive id e).links = m.links := by
    unfold Manager.takeLive links
    congr 1
    funext v
    exact node_insert_same he hnode v
  refine ⟨fun {v e'} hv => ?_, hlinks ▸ h.sound, h.shut.later (.insert he (.taken e))⟩
  have hsame : openUsers (m.takeLive id e).entries v = openUsers m.entries v := openUsers_insert he hnode v
  rw [hsame]
  rcases lookup_insert_iff.1 hv with ⟨rfl, rfl⟩ | ⟨-, hv⟩
  · have := h.counted he
    exact this
  · exact h.counted hv

theorem Consistent.removeEntry
    (hended : ∀ e, m.entries.lookup id = some e → e.isOpen = true → e.tier ≠ .service) :
    (m.removeEntry id).Consistent := by
  cases he : m.entries.lookup id with
  | none =>
    unfold Manager.removeEntry
    rw [Table.erase_vacant he]
    exact h
  | some e =>
    have hforget : e.node.isOpen = false ∨ e.node.tier = .entryPoint := by
      by_cases hopen : e.isOpen = true
      · refine .inr ?_
        cases htier : e.tier with
        | entryPoint => exact htier
        | service => exact absurd htier (hended e he hopen)
      · exact .inl (Bool.eq_false_iff.2 hopen)
    refine ⟨fun {v e'} hv => ?_, ?_, h.shut.later (.erase _ _)⟩
    · have herase : openUsers (m.entries.erase id) v + (e.isOpen && e.uses == some v).toNat = openUsers m.entries v :=
        count_erase he
      have hnone : (e.isOpen && e.uses == some v) = false := by
        rcases hforget with hclosed | hentry
        · rw [show e.isOpen = false from hclosed]
          rfl
        · rw [show e.uses = none from h.sound.entryPoint (node_of_entry he) hentry]
          exact Bool.and_false _
      rw [hnone, Bool.toNat_false, add_zero] at herase
      rw [show openUsers (m.removeEntry id).entries v = openUsers m.entries v from herase]
      exact h.counted (lookup_erase_iff.1 hv).2
    · have hlinks : (m.removeEntry id).links = { m.links with node := update m.links.node id none } := by
        unfold Manager.removeEntry links
        simp only
        rw [node_erase]
      rw [hlinks]
      exact Links.Step.sound (.forget (node_of_entry he) hforget) h.sound

omit h

theorem Known.not_ended (h : m.Known) (hc : m.creations.lookup id = some c) (hstage : c.stage ≠ .registered) (e : Entry)
    (he : m.entries.lookup id = some e) (_ : e.isOpen = true) : e.tier ≠ .service :=
  absurd (h.entry he) (h.unregistered hc hstage)

theorem Task.consistent (hstep : Task m m') (hk : m.Known) (h : m.Consistent) (hroot : m'.root = false) :
    m'.Consistent := by
  cases hstep with
  | create hcreate => exact h.create hk hcreate
  | reserve hc hstage hnone _ hreserve => exact h.reserve hk hc hstage hnone hreserve
  | built hc => exact h.setStage hc _
  | fail hc hstage closes =>
    cases closes with
    | false => exact h.setStage hc _
    | true =>
      refine Consistent.setStage (h.closeScope (hk.not_ended hc fun hreg => ?_)) hc _
      rcases hstage with hstage | hstage <;> cases hstage.symm.trans hreg
  | register hc hstage =>
    cases haccepting : m.accepting with
    | true => exact h.register hk hc hstage haccepting
    | false =>
      unfold Manager.register
      rw [if_neg (by rw [haccepting]; exact Bool.false_ne_true)]
      refine Consistent.setStage (h.closeScope (hk.not_ended hc fun hreg => ?_)) hc _
      cases hstage.symm.trans hreg
  | dropReservation hc _ hdrop =>
    obtain ⟨_, hdrop', hcons⟩ := h.dropReservation hc
    cases hdrop'.symm.trans hdrop
    exact hcons
  | supervise hc hstage =>
    have herased := h.eraseCreation hc (hk.registered hc hstage).1
    refine ⟨herased.counted, herased.sound, fun v e hv hopen htier => ?_⟩
    refine ⟨(h.shut hv hopen htier).1, fun phase hphase => ?_⟩
    rcases lookup_insert_iff.1 hphase with ⟨-, rfl⟩ | ⟨-, hphase⟩
    · rfl
    · exact (h.shut hv hopen htier).2 hphase
  | close hclose => exact h.terminate hclose
  | drain hdrain =>
    unfold Manager.drain at hdrain
    split_ifs at hdrain
    · exact h.terminate hdrain
    · cases hdrain
      exact h
  | noticed _ hentry hclosed =>
    refine h.setPhase (fun e he hopen htier => ?_) _
    cases hentry.symm.trans he
    rcases hclosed with hclosed | hcancelled
    · cases hopen.symm.trans hclosed
    · cases (h.not_cancelled hroot he hopen htier).symm.trans hcancelled
  | drained hphase =>
    have hended := h.ended hphase nofun
    exact Consistent.setPhase (h.closeScope hended) hended _
  | waited hphase => exact h.setPhase (h.ended hphase nofun) _
  | take hphase hentry =>
    have hdropping := h.setPhase (h.ended hphase nofun) .dropping
    exact hdropping.takeLive hentry
  | dropped hphase => exact h.setPhase (h.ended hphase nofun) _
  | remove hphase =>
    have hended := h.ended hphase nofun
    have hremoved := h.setPhase hended .removed
    exact hremoved.removeEntry hended
  | release hphase =>
    refine ⟨h.counted, h.sound, fun v e hv hopen htier => ?_⟩
    refine ⟨(h.shut hv hopen htier).1, fun phase hphase => ?_⟩
    exact (h.shut hv hopen htier).2 (lookup_erase_iff.1 hphase).2
  | scopeClosed hentry htier =>
    refine h.closeScope fun e he hopen hservice => ?_
    cases hentry.symm.trans he
    cases htier.symm.trans hservice
  | track => exact h.setScope rfl
  | untrack => exact h.setScope rfl
  | borrow => exact h.setScope rfl

/-- **Each step before `abort` keeps the manager consistent.** -/
theorem Step.consistent (hstep : Step m m') (hk : m.Known) (h : m.Consistent) (hroot : m'.root = false) :
    m'.Consistent := by
  cases hstep with
  | task htask => exact htask.consistent hk h hroot
  | drainTier hids hdrain =>
    obtain ⟨_, hdrain', hcons⟩ := h.drainTier hids
    cases hdrain'.symm.trans hdrain
    exact hcons
  | abort => cases hroot

theorem Step.root (hstep : Step m m') (hroot : m'.root = false) : m.root = false := by
  cases hstep with
  | task htask => exact htask.same.1.symm.trans hroot
  | drainTier _ hdrain =>
    obtain ⟨_, _, rfl, -⟩ := drainTier_later hdrain
    exact hroot
  | abort => cases hroot

theorem Reachable.consistent (h : Reachable m) (hroot : m.root = false) : m.Consistent := by
  induction h with
  | new => exact consistent_new
  | step h hstep ih => exact hstep.consistent h.known (ih (hstep.root hroot)) hroot

/-- The answer of a policy call that ends `id`: an error exactly if the resource is registered and used, and then nothing
changes. -/
def Refuses (m : Manager) (id : ResourceId) (answer : Option (Except String Unit × Manager)) : Prop :=
  ∃ result m', answer = some (result, m') ∧
    ((∃ message, result = .error message) ↔ ∃ e, m.entries.lookup id = some e ∧ 0 < e.users) ∧
    ((∃ message, result = .error message) → m' = m)

theorem Consistent.refuses (h : m.Consistent) (id : ResourceId) (ending : Ending) :
    m.Refuses id (m.terminate id ending) := by
  unfold Manager.terminate
  cases he : m.entries.lookup id with
  | none =>
    refine ⟨_, _, rfl, ⟨nofun, ?_⟩, nofun⟩
    rintro ⟨e, he', -⟩
    cases he.symm.trans he'
  | some e =>
    by_cases hzero : e.users = 0
    · obtain ⟨m', hend, -⟩ := h.endResource he hzero ending
      refine ⟨.ok (), m', by simp only [hzero, if_true, hend, map_some], ⟨nofun, ?_⟩, nofun⟩
      rintro ⟨_, he', _⟩
      cases he.symm.trans he'
      omega
    · refine ⟨_, m, if_neg hzero, ⟨fun _ => ⟨e, he, Nat.pos_of_ne_zero hzero⟩, fun _ => ⟨_, rfl⟩⟩, fun _ => rfl⟩

/-- Resource dependencies before `abort`, and what can become of them. -/
structure Dependencies (m : Manager) : Prop where
  users : ∀ {id e}, m.entries.lookup id = some e → e.users = openUsers m.entries id + reservations m.creations id
  uses : ∀ {id e t}, m.entries.lookup id = some e → e.isOpen = true → e.uses = some t →
    ∃ e', m.entries.lookup t = some e' ∧ e'.isOpen = true
  leases : Leases m.links.Holds m.reserves m.releases
  dropReservation : ∀ {id c}, m.creations.lookup id = some c → ∃ m', m.dropReservation id c = some m'
  drainTier : ∀ {tier ids}, m.OpenOf tier ids → ∃ m', m.drainTier ids = some m'
  close : ∀ id, m.Refuses id (m.close id)
  drain : ∀ id {now timeout}, now + timeout < instantLimit → m.Refuses id (m.drain id now timeout)
  admission : ∀ {m' id e e'}, Relation.ReflTransGen Step m m' → m.entries.lookup id = some e →
    m'.entries.lookup id = some e' → e.isOpen = false → e'.isOpen = false
  no_deadline : ∀ {id e}, m.entries.lookup id = some e → e.isOpen = true → e.lifetime.deadline = none
  deadline : ∀ {m' id e e'}, Step m m' → m.entries.lookup id = some e → m'.entries.lookup id = some e' →
    e'.lifetime.deadline ≠ e.lifetime.deadline → e.isOpen = true ∧ e'.isOpen = false

/-- **Resource dependencies stay consistent** in every interleaving of creations, policy calls, draining of tiers and
releases before `abort`. -/
theorem Reachable.dependencies (h : Reachable m) (hroot : m.root = false) : m.Dependencies := by
  have hcons := h.consistent hroot
  refine ⟨hcons.counted, fun {id e t} he hopen huses => ?_, hcons.sound.leases, fun hc => ?_, fun hids => ?_,
    fun id => hcons.refuses id _, fun id {now timeout} hrange => ?_, fun hrun he he' => ?_, h.no_deadline,
    fun hstep he he' hne => ?_⟩
  · obtain ⟨_, ⟨hnode, hopen', -⟩, -⟩ := hcons.sound.uses (node_of_entry he) hopen huses
    obtain ⟨e', he', rfl⟩ := node_eq_some.1 hnode
    exact ⟨e', he', hopen'⟩
  · obtain ⟨m', hdrop, -⟩ := hcons.dropReservation hc
    exact ⟨m', hdrop⟩
  · obtain ⟨m', hdrain, -⟩ := hcons.drainTier hids
    exact ⟨m', hdrain⟩
  · unfold Manager.drain
    rw [if_pos hrange]
    exact hcons.refuses id _
  · exact (h.follows hrun he he').closed
  · exact (h.follows (.single hstep) he he').deadline.resolve_left hne

/-- A dialer and a DNS service that is being created on it: the dialer has one user and does not close. -/
theorem dependencies_dialer_in_use : ∃ m, Reachable m ∧ m.root = false ∧ m.Dependencies ∧
    (m.entries.lookup 1).map Entry.users = some 1 ∧ m.reserves = [2] ∧
    (m.close 1).map Prod.fst = some (.error "resource is used by 1 open resources; close them first") := by
  have h₁ : Reachable _ := .step .new (.task (@Task.create new _ (.dialer none) 1 rfl))
  have h₂ : Reachable _ := h₁.step (.task (@Task.built _ 1 _ rfl rfl rfl))
  have h₃ : Reachable _ := h₂.step (.task (@Task.register _ 1 _ rfl rfl))
  have h₄ : Reachable _ := h₃.step (.task (@Task.supervise _ 1 _ rfl rfl))
  have h₅ : Reachable _ := h₄.step (.task (@Task.create _ _ (.dnsService 1) 2 rfl))
  have h₆ : Reachable _ := h₅.step (.task (@Task.reserve _ _ 2 1 _ rfl rfl rfl rfl rfl))
  exact ⟨_, h₆, rfl, h₆.dependencies rfl, rfl, rfl, rfl⟩

end Manager

end Kotoconn.Daemon
