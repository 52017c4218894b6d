import Kotoconn.Daemon.Known

/-!
# The release of a resource

Nothing here depends on `abort`.
-/

namespace Kotoconn.Daemon
open Lib Option Function Table AList

def Phase.closed : Phase → Bool
  | admitting | draining => false
  | closing | idle | dropping | dropped | removed => true

def Phase.quiet : Phase → Bool
  | admitting | draining | closing => false
  | idle | dropping | dropped | removed => true

namespace Manager

structure Located (m : Manager) : Prop where
  registered : ∀ {id}, id ∈ m.registrations →
    (∃ e, m.entries.lookup id = some e) ∨ m.supervisors.lookup id = some .removed ∨ m.released id = true
  entry : ∀ {id e}, m.entries.lookup id = some e → m.released id = false ∧ m.supervisors.lookup id ≠ some .removed
  pending : ∀ {id c}, m.creations.lookup id = some c → c.stage = .registered →
    m.supervisors.lookup id = none ∧ m.released id = false
  released : ∀ {id}, m.released id = true → id ∈ m.registrations ∧ m.supervisors.lookup id = none
  closed : ∀ {id}, (∃ phase, m.supervisors.lookup id = some phase ∧ phase.closed = true) ∨ m.released id = true →
    (m.scopes id).closed = true
  quiet : ∀ {id}, (∃ phase, m.supervisors.lookup id = some phase ∧ phase.quiet = true) ∨ m.released id = true →
    (m.scopes id).work = 0

variable {m m' : Manager} {id u t : ResourceId} {e e' : Entry} {c c' : Creation}

theorem located_new : new.Located where
  registered := nofun
  entry h := by cases h
  pending h := by cases h
  released h := by cases h
  closed h := by
    rcases h with ⟨_, h, -⟩ | h <;> cases h
  quiet h := by
    rcases h with ⟨_, h, -⟩ | h <;> cases h

structure Settles (scopes scopes' : ResourceId → Scope) : Prop where
  closed : ∀ {id}, (scopes id).closed = true → (scopes' id).closed = true
  work : ∀ {id}, (scopes id).closed = true → (scopes id).work = 0 → (scopes' id).work = 0

theorem Settles.refl (scopes : ResourceId → Scope) : Settles scopes scopes := ⟨id, fun _ => id⟩

theorem Settles.update {scopes : ResourceId → Scope} {scope : Scope}
    (hclosed : (scopes id).closed = true → scope.closed = true)
    (hwork : (scopes id).closed = true → (scopes id).work = 0 → scope.work = 0) :
    Settles scopes (Function.update scopes id scope) := by
  constructor
  · intro v hv
    by_cases hvid : v = id
    · subst hvid
      rw [update_self]
      exact hclosed hv
    · rw [update_of_ne hvid]
      exact hv
  · intro v hv hzero
    by_cases hvid : v = id
    · subst hvid
      rw [update_self]
      exact hwork hv hzero
    · rw [update_of_ne hvid]
      exact hzero

theorem closed_of_quiet (h : (∃ phase, m.supervisors.lookup id = some phase ∧ phase.quiet = true) ∨ m.released id = true) :
    (∃ phase, m.supervisors.lookup id = some phase ∧ phase.closed = true) ∨ m.released id = true := by
  refine h.imp_left fun ⟨phase, hphase, hquiet⟩ => ⟨phase, hphase, ?_⟩
  cases phase <;> first | rfl | cases hquiet

variable (h : m.Located)
include h

theorem Located.frame (hregs : m'.registrations = m.registrations)
    (hentries : Kept m.entries m'.entries) (hsups : m'.supervisors = m.supervisors)
    (hreleased : m'.released = m.released)
    (hcreations : ∀ {id c}, m'.creations.lookup id = some c → c.stage = .registered → m.creations.lookup id = some c)
    (hscopes : Settles m.scopes m'.scopes) : m'.Located where
  registered hid := by
    rw [hregs] at hid
    rw [hsups, hreleased]
    exact (h.registered hid).imp_left fun ⟨_, he⟩ => hentries.forth he
  entry he := by
    obtain ⟨_, he, -⟩ := hentries.back he
    rw [hsups, hreleased]
    exact h.entry he
  pending hc hstage := by
    rw [hsups, hreleased]
    exact h.pending (hcreations hc hstage) hstage
  released hid := by
    rw [hreleased] at hid
    rw [hregs, hsups]
    exact h.released hid
  closed hid := by
    rw [hsups, hreleased] at hid
    exact hscopes.closed (h.closed hid)
  quiet {id} hid := by
    rw [hsups, hreleased] at hid
    exact hscopes.work (h.closed (closed_of_quiet hid)) (h.quiet hid)

variable {phase : Phase}

theorem Located.insertPhase (hregs : m'.registrations = m.registrations)
    (hentries : Kept m.entries m'.entries) (hsups : m'.supervisors = m.supervisors.insert id phase)
    (hreleased : m'.released = m.released)
    (hcreations : ∀ {v c}, m'.creations.lookup v = some c → c.stage = .registered →
      v ≠ id ∧ m.creations.lookup v = some c) (hscopes : Settles m.scopes m'.scopes) (hfree : m.released id = false)
    (hkept : m.supervisors.lookup id ≠ some .removed) (hremoved : phase ≠ .removed)
    (hclosed : phase.closed = true → (m'.scopes id).closed = true)
    (hquiet : phase.quiet = true → (m'.scopes id).work = 0) : m'.Located where
  registered {v} hv := by
    rw [hregs] at hv
    rw [hsups, hreleased]
    by_cases hvid : v = id
    · subst hvid
      obtain ⟨e, he⟩ := (h.registered hv).resolve_right
        (fun hgone => hgone.elim hkept fun hr => Bool.false_ne_true (hfree.symm.trans hr))
      exact .inl (hentries.forth he)
    · rw [lookup_insert_ne hvid]
      exact (h.registered hv).imp_left fun ⟨_, he⟩ => hentries.forth he
  entry {v e} he := by
    obtain ⟨_, he, -⟩ := hentries.back he
    rw [hsups, hreleased]
    refine ⟨(h.entry he).1, ?_⟩
    by_cases hvid : v = id
    · subst hvid
      rw [lookup_insert]
      exact fun heq => hremoved (some.inj heq)
    · rw [lookup_insert_ne hvid]
      exact (h.entry he).2
  pending {v c} hc hstage := by
    obtain ⟨hvid, hc⟩ := hcreations hc hstage
    rw [hsups, hreleased, lookup_insert_ne hvid]
    exact h.pending hc hstage
  released {v} hv := by
    rw [hreleased] at hv
    have hvid : v ≠ id := fun heq => Bool.false_ne_true (hfree.symm.trans (heq ▸ hv))
    rw [hregs, hsups, lookup_insert_ne hvid]
    exact h.released hv
  closed {v} hv := by
    rw [hsups, hreleased] at hv
    by_cases hvid : v = id
    · subst hvid
      rw [lookup_insert, hfree] at hv
      obtain ⟨phase', hphase', hv⟩ := hv.resolve_right Bool.false_ne_true
      exact hclosed (some.inj hphase' ▸ hv)
    · rw [lookup_insert_ne hvid] at hv
      exact hscopes.closed (h.closed hv)
  quiet {v} hv := by
    rw [hsups, hreleased] at hv
    by_cases hvid : v = id
    · subst hvid
      rw [lookup_insert, hfree] at hv
      obtain ⟨_, hphase', hv⟩ := hv.resolve_right Bool.false_ne_true
      exact hquiet (some.inj hphase' ▸ hv)
    · rw [lookup_insert_ne hvid] at hv
      exact hscopes.work (h.closed (closed_of_quiet hv)) (h.quiet hv)

theorem Located.not_released (hphase : m.supervisors.lookup id = some phase) :
    m.released id = false := by
  refine Bool.eq_false_iff.2 fun hreleased => ?_
  cases hphase.symm.trans (h.released hreleased).2

theorem Located.advance {phase phase' : Phase} (hphase : m.supervisors.lookup id = some phase)
    (hregs : m'.registrations = m.registrations) (hentries : Kept m.entries m'.entries)
    (hsups : m'.supervisors = m.supervisors.insert id phase') (hreleased : m'.released = m.released)
    (hcreations : m'.creations = m.creations) (hscopes : Settles m.scopes m'.scopes)
    (hphase' : phase ≠ .removed ∧ phase' ≠ .removed) (hclosed : phase'.closed = true → (m'.scopes id).closed = true)
    (hquiet : phase'.quiet = true → (m'.scopes id).work = 0) : m'.Located := by
  refine h.insertPhase hregs hentries hsups hreleased (fun {v c} hc hstage => ?_) hscopes
    (h.not_released hphase) (fun heq => hphase'.1 (some.inj (hphase.symm.trans heq))) hphase'.2 hclosed hquiet
  rw [hcreations] at hc
  refine ⟨fun hvid => ?_, hc⟩
  cases hphase.symm.trans (hvid ▸ (h.pending hc hstage).1)

theorem Located.remove (hphase : m.supervisors.lookup id = some .dropped) :
    ((m.removeEntry id).setPhase id .removed).Located where
  registered {v} hv := by
    by_cases hvid : v = id
    · subst hvid
      exact .inr (.inl (lookup_insert _))
    · refine (h.registered hv).imp (fun ⟨e, he⟩ => ⟨e, (lookup_erase_ne hvid).trans he⟩) (Or.imp_left fun hr => ?_)
      exact (lookup_insert_ne hvid).trans hr
  entry {v e} he := by
    obtain ⟨hvid, he⟩ := lookup_erase_iff.1 he
    refine ⟨(h.entry he).1, fun hr => (h.entry he).2 ?_⟩
    exact (lookup_insert_ne hvid).symm.trans hr
  pending {v c} hc hstage := by
    obtain ⟨hnone, hfree⟩ := h.pending hc hstage
    refine ⟨(lookup_insert_ne fun hvid => ?_).trans hnone, hfree⟩
    cases hphase.symm.trans (hvid ▸ hnone)
  released {v} hv := by
    refine ⟨(h.released hv).1, (lookup_insert_ne fun hvid => ?_).trans (h.released hv).2⟩
    cases (h.not_released hphase).symm.trans (hvid ▸ hv)
  closed {v} hv := by
    refine h.closed (hv.imp_left fun ⟨phase, hlookup, hclosed⟩ => ?_)
    rcases lookup_insert_iff.1 hlookup with ⟨rfl, -⟩ | ⟨-, hlookup⟩
    · exact ⟨_, hphase, rfl⟩
    · exact ⟨phase, hlookup, hclosed⟩
  quiet {v} hv := by
    refine h.quiet (hv.imp_left fun ⟨phase, hlookup, hquiet⟩ => ?_)
    rcases lookup_insert_iff.1 hlookup with ⟨rfl, -⟩ | ⟨-, hlookup⟩
    · exact ⟨_, hphase, rfl⟩
    · exact ⟨phase, hlookup, hquiet⟩

omit h

theorem released_release {v : ResourceId} (h : (m.release id).released v = true) : v = id ∨ m.released v = true := by
  by_cases hv : v = id
  · exact .inl hv
  · exact .inr ((update_of_ne hv _ _).symm.trans h)

theorem Located.release (h : m.Located) (hk : m.Known) (hphase : m.supervisors.lookup id = some .removed) :
    (m.release id).Located where
  registered {v} hv := by
    by_cases hvid : v = id
    · subst hvid
      exact .inr (.inr (update_self _ _ _))
    · refine (h.registered hv).imp_right (Or.imp (fun hr => ?_) fun hr => ?_)
      · exact (lookup_erase_ne hvid).trans hr
      · exact (update_of_ne hvid _ _).trans hr
  entry {v e} he := by
    have hvid : v ≠ id := fun heq => (h.entry he).2 (heq ▸ hphase)
    refine ⟨(update_of_ne hvid _ _).trans (h.entry he).1, fun hr => (h.entry he).2 ?_⟩
    exact (lookup_erase_ne hvid).symm.trans hr
  pending {v c} hc hstage := by
    have hvid : v ≠ id := fun heq => by cases hphase.symm.trans (heq ▸ (h.pending hc hstage).1)
    exact ⟨(lookup_erase_ne hvid).trans (h.pending hc hstage).1,
      (update_of_ne hvid _ _).trans (h.pending hc hstage).2⟩
  released {v} hv := by
    rcases released_release hv with rfl | hv
    · exact ⟨hk.supervised hphase, lookup_erase _ _⟩
    · refine ⟨(h.released hv).1, ?_⟩
      by_cases hvid : v = id
      · exact hvid ▸ lookup_erase _ _
      · exact (lookup_erase_ne hvid).trans (h.released hv).2
  closed {v} hv := by
    rcases hv with ⟨phase, hlookup, hclosed⟩ | hv
    · exact h.closed (.inl ⟨phase, (lookup_erase_iff.1 hlookup).2, hclosed⟩)
    · rcases released_release hv with rfl | hv
      · exact h.closed (.inl ⟨_, hphase, rfl⟩)
      · exact h.closed (.inr hv)
  quiet {v} hv := by
    rcases hv with ⟨phase, hlookup, hquiet⟩ | hv
    · exact h.quiet (.inl ⟨phase, (lookup_erase_iff.1 hlookup).2, hquiet⟩)
    · rcases released_release hv with rfl | hv
      · exact h.quiet (.inl ⟨_, hphase, rfl⟩)
      · exact h.quiet (.inr hv)

theorem Located.register (h : m.Located) (hk : m.Known) (hc : m.creations.lookup id = some c)
    (hstage : c.stage = .built) (haccepting : m.accepting = true) : (m.register id c).2.Located := by
  have hpending : id ∉ m.registrations := hk.unregistered hc (by rw [hstage]; exact nofun)
  have hfree : m.released id = false := Bool.eq_false_iff.2 fun hr => hpending (h.released hr).1
  have hidle : m.supervisors.lookup id = none := by
    cases hphase : m.supervisors.lookup id with
    | none => rfl
    | some => exact absurd (hk.supervised hphase) hpending
  unfold Manager.register
  rw [if_pos haccepting]
  refine ⟨fun {v} hv => ?_, fun {v e} he => ?_, fun {v d} hd hstage => ?_, fun hv => ?_, h.closed, h.quiet⟩
  · by_cases hvid : v = id
    · subst hvid
      exact .inl ⟨_, lookup_insert _⟩
    · have hv' := (List.mem_append.1 hv).resolve_right fun hv => hvid (List.mem_singleton.1 hv)
      exact (h.registered hv').imp_left fun ⟨e, he⟩ => ⟨e, (lookup_insert_ne hvid).trans he⟩
  · rcases lookup_insert_iff.1 he with ⟨rfl, -⟩ | ⟨-, he⟩
    · exact ⟨hfree, by rw [hidle]; exact nofun⟩
    · exact h.entry he
  · rcases lookup_insert_iff.1 hd with ⟨rfl, -⟩ | ⟨-, hd⟩
    · exact ⟨hidle, hfree⟩
    · exact h.pending hd hstage
  · exact ⟨List.mem_append_left _ (h.released hv).1, (h.released hv).2⟩

theorem Settles.closeScope (m : Manager) (id : ResourceId) : Settles m.scopes (m.closeScope id).scopes :=
  .update (fun _ => rfl) fun _ hzero => hzero

theorem lookup_insert_stage {creations : Table ResourceId Creation} {v : ResourceId} {d : Creation}
    (hd : (creations.insert id c).lookup v = some d) (hreg : d.stage = .registered)
    (hstage : c.stage ≠ .registered) : creations.lookup v = some d := by
  rcases lookup_insert_iff.1 hd with ⟨-, rfl⟩ | ⟨-, hd⟩
  · exact absurd hreg hstage
  · exact hd

theorem Task.located (hstep : Task m m') (hk : m.Known) (h : m.Located) : m'.Located := by
  cases hstep with
  | create hcreate =>
    unfold Manager.create at hcreate
    split_ifs at hcreate
    cases hcreate
    exact h.frame rfl (.refl _) rfl rfl (fun hd hr => lookup_insert_stage hd hr nofun) (.refl _)
  | reserve _ hstage _ _ hreserve =>
    obtain ⟨_, he, -, -, rfl⟩ := reserve_later hreserve
    exact h.frame rfl (.insert he (.users _ _)) rfl rfl (fun hd hr => lookup_insert_stage hd hr (by simp [hstage])) (.refl _)
  | built => exact h.frame rfl (.refl _) rfl rfl (fun hd hr => lookup_insert_stage hd hr nofun) (.refl _)
  | fail _ _ closes =>
    cases closes with
    | false => exact h.frame rfl (.refl _) rfl rfl (fun hd hr => lookup_insert_stage hd hr nofun) (.refl _)
    | true => exact h.frame rfl (.refl _) rfl rfl (fun hd hr => lookup_insert_stage hd hr nofun) (.closeScope _ _)
  | register hc hstage =>
    cases haccepting : m.accepting with
    | true => exact h.register hk hc hstage haccepting
    | false =>
      unfold Manager.register
      rw [if_neg (by rw [haccepting]; exact Bool.false_ne_true)]
      exact h.frame rfl (.refl _) rfl rfl (fun hd hr => lookup_insert_stage hd hr nofun) (.closeScope _ _)
  | dropReservation _ _ hdrop =>
    obtain ⟨entries, releases, rfl, hkept⟩ := dropReservation_later hdrop
    exact h.frame rfl hkept rfl rfl (fun hd _ => (lookup_erase_iff.1 hd).2) (.refl _)
  | supervise hc hstage =>
    obtain ⟨hidle, hfree⟩ := h.pending hc hstage
    exact h.insertPhase rfl (.refl _) rfl rfl (fun hd _ => lookup_erase_iff.1 hd) (.refl _) hfree
      (by rw [hidle]; exact nofun) nofun nofun nofun
  | close hclose =>
    obtain ⟨entries, releases, rfl, hkept⟩ := terminate_later hclose
    exact h.frame rfl hkept rfl rfl (fun hd _ => hd) (.refl _)
  | drain hdrain =>
    unfold Manager.drain at hdrain
    split_ifs at hdrain
    · obtain ⟨_, _, rfl, hkept⟩ := terminate_later hdrain
      exact h.frame rfl hkept rfl rfl (fun hd _ => hd) (.refl _)
    · cases hdrain
      exact h
  | noticed hphase =>
    exact h.advance hphase rfl (.refl _) rfl rfl rfl (.refl _) ⟨nofun, nofun⟩ nofun nofun
  | drained hphase =>
    refine h.advance hphase rfl (.refl _) rfl rfl rfl (.closeScope _ _) ⟨nofun, nofun⟩ (fun _ => ?_) nofun
    exact congrArg Scope.closed (update_self _ _ m.scopes)
  | waited hphase hwork =>
    exact h.advance hphase rfl (.refl _) rfl rfl rfl (.refl _) ⟨nofun, nofun⟩
      (fun _ => h.closed (.inl ⟨_, hphase, rfl⟩)) fun _ => hwork.1
  | take hphase hentry =>
    exact h.advance hphase rfl (.insert hentry (.taken _)) rfl rfl rfl (.refl _) ⟨nofun, nofun⟩
      (fun _ => h.closed (.inl ⟨_, hphase, rfl⟩)) fun _ => h.quiet (.inl ⟨_, hphase, rfl⟩)
  | dropped hphase =>
    exact h.advance hphase rfl (.refl _) rfl rfl rfl (.refl _) ⟨nofun, nofun⟩
      (fun _ => h.closed (.inl ⟨_, hphase, rfl⟩)) fun _ => h.quiet (.inl ⟨_, hphase, rfl⟩)
  | remove hphase => exact h.remove hphase
  | release hphase => exact h.release hk hphase
  | scopeClosed => exact h.frame rfl (.refl _) rfl rfl (fun hd _ => hd) (.closeScope _ _)
  | @track _ hopen =>
    refine h.frame rfl (.refl _) rfl rfl (fun hd _ => hd) (.update (fun hclosed => hclosed) fun hclosed => ?_)
    simp [cancelled, hclosed] at hopen
  | untrack hwork =>
    refine h.frame rfl (.refl _) rfl rfl (fun hd _ => hd) (.update (fun hclosed => hclosed) fun _ hzero => ?_)
    cases hwork.symm.trans hzero
  | borrow =>
    exact h.frame rfl (.refl _) rfl rfl (fun hd _ => hd) (.update (fun hclosed => hclosed) fun _ hzero => hzero)

theorem Step.located (hstep : Step m m') (hk : m.Known) (h : m.Located) : m'.Located := by
  cases hstep with
  | task htask => exact htask.located hk h
  | drainTier _ hdrain =>
    obtain ⟨_, _, rfl, hkept⟩ := drainTier_later hdrain
    exact h.frame rfl hkept rfl rfl (fun hd _ => hd) (.refl _)
  | abort => exact h.frame rfl (.refl _) rfl rfl (fun hd _ => hd) (.refl _)

theorem Reachable.located (h : Reachable m) : m.Located := by
  induction h with
  | new => exact located_new
  | step h hstep ih => exact hstep.located h.known ih

/-! ## What came before -/

inductive Advance (m m' : Manager) (id : ResourceId) : Prop
  | same (hphase : m'.supervisors.lookup id = m.supervisors.lookup id) (hreleased : m'.released id = m.released id)
  | started (hphase : m'.supervisors.lookup id = some .admitting) (hreleased : m'.released id = m.released id)
  | noticed (hphase : m'.supervisors.lookup id = some .draining) (hreleased : m'.released id = m.released id)
  | closed (hphase : m'.supervisors.lookup id = some .closing) (hreleased : m'.released id = m.released id)
  | waited (hbefore : m.supervisors.lookup id = some .closing) (hphase : m'.supervisors.lookup id = some .idle)
      (hwork : (m.scopes id).work = 0 ∧ (m.scopes id).borrowed = 0) (hreleased : m'.released id = m.released id)
  | taken (hbefore : m.supervisors.lookup id = some .idle) (hphase : m'.supervisors.lookup id = some .dropping)
      (hlive : ∀ {e}, m'.entries.lookup id = some e → e.live = none) (hreleased : m'.released id = m.released id)
  | dropped (hbefore : m.supervisors.lookup id = some .dropping) (hphase : m'.supervisors.lookup id = some .dropped)
      (hreleased : m'.released id = m.released id)
  | removed (hbefore : m.supervisors.lookup id = some .dropped) (hphase : m'.supervisors.lookup id = some .removed)
      (hentry : m'.entries.lookup id = none) (hreleased : m'.released id = m.released id)
  | released (hbefore : m.supervisors.lookup id = some .removed) (hphase : m'.supervisors.lookup id = none)

theorem Advance.other {v : ResourceId} (hv : v ≠ id)
    (hsups : m'.supervisors = m.supervisors.insert id phase) (hreleased : m'.released = m.released) :
    Advance m m' v :=
  .same (by rw [hsups, lookup_insert_ne hv]) (by rw [hreleased])

theorem Task.advance (hstep : Task m m') (v : ResourceId) : Advance m m' v := by
  cases hstep with
  | create hcreate =>
    unfold Manager.create at hcreate
    split_ifs at hcreate
    cases hcreate
    exact .same rfl rfl
  | reserve _ _ _ _ hreserve =>
    obtain ⟨_, he, -, -, rfl⟩ := reserve_later hreserve
    exact .same rfl rfl
  | fail _ _ closes => cases closes <;> exact .same rfl rfl
  | register =>
    unfold Manager.register
    split_ifs <;> exact .same rfl rfl
  | dropReservation _ _ hdrop =>
    obtain ⟨entries, releases, rfl, -⟩ := dropReservation_later hdrop
    exact .same rfl rfl
  | close hclose =>
    obtain ⟨entries, releases, rfl, -⟩ := terminate_later hclose
    exact .same rfl rfl
  | drain hdrain =>
    unfold Manager.drain at hdrain
    split_ifs at hdrain
    · obtain ⟨_, _, rfl, -⟩ := terminate_later hdrain
      exact .same rfl rfl
    · cases hdrain
      exact .same rfl rfl
  | @supervise id =>
    by_cases hv : v = id
    · subst hv
      exact .started (lookup_insert _) rfl
    · exact .other hv rfl rfl
  | @noticed id =>
    by_cases hv : v = id
    · subst hv
      exact .noticed (lookup_insert _) rfl
    · exact .other hv rfl rfl
  | @drained id =>
    by_cases hv : v = id
    · subst hv
      exact .closed (lookup_insert _) rfl
    · exact .other hv rfl rfl
  | @waited id hphase hwork =>
    by_cases hv : v = id
    · subst hv
      exact .waited hphase (lookup_insert _) hwork rfl
    · exact .other hv rfl rfl
  | @take id _ hphase =>
    by_cases hv : v = id
    · subst hv
      refine .taken hphase (lookup_insert _) (fun he => ?_) rfl
      obtain ⟨-, rfl⟩ | ⟨hne, -⟩ := lookup_insert_iff.1 he
      · rfl
      · exact absurd rfl hne
    · exact .other hv rfl rfl
  | @dropped id hphase =>
    by_cases hv : v = id
    · subst hv
      exact .dropped hphase (lookup_insert _) rfl
    · exact .other hv rfl rfl
  | @remove id hphase =>
    by_cases hv : v = id
    · subst hv
      exact .removed hphase (lookup_insert _) (lookup_erase _ _) rfl
    · exact .other hv rfl rfl
  | @release id hphase =>
    by_cases hv : v = id
    · subst hv
      exact .released hphase (lookup_erase _ _)
    · exact .same (lookup_erase_ne hv) (update_of_ne hv _ _)
  | _ => exact .same rfl rfl

theorem Step.advance (hstep : Step m m') (v : ResourceId) : Advance m m' v := by
  cases hstep with
  | task htask => exact htask.advance v
  | drainTier _ hdrain =>
    obtain ⟨_, _, rfl, -⟩ := drainTier_later hdrain
    exact .same rfl rfl
  | abort => exact .same rfl rfl

abbrev Run : Manager → Manager → Prop := Relation.ReflTransGen Step

def Waited (m : Manager) (id : ResourceId) : Prop :=
  ∃ m₁, Reachable m₁ ∧ (m₁.scopes id).closed = true ∧ (m₁.scopes id).work = 0 ∧ (m₁.scopes id).borrowed = 0 ∧ Run m₁ m

def Destroyed (m : Manager) (id : ResourceId) : Prop :=
  ∃ m₂, m₂.Waited id ∧ m₂.supervisors.lookup id = some .dropped ∧
    (∀ {e}, m₂.entries.lookup id = some e → e.live = none) ∧ Run m₂ m

/-- After that, the entry was removed, and the `released` token was not cancelled yet. -/
def Milestones (m : Manager) (id : ResourceId) : Prop :=
  ∃ m₃, m₃.Destroyed id ∧ m₃.supervisors.lookup id = some .removed ∧ m₃.entries.lookup id = none ∧
    m₃.released id = false ∧ Run m₃ m

theorem Waited.step (h : m.Waited id) (hstep : Step m m') : m'.Waited id := by
  obtain ⟨m₁, h₁, hclosed, hwork, hborrowed, hrun⟩ := h
  exact ⟨m₁, h₁, hclosed, hwork, hborrowed, hrun.tail hstep⟩

theorem Destroyed.step (h : m.Destroyed id) (hstep : Step m m') : m'.Destroyed id := by
  obtain ⟨m₂, h₂, hphase, hlive, hrun⟩ := h
  exact ⟨m₂, h₂, hphase, hlive, hrun.tail hstep⟩

theorem Milestones.step (h : m.Milestones id) (hstep : Step m m') : m'.Milestones id := by
  obtain ⟨m₃, h₃, hphase, hentry, hreleased, hrun⟩ := h
  exact ⟨m₃, h₃, hphase, hentry, hreleased, hrun.tail hstep⟩

structure History (m : Manager) (id : ResourceId) : Prop where
  waited : ∀ {phase}, m.supervisors.lookup id = some phase → phase.quiet = true → m.Waited id
  taken : ∀ {phase}, m.supervisors.lookup id = some phase → phase = .dropping ∨ phase = .dropped →
    ∀ {e}, m.entries.lookup id = some e → e.live = none
  destroyed : ∀ {phase}, m.supervisors.lookup id = some phase → phase = .dropped ∨ phase = .removed → m.Destroyed id
  released : m.released id = true → m.Milestones id

theorem Step.live_none (hstep : Step m m') (hk : m.Known) (hphase : m.supervisors.lookup id = some phase)
    (h : ∀ {e}, m.entries.lookup id = some e → e.live = none) (he' : m'.entries.lookup id = some e') :
    e'.live = none := by
  rcases (hstep.grown hk).back he' with ⟨e, he, hfollows⟩ | ⟨-, hfresh, -⟩
  · refine eq_none_iff_forall_ne_some.2 fun native hlive => ?_
    cases (h he).symm.trans (hfollows.live hlive)
  · exact absurd (hk.supervised hphase) hfresh

theorem History.early (h : m.History id) (hstep : Step m m')
    (hphase : m'.supervisors.lookup id = some phase) (hquiet : phase.quiet = false)
    (hreleased : m'.released id = m.released id) : m'.History id := by
  have hearly : ∀ {phase'}, m'.supervisors.lookup id = some phase' → phase' = phase :=
    fun hphase' => some.inj (hphase'.symm.trans hphase)
  refine ⟨fun hphase' hq => ?_, fun hphase' hp => ?_, fun hphase' hp => ?_, fun hr => ?_⟩
  · cases hquiet.symm.trans (hearly hphase' ▸ hq)
  · obtain rfl := hearly hphase'
    rcases hp with rfl | rfl <;> cases hquiet
  · obtain rfl := hearly hphase'
    rcases hp with rfl | rfl <;> cases hquiet
  · exact (h.released (hreleased.symm.trans hr)).step hstep

theorem Step.history (hstep : Step m m') (hreach : Reachable m) (h : m.History id) : m'.History id := by
  have hk := hreach.known
  have hlocated := hreach.located
  cases hstep.advance id with
  | same hphase hreleased =>
    refine ⟨fun hp hq => ?_, fun hp hq => ?_, fun hp hq => ?_, fun hr => ?_⟩
    · exact (h.waited (hphase.symm.trans hp) hq).step hstep
    · exact hstep.live_none hk (hphase.symm.trans hp) (h.taken (hphase.symm.trans hp) hq)
    · exact (h.destroyed (hphase.symm.trans hp) hq).step hstep
    · exact (h.released (hreleased.symm.trans hr)).step hstep
  | started hphase hreleased => exact h.early hstep hphase rfl hreleased
  | noticed hphase hreleased => exact h.early hstep hphase rfl hreleased
  | closed hphase hreleased => exact h.early hstep hphase rfl hreleased
  | waited hbefore hphase hwork hreleased =>
    refine ⟨fun hp hq => ?_, fun hp hq => ?_, fun hp hq => ?_, fun hr => ?_⟩
    · exact ⟨m, hreach, hlocated.closed (.inl ⟨_, hbefore, rfl⟩), hwork.1, hwork.2, .single hstep⟩
    · cases hphase.symm.trans hp
      rcases hq with hq | hq <;> cases hq
    · cases hphase.symm.trans hp
      rcases hq with hq | hq <;> cases hq
    · exact (h.released (hreleased.symm.trans hr)).step hstep
  | taken hbefore hphase hlive hreleased =>
    refine ⟨fun hp hq => ?_, fun hp hq => hlive, fun hp hq => ?_, fun hr => ?_⟩
    · exact (h.waited hbefore rfl).step hstep
    · cases hphase.symm.trans hp
      rcases hq with hq | hq <;> cases hq
    · exact (h.released (hreleased.symm.trans hr)).step hstep
  | dropped hbefore hphase hreleased =>
    have hwaited := (h.waited hbefore rfl).step hstep
    have hlive : ∀ {e}, m'.entries.lookup id = some e → e.live = none :=
      hstep.live_none hk hbefore (h.taken hbefore (.inl rfl))
    refine ⟨fun hp hq => hwaited, fun hp hq => hlive, fun hp hq => ?_, fun hr => ?_⟩
    · exact ⟨m', hwaited, hphase, hlive, .refl⟩
    · exact (h.released (hreleased.symm.trans hr)).step hstep
  | removed hbefore hphase _ hreleased =>
    refine ⟨fun hp hq => ?_, fun hp hq => ?_, fun hp hq => ?_, fun hr => ?_⟩
    · exact (h.waited hbefore rfl).step hstep
    · cases hphase.symm.trans hp
      rcases hq with hq | hq <;> cases hq
    · exact (h.destroyed hbefore (.inl rfl)).step hstep
    · exact (h.released (hreleased.symm.trans hr)).step hstep
  | released hbefore hphase =>
    refine ⟨fun hp hq => ?_, fun hp hq => ?_, fun hp hq => ?_, fun hr => ?_⟩
    · cases hphase.symm.trans hp
    · cases hphase.symm.trans hp
    · cases hphase.symm.trans hp
    · refine ⟨m, h.destroyed hbefore (.inr rfl), hbefore, ?_, hlocated.not_released hbefore, .single hstep⟩
      cases he : m.entries.lookup id with
      | none => rfl
      | some => exact absurd hbefore (hlocated.entry he).2

theorem Reachable.history (h : Reachable m) (id : ResourceId) : m.History id := by
  induction h with
  | new =>
    refine ⟨fun h => ?_, fun h => ?_, fun h => ?_, fun h => ?_⟩ <;> cases h
  | step h hstep ih => exact hstep.history h ih

def Gone (m : Manager) (id : ResourceId) : Prop :=
  m.entries.lookup id = none ∧ (m.supervisors.lookup id = some .removed ∨ m.released id = true) ∧ m.Destroyed id ∧
    (m.scopes id).closed = true ∧ (m.scopes id).work = 0

/-- **A registered resource has an entry, or is gone.** -/
theorem Reachable.registered (h : Reachable m) (hid : id ∈ m.registrations) :
    (∃ e, m.entries.lookup id = some e) ∨ m.Gone id := by
  have hlocated := h.located
  refine (hlocated.registered hid).imp_right fun hgone => ?_
  have hhistory := h.history id
  refine ⟨?_, hgone, ?_, ?_, ?_⟩
  · cases he : m.entries.lookup id with
    | none => rfl
    | some =>
      rcases hgone with hremoved | hreleased
      · exact absurd hremoved (hlocated.entry he).2
      · cases (hlocated.entry he).1.symm.trans hreleased
  · rcases hgone with hremoved | hreleased
    · exact hhistory.destroyed hremoved (.inr rfl)
    · obtain ⟨_, ⟨m₂, hwaited, hphase, hlive, hrun⟩, -, -, -, hrun'⟩ := hhistory.released hreleased
      exact ⟨m₂, hwaited, hphase, hlive, hrun.trans hrun'⟩
  · exact hlocated.closed (hgone.imp_left fun hremoved => ⟨_, hremoved, rfl⟩)
  · exact hlocated.quiet (hgone.imp_left fun hremoved => ⟨_, hremoved, rfl⟩)

theorem Step.stopped (hstep : Step m m') (hreach : Reachable m) (haccepting : m.accepting = false) :
    m'.accepting = false ∧ ∀ {id e'}, m'.entries.lookup id = some e' → ∃ e, m.entries.lookup id = some e ∧ Follows e e' := by
  constructor
  · cases hstep with
    | task htask => exact htask.same.2.trans haccepting
    | drainTier _ hdrain =>
      obtain ⟨_, _, rfl, -⟩ := drainTier_later hdrain
      rfl
    | abort => rfl
  · intro id e' he'
    refine ((hstep.grown hreach.known).back he').resolve_right fun hnew => ?_
    cases haccepting.symm.trans hnew.1

end Manager

end Kotoconn.Daemon
