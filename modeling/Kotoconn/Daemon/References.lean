import Kotoconn.Daemon.Resources
import Kotoconn.Lib.Leases

/-!
# References between resources

What the manager's counts are for, without counts, locks or supervisors.
-/

namespace Kotoconn.Daemon
open Lib List Option Function

structure Node where
  tier : Tier
  isOpen : Bool
  ancestors : List ResourceId
  uses : Option ResourceId

structure Links where
  accepting : Bool
  node : ResourceId → Option Node
  held : ResourceId → Option (ResourceId × List ResourceId)
  reserves : List ResourceId
  releases : List ResourceId

namespace Links

/-- `u` uses `t`: its creation reserves it, or it is open and was created on it. -/
def Uses (l : Links) (u t : ResourceId) : Prop :=
  (∃ ancestors, l.held u = some (t, ancestors)) ∨ ∃ n, l.node u = some n ∧ n.isOpen = true ∧ n.uses = some t

def Serving (l : Links) (t : ResourceId) (n : Node) : Prop := l.node t = some n ∧ n.isOpen = true ∧ n.tier = .service

def Node.closeOf (tier : Tier) (n : Node) : Node := if n.tier = tier then { n with isOpen := false } else n

inductive Step : Links → Links → Prop
  | hold {l : Links} {u t : ResourceId} {n : Node} {ancestors : List ResourceId} (hserving : l.Serving t n)
      (hanc : ancestors = [] ∨ ancestors = t :: n.ancestors) (hnode : l.node u = none)
      (hfresh : u ∉ l.reserves) :
      Step l { l with held := update l.held u (some (t, ancestors)), reserves := l.reserves ++ [u] }
  | letGo {l : Links} {u : ResourceId} {hold : ResourceId × List ResourceId} (hheld : l.held u = some hold) :
      Step l { l with held := update l.held u none, releases := l.releases ++ [u] }
  | confirm {l : Links} {u : ResourceId} {tier : Tier} (haccepting : l.accepting = true) (hnode : l.node u = none)
      (htier : tier = .entryPoint → l.held u = none) :
      Step l { l with
        node := update l.node u
          (some ⟨tier, true, ((l.held u).map Prod.snd).getD [], (l.held u).map Prod.fst⟩)
        held := update l.held u none }
  | close {l : Links} {id : ResourceId} {n : Node} (hnode : l.node id = some n) (hopen : n.isOpen = true)
      (hunused : ∀ u, ¬ l.Uses u id) :
      Step l { l with
        node := update l.node id (some { n with isOpen := false })
        releases := l.releases ++ if n.uses.isSome then [id] else [] }
  | closeTier {l : Links} {tier : Tier} {ids : List ResourceId} (hnodup : ids.Nodup)
      (hids : ∀ id, id ∈ ids ↔ ∃ n, l.node id = some n ∧ n.tier = tier ∧ n.isOpen = true ∧ n.uses.isSome = true) :
      Step l { l with
        accepting := false
        node := fun id => (l.node id).map (Node.closeOf tier)
        releases := l.releases ++ ids }
  | forget {l : Links} {id : ResourceId} {n : Node} (hnode : l.node id = some n)
      (hended : n.isOpen = false ∨ n.tier = .entryPoint) :
      Step l { l with node := update l.node id none }

def Holds (l : Links) (u : ResourceId) : Prop := ∃ t, l.Uses u t

structure Sound (l : Links) : Prop where
  entryPoint : ∀ {id n}, l.node id = some n → n.tier = .entryPoint → n.uses = none
  uses : ∀ {id n t}, l.node id = some n → n.isOpen = true → n.uses = some t →
    ∃ n', l.Serving t n' ∧ (n.ancestors = [] ∨ n.ancestors = t :: n'.ancestors)
  unused : ∀ {id n}, l.node id = some n → n.uses = none → n.ancestors = []
  held : l.accepting = true → ∀ {u t ancestors}, l.held u = some (t, ancestors) →
    ∃ n, l.Serving t n ∧ (ancestors = [] ∨ ancestors = t :: n.ancestors)
  vacant : ∀ {u hold}, l.held u = some hold → l.node u = none
  leases : Leases l.Holds l.reserves l.releases

variable {l l' : Links} {n : Node} {id : ResourceId}

theorem Sound.ancestors_open (h : l.Sound) (hnode : l.node id = some n)
    (hopen : n.isOpen = true) {a : ResourceId} (ha : a ∈ n.ancestors) : ∃ n', l.Serving a n' := by
  -- the enclosing scopes are those of the resource used, of what that one uses, and so on
  induction hlist : n.ancestors generalizing id n with
  | nil =>
    rw [hlist] at ha
    cases ha
  | cons _ _ ih =>
    cases huses : n.uses with
    | none => cases hlist.symm.trans (h.unused hnode huses)
    | some =>
      obtain ⟨n', hserving, hchain⟩ := h.uses hnode hopen huses
      rw [hlist] at ha hchain
      obtain ⟨rfl, rfl⟩ := List.cons.inj (hchain.resolve_left (cons_ne_nil _ _))
      rcases mem_cons.1 ha with rfl | ha
      · exact ⟨n', hserving⟩
      · exact ih hserving.1 hserving.2.1 ha rfl

/-! ## Each step keeps it -/

theorem holds_iff {u : ResourceId} : l.Holds u ↔
    (∃ hold, l.held u = some hold) ∨ ∃ n, l.node u = some n ∧ n.isOpen = true ∧ n.uses.isSome = true := by
  unfold Holds Uses
  simp only [isSome_iff_exists, Prod.exists]
  constructor
  · rintro ⟨t, ⟨a, h⟩ | ⟨n, hn, hopen, huses⟩⟩
    · exact .inl ⟨t, a, h⟩
    · exact .inr ⟨n, hn, hopen, t, huses⟩
  · rintro (⟨t, a, h⟩ | ⟨n, hn, hopen, t, huses⟩)
    · exact ⟨t, .inl ⟨a, h⟩⟩
    · exact ⟨t, .inr ⟨n, hn, hopen, huses⟩⟩

theorem Sound.hold (h : l.Sound) {u t : ResourceId} {ancestors : List ResourceId} (hserving : l.Serving t n)
    (hanc : ancestors = [] ∨ ancestors = t :: n.ancestors) (hnode : l.node u = none) (hfresh : u ∉ l.reserves) :
    Sound { l with held := update l.held u (some (t, ancestors)), reserves := l.reserves ++ [u] } where
  entryPoint := h.entryPoint
  uses := h.uses
  unused := h.unused
  held haccepting v w a hv := by
    rcases update_eq_some.1 hv with ⟨-, heq⟩ | ⟨-, hv⟩
    · cases heq
      exact ⟨n, hserving, hanc⟩
    · exact h.held haccepting hv
  vacant {v hold} hv := by
    rcases update_eq_some.1 hv with ⟨rfl, -⟩ | ⟨-, hv⟩
    · exact hnode
    · exact h.vacant hv
  leases := by
    refine h.leases.acquire hfresh fun v => ?_
    simp only [holds_iff, update_eq_some]
    by_cases hv : v = u
    · simp [hv]
    · simp [hv]

theorem Sound.letGo (h : l.Sound) {u : ResourceId} {hold : ResourceId × List ResourceId} (hheld : l.held u = some hold) :
    Sound { l with held := update l.held u none, releases := l.releases ++ [u] } where
  entryPoint := h.entryPoint
  uses := h.uses
  unused := h.unused
  held haccepting v w a hv := by
    rcases update_eq_some.1 hv with ⟨-, heq⟩ | ⟨-, hv⟩
    · cases heq
    · exact h.held haccepting hv
  vacant {v hold} hv := by
    rcases update_eq_some.1 hv with ⟨-, heq⟩ | ⟨-, hv⟩
    · cases heq
    · exact h.vacant hv
  leases := by
    have hnode : l.node u = none := h.vacant hheld
    refine h.leases.release (nodup_singleton u) (fun v hv => ?_) fun v => ?_
    · rw [mem_singleton.1 hv]
      exact holds_iff.2 (.inl ⟨hold, hheld⟩)
    · simp only [holds_iff, update_eq_some, mem_singleton]
      by_cases hv : v = u
      · simp [hv, hnode]
      · simp [hv]

variable {tier : Tier}

theorem Sound.confirm (h : l.Sound) {u : ResourceId} (haccepting : l.accepting = true)
    (hnode : l.node u = none) (htier : tier = .entryPoint → l.held u = none) : Sound { l with
      node := update l.node u (some ⟨tier, true, ((l.held u).map Prod.snd).getD [], (l.held u).map Prod.fst⟩)
      held := update l.held u none } := by
  -- what is registered besides stays as it is, and is not `u`
  have hserving : ∀ {t n}, l.Serving t n → Serving { l with
      node := update l.node u (some ⟨tier, true, ((l.held u).map Prod.snd).getD [], (l.held u).map Prod.fst⟩)
      held := update l.held u none } t n := by
    intro t n hserving
    refine ⟨update_eq_some.2 (.inr ⟨fun ht => ?_, hserving.1⟩), hserving.2⟩
    rw [ht] at hserving
    cases hnode.symm.trans hserving.1
  refine ⟨fun {id n} hid hentry => ?_, fun {id n t} hid hopen huses => ?_, fun {id n} hid huses => ?_,
    fun _ v w a hv => ?_, fun {v hold} hv => ?_, ?_⟩
  · rcases update_eq_some.1 hid with ⟨-, heq⟩ | ⟨-, hid⟩
    · cases heq
      simp [htier hentry]
    · exact h.entryPoint hid hentry
  · rcases update_eq_some.1 hid with ⟨-, heq⟩ | ⟨-, hid⟩
    · cases heq
      obtain ⟨_, hheld, rfl⟩ := map_eq_some_iff.1 huses
      obtain ⟨n, hn, hanc⟩ := h.held haccepting hheld
      exact ⟨n, hserving hn, by simpa [hheld] using hanc⟩
    · obtain ⟨n', hn', hanc⟩ := h.uses hid hopen huses
      exact ⟨n', hserving hn', hanc⟩
  · rcases update_eq_some.1 hid with ⟨-, heq⟩ | ⟨-, hid⟩
    · cases heq
      simp [map_eq_none_iff.1 huses]
    · exact h.unused hid huses
  · rcases update_eq_some.1 hv with ⟨-, heq⟩ | ⟨-, hv⟩
    · cases heq
    · obtain ⟨n, hn, hanc⟩ := h.held haccepting hv
      exact ⟨n, hserving hn, hanc⟩
  · rcases update_eq_some.1 hv with ⟨-, heq⟩ | ⟨hne, hv⟩
    · cases heq
    · exact (update_of_ne hne _ _).trans (h.vacant hv)
  · refine h.leases.congr fun v => ?_
    simp only [holds_iff, update_eq_some]
    by_cases hv : v = u
    · simp [hv, hnode, isSome_iff_exists]
    · simp [hv]

theorem Sound.close (h : l.Sound) (hnode : l.node id = some n) (hopen : n.isOpen = true)
    (hunused : ∀ u, ¬ l.Uses u id) : Sound { l with
      node := update l.node id (some { n with isOpen := false })
      releases := l.releases ++ if n.uses.isSome then [id] else [] } := by
  have hserving : ∀ {u t n'}, l.Uses u t → l.Serving t n' → Serving { l with
      node := update l.node id (some { n with isOpen := false })
      releases := l.releases ++ if n.uses.isSome then [id] else [] } t n' := by
    intro u t n' huses hserving
    refine ⟨update_eq_some.2 (.inr ⟨fun ht => hunused u (ht ▸ huses), hserving.1⟩), hserving.2⟩
  refine ⟨fun {v n'} hv hentry => ?_, fun {v n' t} hv hopen' huses => ?_, fun {v n'} hv huses => ?_,
    fun haccepting v w a hv => ?_, fun {v hold} hv => ?_, ?_⟩
  · rcases update_eq_some.1 hv with ⟨-, heq⟩ | ⟨-, hv⟩
    · cases heq
      exact h.entryPoint (n := n) hnode hentry
    · exact h.entryPoint hv hentry
  · rcases update_eq_some.1 hv with ⟨-, heq⟩ | ⟨-, hv⟩
    · cases heq
      cases hopen'
    · obtain ⟨n'', hn'', hanc⟩ := h.uses hv hopen' huses
      exact ⟨n'', hserving (.inr ⟨n', hv, hopen', huses⟩) hn'', hanc⟩
  · rcases update_eq_some.1 hv with ⟨-, heq⟩ | ⟨-, hv⟩
    · cases heq
      exact h.unused (n := n) hnode huses
    · exact h.unused hv huses
  · obtain ⟨n', hn', hanc⟩ := h.held haccepting hv
    exact ⟨n', hserving (.inl ⟨a, hv⟩) hn', hanc⟩
  · refine (update_of_ne (fun hvid => ?_) _ _).trans (h.vacant hv)
    rw [hvid] at hv
    cases hnode.symm.trans (h.vacant hv)
  · have hheld : l.held id = none := by
      cases hheld : l.held id with
      | none => rfl
      | some => cases hnode.symm.trans (h.vacant hheld)
    refine h.leases.release (by split_ifs <;> simp) (fun v hv => ?_) fun v => ?_
    · split_ifs at hv with hsome
      · rw [mem_singleton.1 hv]
        exact holds_iff.2 (.inr ⟨n, hnode, hopen, hsome⟩)
      · cases hv
    · simp only [holds_iff, update_eq_some]
      by_cases hv : v = id
      · subst hv
        by_cases hsome : n.uses.isSome = true
        · simp [hheld, hsome]
        · simp [hheld, hsome, hnode]
      · split_ifs <;> simp [hv]

theorem Sound.forget (h : l.Sound) (hnode : l.node id = some n)
    (hended : n.isOpen = false ∨ n.tier = .entryPoint) : Sound { l with node := update l.node id none } := by
  have hserving : ∀ {t n'}, l.Serving t n' → Serving { l with node := update l.node id none } t n' := by
    intro t n' hserving
    refine ⟨update_eq_some.2 (.inr ⟨fun ht => ?_, hserving.1⟩), hserving.2⟩
    obtain ⟨hn', hopen, hservice⟩ := hserving
    rw [ht, hnode] at hn'
    cases hn'
    rcases hended with hclosed | hentry
    · cases hopen.symm.trans hclosed
    · cases hservice.symm.trans hentry
  refine ⟨fun {v n'} hv hentry => ?_, fun {v n' t} hv hopen' huses => ?_, fun {v n'} hv huses => ?_,
    fun haccepting v w a hv => ?_, fun {v hold} hv => ?_, ?_⟩
  · rcases update_eq_some.1 hv with ⟨-, heq⟩ | ⟨-, hv⟩
    · cases heq
    · exact h.entryPoint hv hentry
  · rcases update_eq_some.1 hv with ⟨-, heq⟩ | ⟨-, hv⟩
    · cases heq
    · obtain ⟨n'', hn'', hanc⟩ := h.uses hv hopen' huses
      exact ⟨n'', hserving hn'', hanc⟩
  · rcases update_eq_some.1 hv with ⟨-, heq⟩ | ⟨-, hv⟩
    · cases heq
    · exact h.unused hv huses
  · obtain ⟨n', hn', hanc⟩ := h.held haccepting hv
    exact ⟨n', hserving hn', hanc⟩
  · by_cases hvid : v = id
    · exact hvid ▸ update_self _ _ _
    · exact (update_of_ne hvid _ _).trans (h.vacant hv)
  · have hidle : ¬ ∃ n', l.node id = some n' ∧ n'.isOpen = true ∧ n'.uses.isSome = true := by
      rintro ⟨_, hn', hopen, hsome⟩
      obtain rfl := some.inj (hnode.symm.trans hn')
      rcases hended with hclosed | hentry
      · cases hopen.symm.trans hclosed
      · rw [h.entryPoint hnode hentry] at hsome
        cases hsome
    refine h.leases.congr fun v => ?_
    simp only [holds_iff, update_eq_some]
    by_cases hv : v = id
    · subst hv
      simp [hidle]
    · simp [hv]

theorem closeOf_eq_some
    (h : (l.node id).map (Node.closeOf tier) = some n) : ∃ n', l.node id = some n' ∧ n = Node.closeOf tier n' := by
  obtain ⟨n', hn', rfl⟩ := map_eq_some_iff.1 h
  exact ⟨n', hn', rfl⟩

theorem closeOf_same (tier : Tier) (n : Node) : (Node.closeOf tier n).tier = n.tier ∧
    (Node.closeOf tier n).uses = n.uses ∧ (Node.closeOf tier n).ancestors = n.ancestors := by
  unfold Node.closeOf
  split_ifs <;> exact ⟨rfl, rfl, rfl⟩

theorem closeOf_isOpen : (Node.closeOf tier n).isOpen = true ↔ n.tier ≠ tier ∧ n.isOpen = true := by
  unfold Node.closeOf
  split_ifs with h <;> simp [h]

theorem Sound.closeTier (h : l.Sound) {ids : List ResourceId} (hnodup : ids.Nodup)
    (hids : ∀ id, id ∈ ids ↔ ∃ n, l.node id = some n ∧ n.tier = tier ∧ n.isOpen = true ∧ n.uses.isSome = true) :
    Sound { l with
      accepting := false
      node := fun id => (l.node id).map (Node.closeOf tier)
      releases := l.releases ++ ids } := by
  refine ⟨fun {v n} hv hentry => ?_, fun {v n t} hv hopen huses => ?_, fun {v n} hv huses => ?_, nofun,
    fun {v hold} hv => ?_, ?_⟩
  · obtain ⟨n', hn', rfl⟩ := closeOf_eq_some hv
    rw [(closeOf_same tier n').1] at hentry
    rw [(closeOf_same tier n').2.1]
    exact h.entryPoint hn' hentry
  · -- users are services, so an open one is left only if the other tier closes, and then what it uses stays open
    obtain ⟨n', hn', rfl⟩ := closeOf_eq_some hv
    obtain ⟨htier, hopen⟩ := closeOf_isOpen.1 hopen
    rw [(closeOf_same tier n').2.1] at huses
    rw [(closeOf_same tier n').2.2]
    have hentry : tier = .entryPoint := by
      cases htier' : n'.tier with
      | entryPoint => cases (h.entryPoint hn' htier').symm.trans huses
      | service =>
        cases tier with
        | entryPoint => rfl
        | service => exact absurd htier' htier
    obtain ⟨n'', ⟨hn'', hopen'', hservice⟩, hanc⟩ := h.uses hn' hopen huses
    have hkept : Node.closeOf tier n'' = n'' := by
      unfold Node.closeOf
      rw [if_neg]
      rw [hservice, hentry]
      exact nofun
    exact ⟨n'', ⟨by simp only [hn'', map_some, hkept], hopen'', hservice⟩, hanc⟩
  · obtain ⟨n', hn', rfl⟩ := closeOf_eq_some hv
    rw [(closeOf_same tier n').2.1] at huses
    rw [(closeOf_same tier n').2.2]
    exact h.unused hn' huses
  · simp only [h.vacant hv, map_none]
  · refine h.leases.release hnodup (fun v hv => ?_) fun v => ?_
    · obtain ⟨n, hn, -, hopen, hsome⟩ := (hids v).1 hv
      exact holds_iff.2 (.inr ⟨n, hn, hopen, hsome⟩)
    · simp only [holds_iff]
      constructor
      · rintro (⟨hold, hv⟩ | ⟨n, hv, hopen, hsome⟩)
        · refine ⟨.inl ⟨hold, hv⟩, fun hin => ?_⟩
          obtain ⟨n, hn, -⟩ := (hids v).1 hin
          cases hn.symm.trans (h.vacant hv)
        · obtain ⟨n', hn', rfl⟩ := closeOf_eq_some hv
          obtain ⟨htier, hopen⟩ := closeOf_isOpen.1 hopen
          rw [(closeOf_same tier n').2.1] at hsome
          refine ⟨.inr ⟨n', hn', hopen, hsome⟩, fun hin => ?_⟩
          obtain ⟨n, hn, htier', -⟩ := (hids v).1 hin
          obtain rfl := some.inj (hn'.symm.trans hn)
          exact htier htier'
      · rintro ⟨hold | ⟨n, hn, hopen, hsome⟩, hout⟩
        · exact .inl hold
        · refine .inr ⟨Node.closeOf tier n, by rw [hn]; rfl, closeOf_isOpen.2 ⟨fun htier => ?_, hopen⟩, ?_⟩
          · exact hout ((hids v).2 ⟨n, hn, htier, hopen, hsome⟩)
          · rw [(closeOf_same tier n).2.1]
            exact hsome

/-- **Each step keeps the references sound.** -/
theorem Step.sound (hstep : Step l l') (h : l.Sound) : l'.Sound := by
  cases hstep with
  | hold hserving hanc hnode hfresh => exact h.hold hserving hanc hnode hfresh
  | letGo hheld => exact h.letGo hheld
  | confirm haccepting hnode htier => exact h.confirm haccepting hnode htier
  | close hnode hopen hunused => exact h.close hnode hopen hunused
  | closeTier hnodup hids => exact h.closeTier hnodup hids
  | forget hnode hended => exact h.forget hnode hended

end Links

end Kotoconn.Daemon
