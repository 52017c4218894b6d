import Kotoconn.Daemon.Released

/-!
# `lib.rs`: the shutdown of the daemon

`Process.Step`: one step of the task `drain`, of the worker, of the owner, or of a task of the manager.
-/

namespace Kotoconn.Daemon
open Lib

/-- `drain`. A list holds the `released` tokens that `released_tier` collected. -/
inductive Drain where
  /-- for `stopping` -/
  | waiting
  | entryPoints
  | awaitingEntryPoints (tokens : List ResourceId)
  | services
  | awaitingServices (tokens : List ResourceId)
  | aborted
  | awaitingAborted (tokens : List ResourceId)
  | awaitingAll (tokens tokens' : List ResourceId)
  | released

namespace Drain

/-- `drain_tier` or `abort` has run. -/
def began : Drain → Bool
  | waiting => false
  | _ => true

/-- `drain_tier(Service)` has run. -/
def servicesBegan : Drain → Bool
  | services | awaitingServices _ => true
  | _ => false

/-- The branch `ordered`, which `force` ends. -/
def ordered : Drain → Bool
  | waiting | entryPoints | awaitingEntryPoints _ | services | awaitingServices _ => true
  | _ => false

def tokens : Drain → Tier → Option (List ResourceId)
  | awaitingEntryPoints ids, .entryPoint | awaitingAborted ids, .entryPoint | awaitingAll ids _, .entryPoint => some ids
  | awaitingServices ids, .service | awaitingAll _ ids, .service => some ids
  | services, .entryPoint | awaitingServices _, .entryPoint | released, _ => some []
  | _, _ => none

end Drain

inductive Stand where
  /-- in `Script::new` -/
  | starting
  | serving
  /-- `serve` waits for the script to be idle -/
  | idle
  /-- `serve` has returned -/
  | returned
  /-- the guard of `calls` is dropped -/
  | ended
  deriving DecidableEq

/-- `serve` has left its loop. -/
def Stand.over : Stand → Bool
  | starting | serving => false
  | idle | returned | ended => true

structure Worker where
  stand : Stand
  ready : Bool
  hooksFinished : Bool
  exhausted : Bool
  calls : Nat

def capacity : Nat := 64

structure Process where
  manager : Manager
  shutdown : Bool
  stopping : Bool
  force : Bool
  calls : Bool
  released : Bool
  drain : Drain
  worker : Worker
  queued : Nat
  closed : Bool

namespace Process

def new : Process where
  manager := .new
  shutdown := false
  stopping := false
  force := false
  calls := false
  released := false
  drain := .waiting
  worker := ⟨.starting, true, false, false, 0⟩
  queued := 0
  closed := false

/-- `serve` returns, or does not start: its calls and the receiver are dropped. -/
def leave (d : Process) : Process :=
  { d with worker := { d.worker with stand := .returned, calls := 0 }, queued := 0, closed := true }

/-- `tokens` are the resources of a tier. -/
def InTier (m : Manager) (tier : Tier) (tokens : List ResourceId) : Prop :=
  ∀ id, id ∈ tokens ↔ ∃ e, m.entries.lookup id = some e ∧ e.tier = tier

def AllReleased (m : Manager) (tokens : List ResourceId) : Prop := ∀ id ∈ tokens, m.released id = true

inductive Step : Process → Process → Prop
  | task {d : Process} {m' : Manager} (h : Manager.Task d.manager m') : Step d { d with manager := m' }
  /-- `stop`, or an inbound failed -/
  | stop {d : Process} : Step d { d with shutdown := true }
  | stopping {d : Process} : Step d { d with stopping := true }
  | force {d : Process} : Step d { d with force := true }
  | send {d : Process} (hopen : d.closed = false) (hroom : d.queued < capacity) : Step d { d with queued := d.queued + 1 }
  | sendersDropped {d : Process} : Step d { d with closed := true }
  -- the policy thread
  | started {d : Process} (hstand : d.worker.stand = .starting) :
      Step d { d with worker := { d.worker with stand := .serving } }
  | startFailed {d : Process} (hstand : d.worker.stand = .starting) : Step d d.leave
  | forced {d : Process} (hstand : d.worker.stand = .serving) (hforce : d.force = true) : Step d d.leave
  | evaluated {d : Process} (hstand : d.worker.stand = .serving) (hready : d.worker.ready = true) (succeeded : Bool) :
      Step d { d with worker := { d.worker with ready := false }, shutdown := d.shutdown || !succeeded }
  | hooks {d : Process} (hstand : d.worker.stand = .serving) (hfinished : d.worker.hooksFinished = false)
      (hshutdown : d.shutdown = true) :
      Step d { d with worker := { d.worker with hooksFinished := true }, stopping := true }
  | hooksFailed {d : Process} (hstand : d.worker.stand = .serving) (hfinished : d.worker.hooksFinished = false)
      (hshutdown : d.shutdown = true) : Step d { d with stopping := true }.leave
  | close {d : Process} (hstand : d.worker.stand = .serving) (hstopping : d.stopping = true) (hopen : d.closed = false) :
      Step d { d with closed := true }
  | called {d : Process} {n : Nat} (hstand : d.worker.stand = .serving) (hcalls : d.worker.calls = n + 1) :
      Step d { d with worker := { d.worker with calls := n } }
  | received {d : Process} {n : Nat} (hstand : d.worker.stand = .serving) (hspent : d.worker.exhausted = false)
      (hqueued : d.queued = n + 1) :
      Step d { d with worker := { d.worker with calls := d.worker.calls + 1 }, queued := n }
  | exhausted {d : Process} (hstand : d.worker.stand = .serving) (hspent : d.worker.exhausted = false)
      (hqueued : d.queued = 0) (hclosed : d.closed = true) :
      Step d { d with worker := { d.worker with exhausted := true } }
  | drained {d : Process} (hstand : d.worker.stand = .serving) (hspent : d.worker.exhausted = true)
      (hcalls : d.worker.calls = 0) (hhooks : (d.shutdown && !d.worker.hooksFinished) = false)
      (hready : d.worker.ready = false) : Step d { d with worker := { d.worker with stand := .idle }, calls := true }
  | scriptIdle {d : Process} (hstand : d.worker.stand = .idle) : Step d d.leave
  | ended {d : Process} (hstand : d.worker.stand = .returned) :
      Step d { d with worker := { d.worker with stand := .ended }, calls := true }
  -- `drain`
  | drainEntryPoints {d : Process} {ids : List ResourceId} {m' : Manager} (hdrain : d.drain = .waiting)
      (hstopping : d.stopping = true) (hids : d.manager.OpenOf .entryPoint ids) (h : d.manager.drainTier ids = some m') :
      Step d { d with manager := m', drain := .entryPoints }
  | entryTokens {d : Process} {tokens : List ResourceId} (hdrain : d.drain = .entryPoints)
      (htokens : InTier d.manager .entryPoint tokens) : Step d { d with drain := .awaitingEntryPoints tokens }
  | drainServices {d : Process} {tokens ids : List ResourceId} {m' : Manager}
      (hdrain : d.drain = .awaitingEntryPoints tokens) (hreleased : AllReleased d.manager tokens)
      (hcalls : d.calls = true) (hids : d.manager.OpenOf .service ids) (h : d.manager.drainTier ids = some m') :
      Step d { d with manager := m', drain := .services }
  | serviceTokens {d : Process} {tokens : List ResourceId} (hdrain : d.drain = .services)
      (htokens : InTier d.manager .service tokens) : Step d { d with drain := .awaitingServices tokens }
  | released {d : Process} {tokens : List ResourceId} (hdrain : d.drain = .awaitingServices tokens)
      (hreleased : AllReleased d.manager tokens) : Step d { d with drain := .released, released := true }
  | abort {d : Process} (hdrain : d.drain.ordered = true) (hforce : d.force = true) :
      Step d { d with manager := d.manager.abort, drain := .aborted }
  | abortedEntryTokens {d : Process} {tokens : List ResourceId} (hdrain : d.drain = .aborted)
      (htokens : InTier d.manager .entryPoint tokens) : Step d { d with drain := .awaitingAborted tokens }
  | abortedServiceTokens {d : Process} {tokens tokens' : List ResourceId} (hdrain : d.drain = .awaitingAborted tokens)
      (htokens : InTier d.manager .service tokens') : Step d { d with drain := .awaitingAll tokens tokens' }
  | abortedReleased {d : Process} {tokens tokens' : List ResourceId} (hdrain : d.drain = .awaitingAll tokens tokens')
      (hreleased : AllReleased d.manager tokens ∧ AllReleased d.manager tokens') :
      Step d { d with drain := .released, released := true }

abbrev Run : Process → Process → Prop := Relation.ReflTransGen Step

inductive Reachable : Process → Prop
  | new : Reachable new
  | step {d d' : Process} (h : Reachable d) (hstep : Step d d') : Reachable d'

/-! ## Invariant -/

def Covers (m : Manager) (tier : Tier) (tokens : List ResourceId) : Prop :=
  ∀ ⦃id e⦄, m.entries.lookup id = some e → e.tier = tier → id ∈ tokens

structure Inv (d : Process) : Prop where
  manager : d.manager.Reachable
  accepting : d.drain.began = true → d.manager.accepting = false
  covers : ∀ {tier tokens}, d.drain.tokens tier = some tokens → Covers d.manager tier tokens
  calls : d.calls = true → d.worker.stand.over = true
  running : d.worker.stand.over = true → d.worker.calls = 0
  services : d.drain.servicesBegan = true → d.worker.stand.over = true
  released : d.released = true → d.drain = .released

variable {d d' : Process}

theorem inv_new : new.Inv where
  manager := .new
  accepting := nofun
  covers {tier tokens} h := by cases tier <;> cases h
  calls := nofun
  running := nofun
  services := nofun
  released := nofun

variable {tokens : List ResourceId}

theorem Covers.step {m m' : Manager} {tier : Tier} (h : Covers m tier tokens)
    (hstep : Manager.Step m m') (hreach : m.Reachable) (haccepting : m.accepting = false) : Covers m' tier tokens := by
  intro id e' he' htier
  obtain ⟨_, he, hfollows⟩ := (hstep.stopped hreach haccepting).2 he'
  exact h he (hfollows.tier.symm.trans htier)

theorem Covers.released {m : Manager} {tier : Tier} (h : Covers m tier tokens)
    (hreach : m.Reachable) (hreleased : AllReleased m tokens) : Covers m tier [] := by
  intro id e he htier
  have hfree := (hreach.located.entry he).1
  cases hfree.symm.trans (hreleased id (h he htier))

theorem Inv.worker (h : d.Inv) (hmanager : d'.manager = d.manager) (hdrain : d'.drain = d.drain)
    (hreleased : d'.released = d.released) (hover : d.worker.stand.over = true → d'.worker.stand.over = true)
    (hcalls : d'.calls = true → d.calls = true ∨ d'.worker.stand.over = true)
    (hrunning : d'.worker.stand.over = true → d'.worker.calls = 0) : d'.Inv where
  manager := hmanager ▸ h.manager
  accepting hbegan := hmanager ▸ h.accepting (hdrain ▸ hbegan)
  covers htokens := hmanager ▸ h.covers (hdrain ▸ htokens)
  calls hd := (hcalls hd).elim (fun hd => hover (h.calls hd)) id
  running := hrunning
  services hbegan := hover (h.services (hdrain ▸ hbegan))
  released hd := hdrain.trans (h.released (hreleased.symm.trans hd))

theorem Inv.serving (h : d.Inv) (hmanager : d'.manager = d.manager) (hdrain : d'.drain = d.drain)
    (hreleased : d'.released = d.released) (hcalls : d'.calls = d.calls) (hstand : d.worker.stand = .serving)
    (hstand' : d'.worker.stand = .serving) : d'.Inv := by
  refine h.worker hmanager hdrain hreleased (fun hover => ?_) (fun hd => .inl (hcalls.symm.trans hd)) fun hover => ?_
  · rw [hstand] at hover
    cases hover
  · rw [hstand'] at hover
    cases hover

theorem Inv.leave (h : d.Inv) : d.leave.Inv := h.worker rfl rfl rfl (fun _ => rfl) .inl fun _ => rfl

theorem Inv.drained (h : d.Inv) {m' : Manager} {drain : Drain} (hmanager : m'.Reachable)
    (haccepting : m'.accepting = false)
    (hcovers : ∀ {tier tokens}, drain.tokens tier = some tokens → Covers m' tier tokens)
    (hservices : drain.servicesBegan = true → d.worker.stand.over = true) (hdrain : d.drain ≠ .released) :
    Inv { d with manager := m', drain } :=
  ⟨hmanager, fun _ => haccepting, hcovers, h.calls, h.running, hservices, fun hd => absurd (h.released hd) hdrain⟩

theorem Inv.finished (h : d.Inv) (hbegan : d.drain.began = true) (hcovers : ∀ tier, Covers d.manager tier []) :
    Inv { d with drain := .released, released := true } where
  manager := h.manager
  accepting _ := h.accepting hbegan
  covers {tier tokens} htokens := by
    cases Option.some.inj htokens
    exact hcovers tier
  calls := h.calls
  running := h.running
  services := nofun
  released _ := rfl

theorem InTier.covers {m : Manager} {tier : Tier} (h : InTier m tier tokens) : Covers m tier tokens :=
  fun _ _ he htier => (h _).2 ⟨_, he, htier⟩

theorem Step.inv (hstep : Step d d') (h : d.Inv) : d'.Inv := by
  cases hstep with
  | task htask =>
    have hstep := Manager.Step.task htask
    refine ⟨h.manager.step hstep, fun hbegan => htask.same.2.trans (h.accepting hbegan), fun htokens => ?_, h.calls,
      h.running, h.services, h.released⟩
    refine Covers.step (h.covers htokens) hstep h.manager (h.accepting ?_)
    cases hdrain : d.drain <;> first | rfl | skip
    rw [hdrain] at htokens
    cases htokens
  | stop => exact h.worker rfl rfl rfl id .inl h.running
  | stopping => exact h.worker rfl rfl rfl id .inl h.running
  | force => exact h.worker rfl rfl rfl id .inl h.running
  | send => exact h.worker rfl rfl rfl id .inl h.running
  | sendersDropped => exact h.worker rfl rfl rfl id .inl h.running
  | started hstand =>
    refine h.worker rfl rfl rfl (fun hover => ?_) .inl nofun
    rw [hstand] at hover
    cases hover
  | startFailed => exact h.leave
  | forced => exact h.leave
  | evaluated hstand => exact h.serving rfl rfl rfl rfl hstand hstand
  | hooks hstand => exact h.serving rfl rfl rfl rfl hstand hstand
  | hooksFailed => exact h.worker rfl rfl rfl (fun _ => rfl) .inl fun _ => rfl
  | close hstand => exact h.serving rfl rfl rfl rfl hstand hstand
  | called hstand => exact h.serving rfl rfl rfl rfl hstand hstand
  | received hstand => exact h.serving rfl rfl rfl rfl hstand hstand
  | exhausted hstand => exact h.serving rfl rfl rfl rfl hstand hstand
  | drained _ _ hcalls =>
    exact h.worker rfl rfl rfl (fun _ => rfl) (fun _ => .inr rfl) fun _ => hcalls
  | scriptIdle => exact h.leave
  | ended hstand =>
    exact h.worker rfl rfl rfl (fun _ => rfl) (fun _ => .inr rfl) fun _ => h.running (by rw [hstand]; rfl)
  | drainEntryPoints hdrain _ hids hdrained =>
    have hstep := Manager.Step.drainTier hids hdrained
    obtain ⟨entries, releases, rfl, -⟩ := Manager.drainTier_later hdrained
    exact h.drained (h.manager.step hstep) rfl nofun nofun (by rw [hdrain]; exact nofun)
  | entryTokens hdrain htokens =>
    refine h.drained h.manager (h.accepting (by rw [hdrain]; rfl)) (fun {tier tokens} ht => ?_) nofun
      (by rw [hdrain]; exact nofun)
    cases tier <;> cases ht
    exact htokens.covers
  | @drainServices tokens _ _ hdrain hreleased hcalls hids hdrained =>
    have haccepting := h.accepting (by rw [hdrain]; rfl)
    have hcovers : Covers d.manager .entryPoint tokens := h.covers (by rw [hdrain]; rfl)
    have hnone := hcovers.released h.manager hreleased
    have hstep := Manager.Step.drainTier hids hdrained
    have hnone' := hnone.step hstep h.manager haccepting
    obtain ⟨_, _, rfl, -⟩ := Manager.drainTier_later hdrained
    refine h.drained (h.manager.step hstep) rfl (fun {tier tokens} ht => ?_) (fun _ => h.calls hcalls)
      (by rw [hdrain]; exact nofun)
    cases tier <;> cases ht
    exact hnone'
  | serviceTokens hdrain htokens =>
    have hcovers : Covers d.manager .entryPoint [] := h.covers (by rw [hdrain]; rfl)
    refine h.drained h.manager (h.accepting (by rw [hdrain]; rfl)) (fun {tier tokens} ht => ?_)
      (fun _ => h.services (by rw [hdrain]; rfl)) (by rw [hdrain]; exact nofun)
    cases tier with
    | entryPoint =>
      cases ht
      exact hcovers
    | service =>
      cases ht
      exact htokens.covers
  | released hdrain hreleased =>
    refine h.finished (by rw [hdrain]; rfl) fun tier => ?_
    cases tier with
    | entryPoint => exact h.covers (by rw [hdrain]; rfl)
    | service => exact Covers.released (h.covers (by rw [hdrain]; rfl)) h.manager hreleased
  | abort hdrain =>
    refine h.drained (h.manager.step .abort) rfl nofun nofun fun hreleased => ?_
    rw [hreleased] at hdrain
    cases hdrain
  | abortedEntryTokens hdrain htokens =>
    refine h.drained h.manager (h.accepting (by rw [hdrain]; rfl)) (fun {tier tokens} ht => ?_) nofun
      (by rw [hdrain]; exact nofun)
    cases tier <;> cases ht
    exact htokens.covers
  | @abortedServiceTokens tokens _ hdrain htokens =>
    have hcovers : Covers d.manager .entryPoint tokens := h.covers (by rw [hdrain]; rfl)
    refine h.drained h.manager (h.accepting (by rw [hdrain]; rfl)) (fun {tier tokens} ht => ?_) nofun
      (by rw [hdrain]; exact nofun)
    cases tier with
    | entryPoint =>
      cases ht
      exact hcovers
    | service =>
      cases ht
      exact htokens.covers
  | abortedReleased hdrain hreleased =>
    refine h.finished (by rw [hdrain]; rfl) fun tier => ?_
    cases tier with
    | entryPoint => exact Covers.released (h.covers (by rw [hdrain]; rfl)) h.manager hreleased.1
    | service => exact Covers.released (h.covers (by rw [hdrain]; rfl)) h.manager hreleased.2

theorem Reachable.inv (h : Reachable d) : d.Inv := by
  induction h with
  | new => exact inv_new
  | step _ hstep ih => exact hstep.inv ih

/-! ## Runs -/

theorem Step.began (hstep : Step d d') (hbegan : d.drain.began = true) : d'.drain.began = true := by
  cases hstep with
  | _ => first | rfl | exact hbegan

theorem Step.over (hstep : Step d d') (hover : d.worker.stand.over = true) : d'.worker.stand.over = true := by
  cases hstep with
  | started hstand =>
    rw [hstand] at hover
    cases hover
  | startFailed => rfl
  | forced => rfl
  | hooksFailed => rfl
  | drained => rfl
  | scriptIdle => rfl
  | ended => rfl
  | _ => exact hover

theorem Step.drains_services (hstep : Step d d') (hbefore : d.drain.servicesBegan = false)
    (hafter : d'.drain.servicesBegan = true) :
    ∃ tokens, d.drain = .awaitingEntryPoints tokens ∧ AllReleased d.manager tokens ∧ d.calls = true := by
  cases hstep with
  | drainServices hdrain hreleased hcalls => exact ⟨_, hdrain, hreleased, hcalls⟩
  | serviceTokens hdrain =>
    rw [hdrain] at hbefore
    cases hbefore
  | drainEntryPoints => cases hafter
  | entryTokens => cases hafter
  | released => cases hafter
  | abort => cases hafter
  | abortedEntryTokens => cases hafter
  | abortedServiceTokens => cases hafter
  | abortedReleased => cases hafter
  | _ => cases hbefore.symm.trans hafter

theorem Step.manager (hstep : Step d d') : d'.manager = d.manager ∨ Manager.Step d.manager d'.manager := by
  cases hstep with
  | task htask => exact .inr (.task htask)
  | drainEntryPoints _ _ hids hdrained => exact .inr (.drainTier hids hdrained)
  | drainServices _ _ _ hids hdrained => exact .inr (.drainTier hids hdrained)
  | abort => exact .inr .abort
  | _ => exact .inl rfl

theorem Reachable.run (h : Reachable d) (hrun : Run d d') : Reachable d' := by
  induction hrun with
  | refl => exact h
  | tail _ hstep ih => exact ih.step hstep

theorem Reachable.no_entry (h : Reachable d) (hbegan : d.drain.began = true) (hrun : Run d d') :
    d'.drain.began = true ∧ ∀ {id e'}, d'.manager.entries.lookup id = some e' →
      ∃ e, d.manager.entries.lookup id = some e := by
  induction hrun with
  | refl => exact ⟨hbegan, fun he => ⟨_, he⟩⟩
  | @tail _ _ hrun hstep ih =>
    have hinv := (h.run hrun).inv
    refine ⟨hstep.began ih.1, fun {id e'} he => ?_⟩
    rcases hstep.manager with hsame | hmanager
    · exact ih.2 (hsame ▸ he)
    · obtain ⟨_, he, -⟩ := (hmanager.stopped hinv.manager (hinv.accepting ih.1)).2 he
      exact ih.2 he

theorem Reachable.no_call (h : Reachable d) (hover : d.worker.stand.over = true) (hrun : Run d d') :
    d'.worker.calls = 0 := by
  have hover' : d'.worker.stand.over = true := by
    induction hrun with
    | refl => exact hover
    | tail _ hstep ih => exact hstep.over ih
  exact (h.run hrun).inv.running hover'

structure InOrder (d : Process) : Prop where
  /-- Once `drain_tier` or `abort` ran, no entry is added. -/
  stopped : d.drain.began = true → ∀ {d' id e'}, Run d d' → d'.manager.entries.lookup id = some e' →
    ∃ e, d.manager.entries.lookup id = some e
  services : ∀ {d'}, Step d d' → d.drain.servicesBegan = false → d'.drain.servicesBegan = true →
    (∀ id ∈ d.manager.registrations,
      (∃ e, d.manager.entries.lookup id = some e ∧ e.tier = .service) ∨ d.manager.Gone id) ∧
    ∀ {d''}, Run d d'' → d''.worker.calls = 0
  /-- Once `released` is cancelled, the registry is empty and stays so. -/
  released : d.released = true → (∀ id ∈ d.manager.registrations, d.manager.Gone id) ∧
    ∀ {d'}, Run d d' → ∀ id, d'.manager.entries.lookup id = none
  milestones : ∀ {id}, d.manager.released id = true → d.manager.Milestones id

theorem Inv.vacant (h : d.Inv) (hreleased : d.released = true) (id : ResourceId) :
    d.manager.entries.lookup id = none := by
  cases he : d.manager.entries.lookup id with
  | none => rfl
  | some e =>
    have hcovers : Covers d.manager e.tier [] := h.covers (by rw [h.released hreleased]; rfl)
    exact absurd (hcovers he rfl) List.not_mem_nil

/-- **Shutdown releases everything in order**, in every interleaving of creations, policy calls, hooks, releases, `stop`
and `force`. -/
theorem Reachable.in_order (h : Reachable d) : d.InOrder := by
  have hinv := h.inv
  refine ⟨fun hbegan {d' id e'} hrun he => (h.no_entry hbegan hrun).2 he, fun hstep hbefore hafter => ?_,
    fun hreleased => ⟨fun id hid => ?_, fun {d'} hrun id => ?_⟩, fun hid => (hinv.manager.history _).released hid⟩
  · obtain ⟨tokens, hdrain, hreleased, hcalls⟩ := hstep.drains_services hbefore hafter
    have hcovers : Covers d.manager .entryPoint tokens := hinv.covers (by rw [hdrain]; rfl)
    refine ⟨fun id hid => ?_, fun hrun => h.no_call (hinv.calls hcalls) hrun⟩
    refine (hinv.manager.registered hid).imp_left fun ⟨e, he⟩ => ⟨e, he, ?_⟩
    cases htier : e.tier with
    | service => rfl
    | entryPoint => exact absurd (hcovers.released hinv.manager hreleased he htier) List.not_mem_nil
  · refine (hinv.manager.registered hid).resolve_left fun ⟨e, he⟩ => ?_
    cases he.symm.trans (hinv.vacant hreleased id)
  · cases he : d'.manager.entries.lookup id with
    | none => rfl
    | some =>
      have hbegan : d.drain.began = true := by
        rw [hinv.released hreleased]
        rfl
      obtain ⟨_, he₀⟩ := (h.no_entry hbegan hrun).2 he
      cases he₀.symm.trans (hinv.vacant hreleased id)

theorem openOf_retain (m : Manager) (tier : Tier) :
    m.OpenOf tier (m.entries.retain fun e => e.tier = tier && e.isOpen).keys :=
  ⟨AList.keys_nodup _, fun id => by simp [Table.mem_keys_retain]⟩

theorem inTier_retain (m : Manager) (tier : Tier) : InTier m tier (m.entries.retain fun e => e.tier = tier).keys :=
  fun id => by simp [Table.mem_keys_retain]

theorem in_order_inbound : ∃ d, Reachable d ∧ d.InOrder ∧ d.released = true ∧ d.force = false ∧
    d.manager.registrations = [1] ∧ d.manager.released 1 = true := by
  have hcreated : Reachable _ := .step .new (.task (@Manager.Task.create _ _ .inbound 1 rfl))
  have hbuilt : Reachable _ := hcreated.step (.task (@Manager.Task.built _ 1 _ rfl rfl rfl))
  have hreg : Reachable _ := hbuilt.step (.task (@Manager.Task.register _ 1 _ rfl rfl))
  have hsupervised : Reachable _ := hreg.step (.task (@Manager.Task.supervise _ 1 _ rfl rfl))
  have hstarted : Reachable _ := hsupervised.step (.started rfl)
  have hevaluated : Reachable _ := hstarted.step (.evaluated rfl rfl true)
  have hstop : Reachable _ := hevaluated.step .stop
  have hhooks : Reachable _ := hstop.step (.hooks rfl rfl rfl)
  have hdrain : Reachable _ := hhooks.step (.drainEntryPoints rfl rfl (openOf_retain _ _) rfl)
  have hclosed : Reachable _ := hdrain.step (.close rfl rfl rfl)
  have hspent : Reachable _ := hclosed.step (.exhausted rfl rfl rfl rfl)
  have hdrained : Reachable _ := hspent.step (.drained rfl rfl rfl rfl rfl)
  have htokens : Reachable _ := hdrained.step (@Step.entryTokens _ [1] rfl (inTier_retain _ _))
  have hnoticed : Reachable _ := htokens.step (.task (@Manager.Task.noticed _ 1 _ rfl rfl (.inl rfl)))
  have hidle : Reachable _ := hnoticed.step (.task (@Manager.Task.drained _ 1 _ rfl rfl .idle rfl))
  have hwaited : Reachable _ := hidle.step (.task (@Manager.Task.waited _ 1 rfl ⟨rfl, rfl⟩))
  have htaken : Reachable _ := hwaited.step (.task (@Manager.Task.take _ 1 _ rfl rfl))
  have hdropped : Reachable _ := htaken.step (.task (@Manager.Task.dropped _ 1 rfl))
  have hremoved : Reachable _ := hdropped.step (.task (@Manager.Task.remove _ 1 rfl))
  have hreleased : Reachable _ := hremoved.step (.task (@Manager.Task.release _ 1 rfl))
  have hservices : Reachable _ :=
    hreleased.step (.drainServices rfl (List.forall_mem_singleton.2 rfl) rfl (openOf_retain _ _) rfl)
  have hservice : Reachable _ := hservices.step (@Step.serviceTokens _ [] rfl (inTier_retain _ _))
  have hdone : Reachable _ := hservice.step (.released rfl nofun)
  exact ⟨_, hdone, hdone.in_order, rfl, rfl, rfl, rfl⟩

end Process

end Kotoconn.Daemon
