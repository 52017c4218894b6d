import Kotoconn.Tun.Fragments.Invariant

/-!
# What a step of the pipeline can touch

`Step.action` sorts the steps by what they touch: most only move a delivery or a packet from place to place (`Inert`),
and the others are one call each on the routes or on a decoder.
-/

namespace Kotoconn.Tun.Pipeline

open Lib List Option Function

variable {A : Type} {e : PipelineEnv A} {s s' : State A} {ev : Event A} {w v : Nat} {b : Binding} {frame : Frame}

/-- No entry and no assembly changes. -/
def Inert (s s' : State A) : Prop :=
  s'.routes = s.routes ∧ ∀ v, (s'.workers v).decoder = (s.workers v).decoder

/-- A worker that has to finish a binding still has to. -/
def Waits (s s' : State A) : Prop :=
  ∀ w b rest, (s.workers w).task = .finishing b rest → (s'.workers w).task = .finishing b rest

/-- The packet that a frame holds which is not a fragment. -/
def wholeReply (p : Parsed) : Reply A := .whole ⟨p.ip.setPayloadLen p.payload.length, p.payload⟩

/-- The events that concern neither an entry nor an assembly. -/
def Event.passive : Event A → Bool
  | quiet | plain _ _ (.whole _) | dropped _ => true
  | _ => false

section Workers

variable {k : Worker A} (hs : s'.workers = update s.workers w k)
include hs

theorem decoder_update (hk : k.decoder = (s.workers w).decoder) (v : Nat) :
    (s'.workers v).decoder = (s.workers v).decoder := by
  rw [hs, update_apply]
  split_ifs with hv
  · rw [hk, hv]
  · rfl

theorem Waits.put (hk : ∀ b rest, (s.workers w).task = .finishing b rest → k.task = .finishing b rest) :
    Waits s s' := by
  intro v b rest htask
  rw [hs, update_apply]
  split_ifs with hv
  · exact hk b rest (hv ▸ htask)
  · exact htask

theorem Waits.busy {task : Task} (htask : (s.workers w).task = task) (hne : ∀ b rest, task ≠ .finishing b rest) :
    Waits s s' :=
  .put hs fun b rest hfinishing => absurd (htask.symm.trans hfinishing) (hne b rest)

end Workers

theorem Inert.send (s : State A) (w : Nat) (m : Forwarded) : Inert s (s.send w m) := ⟨rfl, decoder_update rfl rfl⟩

theorem Waits.send (s : State A) (w : Nat) (m : Forwarded) : Waits s (s.send w m) := .put rfl fun _ _ h => h

inductive Action (e : PipelineEnv A) (s : State A) : Event A → State A → Prop where
  | inert {ev : Event A} {s' : State A} : Inert s s' → Waits s s' → s.clock ≤ s'.clock → ev.passive = true →
      Action e s ev s'
  | routed {w now : Nat} {p : Parsed} {key : FragmentKey} {frame : Frame} {out : Routed} {l : Limits} {s' : State A} :
      s.routes.route e.routes s.limits (e.owner (.fragment key)) key (p.firstRoute.map e.owner) frame now =
        some (out, s'.routes, l) → (∀ v, (s'.workers v).decoder = (s.workers v).decoder) → Waits s s' →
      s.clock ≤ s'.clock → Action e s (.routed w frame out) s'
  | fragment {w now : Nat} {ev : Event A} {s' : State A} : s.fragment e w now = some (ev, s') → Action e s ev s'
  | finish {w : Nat} {ev : Event A} {s' : State A} : s.finish w = some (ev, s') → Action e s ev s'
  | expireRoutes {shard now : Nat} {s' : State A} : s.expireRoutes shard now = some s' → Action e s .quiet s'
  | expireDecoder {w now : Nat} {s' : State A} : s.expireDecoder e w now = some s' → Action e s .quiet s'
  | discardPending {shard : Nat} {key : FragmentKey} {s' : State A} : (s.routes.shards shard).OldestPending key →
      s.discardPending shard key = some s' → Action e s .quiet s'
  | discardOldest {w : Nat} {key : FragmentKey} {s' : State A} : (s.workers w).task = .idle →
      (s.workers w).decoder.Oldest key → s.discardOldest e w key = some s' → Action e s .quiet s'

variable (h : Inv e s)
include h

theorem Step.action (hstep : Step e s ev s') : Action e s ev s' := by
  cases hstep with
  | frame _ hidle hs =>
    obtain ⟨_, rfl, hcases⟩ := frame_cases hs
    rcases hcases with ⟨rfl, rfl⟩ | ⟨p, key, -, -, hroute⟩ | ⟨p, key, -, -, -, ⟨rfl, rfl, -⟩ | ⟨rfl, rfl⟩⟩
    · exact .inert ⟨rfl, fun _ => rfl⟩ (fun _ _ _ h => h) (s.tick_le _) rfl
    · obtain ⟨_, _, _, hcall, rfl, rfl⟩ := route_eq hroute
      exact .routed hcall (decoder_update rfl rfl) (.busy rfl hidle (by simp)) (s.tick_le _)
    · exact .inert ⟨rfl, fun _ => rfl⟩ (fun _ _ _ h => h) (s.tick_le _) rfl
    · exact .inert (.send ..) (.send _ _ _) (s.tick_le _) rfl
  | @forward w _ _ _ _ hs =>
    obtain ⟨d, hd, ⟨rfl, rfl⟩ | ⟨l, rfl, rfl⟩⟩ := forward_cases hs
    · have hset : Inert s (s.setTask w .idle) := ⟨rfl, decoder_update rfl rfl⟩
      refine .inert ⟨rfl, fun v => ((Inert.send ..).2 v).trans (hset.2 v)⟩ (fun w b rest hf => ?_) le_rfl rfl
      exact Waits.send _ _ _ w b rest (Waits.busy rfl hd (by simp) w b rest hf)
    · exact .inert ⟨rfl, decoder_update rfl rfl⟩ (.busy rfl hd (by simp)) le_rfl rfl
  | take _ hidle hs =>
    rcases take_cases hs with ⟨d, inbox, -, -, rfl, rfl⟩ | ⟨frame, inbox, hinbox, hs⟩
    · exact .inert ⟨rfl, decoder_update rfl rfl⟩ (.busy rfl hidle (by simp)) le_rfl rfl
    · -- a frame in a queue is no fragment, so decoding it leaves the decoder alone
      obtain ⟨_, hparse, hp⟩ := (h.worker _).raw (hinbox ▸ mem_cons_self)
      rw [decode_whole hparse hp, setWorker_self] at hs
      cases hs
      exact .inert ⟨rfl, decoder_update rfl rfl⟩ (.busy rfl hidle (by simp)) (s.tick_le _) rfl
  | releasePending _ hs =>
    obtain ⟨d, _, l, hd, -, -, rfl⟩ := releasePending_cases hs
    exact .inert ⟨rfl, decoder_update rfl rfl⟩ (.busy rfl hd (by simp)) le_rfl rfl
  | fragment _ hs => exact .fragment hs
  | finish _ hs => exact .finish hs
  | abandon _ hs =>
    obtain ⟨_, l, hd, rfl, rfl⟩ := abandon_cases hs
    exact .inert ⟨rfl, decoder_update rfl rfl⟩ (.busy rfl hd (by simp)) le_rfl rfl
  | dropQueued => exact .inert ⟨rfl, decoder_update rfl rfl⟩ (.put rfl fun _ _ h => h) le_rfl rfl
  | expireRoutes hs => exact .expireRoutes hs
  | expireDecoder _ hs => exact .expireDecoder hs
  | discardPending hold hs => exact .discardPending hold hs
  | discardOldest _ hidle hold hs => exact .discardOldest hidle hold hs
  | headroom => exact .inert ⟨rfl, fun _ => rfl⟩ (fun _ _ _ h => h) (s.tick_le _) rfl
  | releaseBinding => exact .inert ⟨rfl, fun _ => rfl⟩ (fun _ _ _ h => h) le_rfl rfl

theorem Step.clock_le (hstep : Step e s ev s') : s.clock ≤ s'.clock := by
  cases hstep.action h with
  | inert _ _ hclock => exact hclock
  | routed _ _ _ hclock => exact hclock
  | fragment hs => obtain ⟨d, _, rest, _, decoder, l, -, -, -, -, rfl⟩ := fragment_cases hs; exact s.tick_le _
  | finish hs => obtain ⟨_, _, r, l, -, -, -, rfl⟩ := finish_eq hs; exact le_rfl
  | expireRoutes hs => obtain ⟨r, l, -, rfl⟩ := expireRoutes_eq hs; exact s.tick_le _
  | expireDecoder hs => obtain ⟨_, l, -, rfl⟩ := expireDecoder_eq hs; exact s.tick_le _
  | discardPending _ hs => obtain ⟨_, l, -, rfl⟩ := discardPending_eq hs; exact le_rfl
  | discardOldest _ _ hs => obtain ⟨_, _, _, -, -, rfl⟩ := discardOldest_cases hs; exact le_rfl

variable {evs : List (Event A)}

theorem Run.clock_le (hrun : Run e s evs s') : s.clock ≤ s'.clock := by
  induction hrun with
  | refl => exact le_rfl
  | step hrun hstep ih => exact le_trans ih (hstep.clock_le (hrun.inv h))

/-- A binding of the past keeps what it is, and an entry that is removed does not come back. -/
theorem Step.evolves (hstep : Step e s ev s') : s.routes.Evolves s'.routes := by
  cases hstep.action h with
  | inert hinert => exact hinert.1 ▸ .refl _
  | routed hcall => exact (Routes.route_spec h.routes rfl h.firstOwner_lt hcall).1.evolves
  | fragment hs => obtain ⟨d, _, rest, _, decoder, l, -, -, -, -, rfl⟩ := fragment_cases hs; exact .refl _
  | finish hs =>
    obtain ⟨_, _, r, l, -, hfinish, -, rfl⟩ := finish_eq hs
    exact (Routes.finish_spec h.routes hfinish).evolves
  | expireRoutes hs =>
    obtain ⟨r, l, hexpire, rfl⟩ := expireRoutes_eq hs
    exact (Routes.expire_spec h.routes hexpire).evolves
  | expireDecoder hs => obtain ⟨_, l, -, rfl⟩ := expireDecoder_eq hs; exact .refl _
  | discardPending hold hs =>
    obtain ⟨_, l, hremove, rfl⟩ := discardPending_eq hs
    exact (Routes.discard_spec h.routes hold hremove).evolves
  | discardOldest _ _ hs => obtain ⟨_, _, _, -, -, rfl⟩ := discardOldest_cases hs; exact .refl _

theorem Run.evolves (hrun : Run e s evs s') : s.routes.Evolves s'.routes := by
  induction hrun with
  | refl => exact .refl _
  | step hrun hstep ih => exact ih.trans h.routes (hstep.evolves (hrun.inv h))

/-- **A worker that has to finish a binding does nothing before.** -/
theorem Step.finishing {rest : Option Delivery} (htask : (s.workers w).task = .finishing b rest)
    (hstep : Step e s ev s') : (s'.workers w).task = .finishing b rest ∨ s.finish w = some (ev, s') := by
  cases hstep.action h with
  | inert _ hwaits => exact .inl (hwaits _ _ _ htask)
  | routed _ _ hwaits => exact .inl (hwaits _ _ _ htask)
  | fragment hs =>
    obtain ⟨d, _, _, _, _, l, hd, -, -, -, rfl⟩ := fragment_cases hs
    exact .inl (Waits.busy rfl hd (by simp) _ _ _ htask)
  | @finish v _ _ hs =>
    by_cases hv : v = w
    · exact .inr (hv ▸ hs)
    · obtain ⟨_, _, _, _, -, -, -, rfl⟩ := finish_eq hs
      exact .inl (by simpa [State.setTask, State.setWorker, update_of_ne (Ne.symm hv)] using htask)
  | expireRoutes hs =>
    obtain ⟨_, _, -, rfl⟩ := expireRoutes_eq hs
    exact .inl htask
  | expireDecoder hs =>
    obtain ⟨_, l, -, rfl⟩ := expireDecoder_eq hs
    refine .inl (Waits.put rfl ?_ _ _ _ htask)
    exact fun _ _ h => h
  | discardPending _ hs =>
    obtain ⟨_, _, -, rfl⟩ := discardPending_eq hs
    exact .inl htask
  | discardOldest hidle _ hs =>
    obtain ⟨_, _, _, -, -, rfl⟩ := discardOldest_cases hs
    exact .inl (Waits.busy rfl hidle (by simp) _ _ _ htask)

theorem Step.decoded_cases {reply : Reply A} (hstep : Step e s (.decoded w b frame reply) s') :
    ∃ now, s.fragment e w now = some (.decoded w b frame reply, s') := by
  cases hstep.action h with
  | inert _ _ _ hpassive => cases hpassive
  | fragment hs =>
    obtain ⟨d, _, rest, _, _, l, -, -, -, hev, -⟩ := fragment_cases hs
    cases hev
    exact ⟨_, hs⟩
  | finish hs =>
    obtain ⟨_, _, _, l, -, -, hev, -⟩ := finish_eq hs
    cases hev

end Kotoconn.Tun.Pipeline
