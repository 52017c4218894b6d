import Kotoconn.Protocol.PacketIo

/-!
# `native_udp.rs`: the driver of a native transport

`Driver.Reachable`: turns of the driver between sends of its user, with any answers of the transport.
-/

namespace Kotoconn.Outbounds
open Protocol.PacketIo

variable {P : Type}

inductive Request where
  | pending
  | dropped
  | asked
  deriving DecidableEq

inductive Turned where
  | handoff
  | failed
  | again
  deriving DecidableEq

structure Driver (P : Type) where
  pending : List P
  used : Bool
  requested : Bool
  /-- the request was answered with `None` -/
  declined : Bool
  outgoing : List P
  replies : List P
  /-- ghost: what was taken from `outgoing`, and what of it the transport accepted or lost to an error -/
  consumed : List P
  taken : List P
  /-- ghost: what the transport received, and whether `replies` had room for it -/
  arrived : List (P × Bool)

def accepted (arrived : List (P × Bool)) : List P := (arrived.filter (·.2)).map (·.1)

theorem accepted_append (arrived more : List (P × Bool)) : accepted (arrived ++ more) = accepted arrived ++ accepted more := by
  unfold accepted
  rw [List.filter_append, List.map_append]

namespace Driver

def new : Driver P := ⟨[], false, false, false, [], [], [], [], []⟩

def request (d : Driver P) (request : Request) : Bool × Driver P :=
  if d.requested then (false, d)
  else match request with
    | .pending => (false, d)
    | .dropped => (false, { d with requested := true })
    | .asked => if d.used then (false, { d with requested := true, declined := true }) else (true, { d with requested := true })

/-- `poll_recv_many`, at most 32 packets. -/
def fetch (d : Driver P) (count : Nat) : Driver P :=
  let batch := d.outgoing.take (min count 32)
  if d.pending.isEmpty ∧ batch.isEmpty = false then
    { d with
      pending := batch
      outgoing := d.outgoing.drop (min count 32)
      used := true
      consumed := d.consumed ++ batch }
  else d

def submit (d : Driver P) (send : List P → Sent) : Driver P :=
  if d.pending.isEmpty then d
  else
    let count := (send d.pending).count
    { d with pending := d.pending.drop count, taken := d.taken ++ d.pending.take count }

def collect (d : Driver P) (received : List (P × Bool)) : Driver P :=
  { d with replies := d.replies ++ accepted received, arrived := d.arrived ++ received }

/-- One turn. `closed`: the user has dropped its sender. -/
def poll (d : Driver P) (request : Request) (count : Nat) (closed : Bool) (send : List P → Sent)
    (received : Received (P × Bool)) : Turned × Driver P :=
  let (granted, d) := d.request request
  if granted then (.handoff, d)
  else if d.pending.isEmpty && d.outgoing.isEmpty && closed then (.failed, d)
  else
    let d := (d.fetch count).submit send
    match received with
    | .ok [] => (.failed, d)
    | received => (.again, d.collect received.packets)

inductive Reachable : Driver P → Prop
  | new : Reachable new
  | send {d : Driver P} (h : Reachable d) (packet : P) : Reachable { d with outgoing := d.outgoing ++ [packet] }
  | poll {d d' : Driver P} {r : Request} {count : Nat} {closed : Bool} {send : List P → Sent} {received : Received (P × Bool)}
      (h : Reachable d) (hpoll : d.poll r count closed send received = (.again, d')) : Reachable d'

/-! ## Grants -/

structure Inv (d : Driver P) : Prop where
  unused : d.used = false → d.consumed = [] ∧ d.pending = [] ∧ d.taken = []
  replies : d.replies = accepted d.arrived

theorem inv_new : (new : Driver P).Inv := ⟨fun _ => ⟨rfl, rfl, rfl⟩, rfl⟩

variable {d d' : Driver P} {r : Request} {count : Nat} {closed : Bool} {send : List P → Sent}
  {received : Received (P × Bool)}

theorem request_spec (d : Driver P) (r : Request) :
    ∃ requested declined, (d.request r).2 = { d with requested, declined } ∧
      ((d.request r).1 = true → r = .asked ∧ d.used = false) ∧ (declined = true → d.declined = true ∨ d.used = true) := by
  unfold request
  by_cases hrequested : d.requested = true
  · rw [if_pos hrequested]
    exact ⟨_, _, rfl, nofun, .inl⟩
  · rw [if_neg hrequested]
    cases r with
    | pending => exact ⟨_, _, rfl, nofun, .inl⟩
    | dropped => exact ⟨_, _, rfl, nofun, .inl⟩
    | asked =>
      by_cases hused : d.used = true
      · simp only [if_pos hused]
        exact ⟨_, _, rfl, nofun, fun _ => .inr hused⟩
      · simp only [if_neg hused]
        exact ⟨_, _, rfl, fun _ => ⟨trivial, Bool.eq_false_iff.2 hused⟩, .inl⟩

theorem Inv.fetch (h : d.Inv) (count : Nat) : (d.fetch count).Inv := by
  unfold Driver.fetch
  simp only
  split_ifs
  · exact ⟨nofun, h.replies⟩
  · exact h

theorem Inv.submit (h : d.Inv) (send : List P → Sent) : (d.submit send).Inv := by
  unfold Driver.submit
  split_ifs with hempty
  · exact h
  · refine ⟨fun hunused => ?_, h.replies⟩
    have hpending := (h.unused hunused).2.1
    rw [hpending] at hempty
    exact absurd rfl hempty

theorem Inv.collect (h : d.Inv) (received : List (P × Bool)) : (d.collect received).Inv := by
  refine ⟨h.unused, ?_⟩
  show d.replies ++ accepted received = accepted (d.arrived ++ received)
  rw [accepted_append, h.replies]

theorem Inv.poll (h : d.Inv) {turned : Turned} (hpoll : d.poll r count closed send received = (turned, d')) : d'.Inv := by
  obtain ⟨_, _, hrequest, -⟩ := request_spec d r
  have hasked : (d.request r).2.Inv := by
    rw [hrequest]
    exact ⟨h.unused, h.replies⟩
  have hturned := congrArg Prod.snd hpoll
  unfold Driver.poll at hturned
  simp only at hturned
  split_ifs at hturned
  · exact hturned ▸ hasked
  · exact hturned ▸ hasked
  · cases received with
    | pending => exact hturned ▸ ((hasked.fetch count).submit send).collect _
    | error => exact hturned ▸ ((hasked.fetch count).submit send).collect _
    | ok packets =>
      cases packets with
      | nil => exact hturned ▸ (hasked.fetch count).submit send
      | cons => exact hturned ▸ ((hasked.fetch count).submit send).collect _

theorem poll_again (h : d.poll r count closed send received = (.again, d')) :
    d'.arrived = d.arrived ++ received.packets ∧ (d.outgoing = [] → d'.outgoing = [] ∧ d'.used = d.used) := by
  obtain ⟨_, _, hrequest, -⟩ := request_spec d r
  have hfetch : ∀ d₁ : Driver P, (d₁.fetch count).arrived = d₁.arrived ∧
      (d₁.outgoing = [] → d₁.fetch count = d₁) := fun d₁ => by
    unfold Driver.fetch
    simp only
    split_ifs with hbatch
    · refine ⟨rfl, fun hnone => ?_⟩
      rw [hnone, List.take_nil] at hbatch
      cases hbatch.2
    · exact ⟨rfl, fun _ => rfl⟩
  have hsubmit : ∀ d₁ : Driver P, (d₁.submit send).arrived = d₁.arrived ∧ (d₁.submit send).outgoing = d₁.outgoing ∧
      (d₁.submit send).used = d₁.used := fun d₁ => by
    unfold Driver.submit
    split_ifs
    · exact ⟨rfl, rfl, rfl⟩
    · exact ⟨rfl, rfl, rfl⟩
  have hcollect : d' = (((d.request r).2.fetch count).submit send).collect received.packets := by
    unfold Driver.poll at h
    simp only at h
    split_ifs at h
    · cases (Prod.mk.inj h).1
    · cases (Prod.mk.inj h).1
    · cases received with
      | pending => exact (Prod.mk.inj h).2.symm
      | error => exact (Prod.mk.inj h).2.symm
      | ok packets =>
        cases packets with
        | nil => cases (Prod.mk.inj h).1
        | cons => exact (Prod.mk.inj h).2.symm
  obtain ⟨harrived, hnone⟩ := hfetch (d.request r).2
  obtain ⟨harrived', houtgoing', hused'⟩ := hsubmit ((d.request r).2.fetch count)
  rw [hcollect]
  refine ⟨?_, fun houtgoing => ?_⟩
  · show _ ++ _ = _
    rw [harrived', harrived, hrequest]
  · have hrequested : (d.request r).2.outgoing = [] := by rw [hrequest]; exact houtgoing
    refine ⟨?_, ?_⟩
    · show (Driver.submit _ send).outgoing = []
      rw [houtgoing', hnone hrequested, hrequested]
    · show (Driver.submit _ send).used = d.used
      rw [hused', hnone hrequested, hrequest]

theorem Reachable.inv (h : Reachable d) : d.Inv := by
  induction h with
  | new => exact inv_new
  | send _ _ ih => exact ⟨ih.unused, ih.replies⟩
  | poll _ hpoll ih => exact ih.poll hpoll

theorem handoff_eq (h : d.poll r count closed send received = (.handoff, d')) :
    r = .asked ∧ d.used = false ∧ ∃ requested declined, d' = { d with requested, declined } := by
  obtain ⟨requested, declined, hrequest, hgranted, -⟩ := request_spec d r
  unfold Driver.poll at h
  simp only at h
  split_ifs at h with hgrant
  · obtain ⟨hasked, hunused⟩ := hgranted hgrant
    exact ⟨hasked, hunused, requested, declined, hrequest ▸ (Prod.mk.inj h).2.symm⟩
  · cases (Prod.mk.inj h).1
  · cases received with
    | pending => cases (Prod.mk.inj h).1
    | error => cases (Prod.mk.inj h).1
    | ok packets => cases packets <;> cases (Prod.mk.inj h).1

/-- **A transport that is granted was never used**: the driver took no packet of its user. -/
theorem Reachable.unused (h : Reachable d) (hpoll : d.poll r count closed send received = (.handoff, d')) :
    d'.consumed = [] ∧ d'.pending = [] ∧ d'.taken = [] := by
  obtain ⟨-, hunused, _, _, rfl⟩ := handoff_eq hpoll
  exact h.inv.unused hunused

end Driver

end Kotoconn.Outbounds
