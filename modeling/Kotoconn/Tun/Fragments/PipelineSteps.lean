import Kotoconn.Tun.Fragments.Pipeline
import Kotoconn.Tun.Packet.DecoderSteps

/-!
# What a step of the pipeline can do

One inversion lemma for each call of a worker, with the state it leaves; `decode_whole`: a packet that is not a fragment
passes any decoder.
-/

namespace Kotoconn.Tun.Pipeline

open Lib Option

variable {A : Type} {e : PipelineEnv A} {s s' : State A} {ev : Event A} {w : Nat}

/-! ## `Worker::frame` -/

theorem State.tick_le (s : State A) (now : Nat) : s.clock ≤ (s.tick now).clock := le_max_left _ _

variable {now : Nat} {p : Parsed}

theorem decode_whole {frame : Frame}
    (hparse : (parse e.wire frame.received.bytes).result = .ok p) (hp : p.fragment = none) : s.decode e w frame now =
      some (.plain w frame (.whole ⟨p.ip.setPayloadLen p.payload.length, p.payload⟩), s.setWorker w (s.workers w)) := by
  have hdecode : (s.workers w).decoder.decode e.decoder s.limits frame.received.bytes now =
      some (.whole ⟨p.ip.setPayloadLen p.payload.length, p.payload⟩, (s.workers w).decoder, s.limits) := by
    unfold Decoder.decode
    rw [show e.decoder.wire = e.wire from rfl, hparse]
    simp [Parsed.decodeWith, hp]
  unfold State.decode
  rw [hdecode]
  rfl

theorem setWorker_self (s : State A) (w : Nat) : s.setWorker w (s.workers w) = s := by
  unfold State.setWorker
  rw [Function.update_eq_self]

theorem route_fragment_none {protocol : UInt8} {flow : Flow} (h : p.route = some (.flow protocol flow)) :
    p.fragment = none := by
  unfold Parsed.route Parsed.fragmentKey at h
  cases hf : p.fragment with
  | none => rfl
  | some => simp [hf] at h

variable {key : FragmentKey}

theorem route_fragmentKey (h : p.route = some (.fragment key)) : p.fragmentKey = some key := by
  unfold Parsed.route at h
  split at h
  · cases h
    assumption
  · unfold Parsed.firstRoute at h
    split_ifs at h
    split at h
    · simp only at h
      split_ifs at h
      cases h
    · cases h

/-- What `Worker::frame` can do: nothing, route a fragment, decode a whole packet, or pass it on. -/
theorem frame_cases {received : Received} {accepted : Bool} (h : s.frame e w received accepted now = some (ev, s')) :
    ∃ s0 : State A, s0 = { s.tick now with reads := s.reads + 1 } ∧
    ((ev = .quiet ∧ s' = s0) ∨
    (∃ p key, (parse e.wire received.bytes).result = .ok p ∧ p.fragmentKey = some key ∧
      s0.route e w ⟨received, s.reads⟩ p key now = some (ev, s')) ∨
    (∃ p key, (parse e.wire received.bytes).result = .ok p ∧ p.fragment = none ∧ p.route = some key ∧
      ((ev = .plain w ⟨received, s.reads⟩ (.whole ⟨p.ip.setPayloadLen p.payload.length, p.payload⟩) ∧ s' = s0 ∧
        e.owner key = w) ∨
      (ev = .quiet ∧ s' = s0.send (e.owner key) (.frame ⟨received, s.reads⟩))))) := by
  refine ⟨_, rfl, ?_⟩
  unfold State.frame at h
  simp only at h
  cases hparse : (parse e.wire received.bytes).result with
  | panic => simp [hparse] at h
  | reject =>
    rw [hparse] at h
    cases h
    exact .inl ⟨rfl, rfl⟩
  | ok p =>
    simp only [hparse] at h
    cases hroute : p.route with
    | none =>
      rw [hroute] at h
      cases h
      exact .inl ⟨rfl, rfl⟩
    | some key =>
      rw [hroute] at h
      cases key with
      | fragment key =>
        refine .inr (.inl ⟨p, key, rfl, ?_, h⟩)
        exact route_fragmentKey hroute
      | flow =>
        have hp := route_fragment_none hroute
        simp only at h
        split_ifs at h with howner haccepted
        · rw [decode_whole hparse hp, setWorker_self] at h
          cases h
          exact .inr (.inr ⟨p, _, rfl, hp, hroute, .inl ⟨rfl, rfl, howner⟩⟩)
        · cases h
          exact .inr (.inr ⟨p, _, rfl, hp, hroute, .inr ⟨rfl, rfl⟩⟩)
        · cases h
          exact .inl ⟨rfl, rfl⟩

theorem route_eq {frame : Frame} (hs : s.route e w frame p key now = some (ev, s')) :
    ∃ out r l, s.routes.route e.routes s.limits (e.owner (.fragment key)) key (p.firstRoute.map e.owner) frame now =
      some (out, r, l) ∧ ev = .routed w frame out ∧ s' = { s.setTask w (State.accept w out) with
        routes := r, limits := l
        deliveries := s.deliveries ++ out.result.toList
        routed := s.routed ++ out.taken frame
        lost := s.lost ++ ((s.routes.shards (e.owner (.fragment key))).overdue now).flatMap Entry.frames ++
          out.lost frame } := by
  obtain ⟨⟨out, r, l⟩, hroute, hs⟩ := bind_eq_some_iff.1 hs
  cases hs
  exact ⟨out, r, l, hroute, rfl, rfl⟩

theorem forward_cases {accepted : Bool} (hs : s.forward w accepted = some (ev, s')) :
    ∃ d, (s.workers w).task = .forwarding d ∧ ((ev = .quiet ∧ s' = (s.setTask w .idle).send d.owner (.fragments d)) ∨
      ∃ l, ev = .dropped d ∧ s' = { s.setTask w .idle with limits := l, lost := s.lost ++ d.frames }) := by
  unfold State.forward at hs
  cases htask : (s.workers w).task with
  | forwarding d =>
    rw [htask] at hs
    simp only at hs
    refine ⟨d, rfl, ?_⟩
    split_ifs at hs
    · cases hs
      exact .inl ⟨rfl, rfl⟩
    · obtain ⟨l, -, hs⟩ := bind_eq_some_iff.1 hs
      cases hs
      exact .inr ⟨l, rfl, rfl⟩
  | _ =>
    rw [htask] at hs
    cases hs

/-! ## `Worker::fragments` -/

theorem take_cases (hs : s.take e w now = some (ev, s')) :
    (∃ d inbox, (s.workers w).inbox = .fragments d :: inbox ∧ d.owner = w ∧ ev = .quiet ∧
      s' = s.setWorker w ⟨(s.workers w).decoder, inbox, .fragments d⟩) ∨
    ∃ frame inbox, (s.workers w).inbox = .frame frame :: inbox ∧
      ((s.tick now).setWorker w { s.workers w with inbox }).decode e w frame now = some (ev, s') := by
  unfold State.take at hs
  cases hinbox : (s.workers w).inbox with
  | nil =>
    rw [hinbox] at hs
    cases hs
  | cons m inbox =>
    rw [hinbox] at hs
    cases m with
    | fragments d =>
      simp only at hs
      split_ifs at hs with howner
      cases hs
      exact .inl ⟨d, inbox, rfl, howner, rfl, rfl⟩
    | frame frame => exact .inr ⟨frame, inbox, rfl, hs⟩

theorem releasePending_cases (hs : s.releasePending w = some s') :
    ∃ d pending l, (s.workers w).task = .fragments d ∧ d.pending = some pending ∧ pending.frames = [] ∧
      s' = { s.setTask w (.fragments { d with pending := none }) with limits := l } := by
  unfold State.releasePending at hs
  cases htask : (s.workers w).task with
  | fragments d =>
    rw [htask] at hs
    simp only at hs
    cases hpending : d.pending with
    | none =>
      rw [hpending] at hs
      cases hs
    | some pending =>
      rw [hpending] at hs
      simp only at hs
      split_ifs at hs with hempty
      obtain ⟨l, -, hs⟩ := bind_eq_some_iff.1 hs
      cases hs
      exact ⟨d, pending, l, rfl, hpending, List.isEmpty_iff.1 hempty, rfl⟩
  | _ =>
    rw [htask] at hs
    cases hs

theorem next_binding {d d' : Delivery} {frame : Frame} {rest : Option Delivery}
    (h : State.next d = some (frame, rest)) (hd : d' ∈ rest) : d'.binding = d.binding := by
  unfold State.next at h
  split at h
  · cases h
    cases hd
  · split at h
    · cases h
    · cases h
      cases hd
      rfl

theorem fragment_cases (hs : s.fragment e w now = some (ev, s')) :
    ∃ d frame rest reply decoder l, (s.workers w).task = .fragments d ∧ State.next d = some (frame, rest) ∧
      (s.workers w).decoder.decodeFragment e.decoder s.limits frame.received.bytes now d.binding
        (s.routes.active d.binding.id) = some (reply, decoder, l) ∧ ev = .decoded w d.binding frame reply ∧
      s' = { (s.tick now).setWorker w ⟨decoder, (s.workers w).inbox,
        if decoder.retains d.binding then .resume rest else .finishing d.binding rest⟩ with
        limits := l, decoded := s.decoded ++ [(d.binding, frame)] } := by
  unfold State.fragment at hs
  cases htask : (s.workers w).task with
  | fragments d =>
    rw [htask] at hs
    obtain ⟨⟨frame, rest⟩, hnext, hs⟩ := bind_eq_some_iff.1 hs
    obtain ⟨⟨reply, decoder, l⟩, hdecode, hs⟩ := bind_eq_some_iff.1 hs
    cases hs
    exact ⟨d, frame, rest, reply, decoder, l, rfl, hnext, hdecode, rfl, rfl⟩
  | _ =>
    rw [htask] at hs
    cases hs

theorem finish_eq (hs : s.finish w = some (ev, s')) :
    ∃ b rest r l, (s.workers w).task = .finishing b rest ∧ s.routes.finish s.limits b = some (r, l) ∧
      ev = .finished w b ∧ s' = { s.setTask w (.resume rest) with routes := r, limits := l } := by
  unfold State.finish at hs
  cases htask : (s.workers w).task with
  | finishing b rest =>
    rw [htask] at hs
    obtain ⟨⟨r, l⟩, hfinish, hs⟩ := bind_eq_some_iff.1 hs
    cases hs
    exact ⟨b, rest, r, l, rfl, hfinish, rfl, rfl⟩
  | _ =>
    rw [htask] at hs
    cases hs

theorem abandon_cases (hs : s.abandon w = some (ev, s')) : ∃ d l, (s.workers w).task = .fragments d ∧ ev = .dropped d ∧
      s' = { s.setTask w .idle with limits := l, lost := s.lost ++ d.frames } := by
  unfold State.abandon at hs
  cases htask : (s.workers w).task with
  | fragments d =>
    rw [htask] at hs
    obtain ⟨l, -, hs⟩ := bind_eq_some_iff.1 hs
    cases hs
    exact ⟨d, l, rfl, rfl, rfl⟩
  | _ =>
    rw [htask] at hs
    cases hs

/-! ## Expiry and pressure -/

theorem expireRoutes_eq {shard now : Nat} (hs : s.expireRoutes shard now = some s') :
    ∃ r l, s.routes.expire s.limits shard now = some (r, l) ∧ s' = { s.tick now with
      routes := r, limits := l, lost := s.lost ++ ((s.routes.shards shard).overdue now).flatMap Entry.frames } := by
  obtain ⟨⟨r, l⟩, hexpire, hs⟩ := bind_eq_some_iff.1 hs
  cases hs
  exact ⟨r, l, hexpire, rfl⟩

theorem expireDecoder_eq (hs : s.expireDecoder e w now = some s') :
    ∃ decoder l, (s.workers w).decoder.expire e.decoder s.limits now = some (decoder, l) ∧
      s' = { (s.tick now).setWorker w { s.workers w with decoder } with limits := l } := by
  obtain ⟨⟨decoder, l⟩, hexpire, hs⟩ := bind_eq_some_iff.1 hs
  cases hs
  exact ⟨decoder, l, hexpire, rfl⟩

theorem discardPending_eq {shard : Nat} (hs : s.discardPending shard key = some s') :
    ∃ r l, s.routes.remove s.limits shard key = some (r, l) ∧ s' = { s with
      routes := r, limits := l
      lost := s.lost ++ ((s.routes.shards shard).entries.lookup key).elim [] Entry.frames } := by
  obtain ⟨⟨r, l⟩, hremove, hs⟩ := bind_eq_some_iff.1 hs
  cases hs
  exact ⟨r, l, hremove, rfl⟩

theorem discardOldest_cases (hs : s.discardOldest e w key = some s') :
    ∃ a task l, (s.workers w).decoder.fragments.lookup key = some a ∧ task = (match a.binding with
        | some binding => Task.finishing binding none
        | none => .idle) ∧
      s' = { s.setWorker w ⟨{ (s.workers w).decoder with
        fragments := (s.workers w).decoder.fragments.erase key }, (s.workers w).inbox, task⟩ with limits := l } := by
  obtain ⟨a, ha, hs⟩ := bind_eq_some_iff.1 hs
  obtain ⟨⟨_, l⟩, hremove, hs⟩ := bind_eq_some_iff.1 hs
  cases hs
  rcases Decoder.remove_cases hremove with ⟨-, hnone⟩ | rfl
  · cases hnone.symm.trans ha
  · exact ⟨a, _, l, ha, rfl, rfl⟩

end Kotoconn.Tun.Pipeline
