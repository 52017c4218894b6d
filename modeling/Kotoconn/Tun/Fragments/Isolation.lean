import Kotoconn.Tun.Fragments.Ledger
import Kotoconn.Tun.Fragments.Poison

/-! # Fragment routing isolates datagrams -/

namespace Kotoconn.Tun.Pipeline

open Lib List Option

variable {A : Type} {e : PipelineEnv A} {s s' : State A} {ev : Event A} {w : Nat} {b : Binding}

/-! ## Stale deliveries -/

/-- The step works on a delivery of the binding: it decodes a frame, finishes the binding or drops the delivery. -/
def Event.Serves (ev : Event A) (b : Binding) : Prop :=
  (∃ w frame reply, ev = .decoded w b frame reply) ∨ (∃ w, ev = .finished w b) ∨ ∃ d, ev = .dropped d ∧ d.binding = b

theorem Step.serves_cases (h : Inv e s) (hstep : Step e s ev s') (hserves : ev.Serves b) :
    (∃ w now, s.fragment e w now = some (ev, s')) ∨ (∃ w, s.finish w = some (ev, s')) ∨
    (∃ d, ev = .dropped d) ∧ Inert s s' := by
  cases hstep.action h with
  | inert hinert _ _ hpassive =>
    rcases hserves with ⟨_, _, _, rfl⟩ | ⟨_, rfl⟩ | ⟨d, rfl, -⟩
    · cases hpassive
    · cases hpassive
    · exact .inr (.inr ⟨⟨d, rfl⟩, hinert⟩)
  | fragment hs => exact .inl ⟨_, _, hs⟩
  | finish hs => exact .inr (.inl ⟨_, hs⟩)
  | _ => rcases hserves with ⟨_, _, _, hev⟩ | ⟨_, hev⟩ | ⟨_, hev, -⟩ <;> cases hev

/-- **A delivery whose entry is gone does nothing**: it yields no packet, and no entry and no assembly changes. -/
theorem Step.stale (h : Inv e s) (hgone : s.routes.active b.id = false) (hstep : Step e s ev s')
    (hserves : ev.Serves b) : Inert s s' ∧ ∀ w frame reply, ev = .decoded w b frame reply → reply = .inactive := by
  rcases hstep.serves_cases h hserves with ⟨w, now, hs⟩ | ⟨w, hs⟩ | ⟨⟨d, rfl⟩, hinert⟩
  · obtain ⟨d, frame, rest, reply, _, l, -, -, hdecode, rfl, rfl⟩ := fragment_cases hs
    obtain rfl : d.binding = b := by
      rcases hserves with ⟨_, _, _, heq⟩ | ⟨_, heq⟩ | ⟨_, heq, -⟩ <;> cases heq
      rfl
    rw [hgone] at hdecode
    simp only [Decoder.decodeFragment, Bool.false_eq_true, and_false, if_false, Option.some.injEq, Prod.mk.injEq]
      at hdecode
    obtain ⟨rfl, rfl, rfl⟩ := hdecode
    refine ⟨⟨rfl, decoder_update rfl rfl⟩, fun w frame reply heq => ?_⟩
    cases heq
    rfl
  · obtain ⟨b', _, _, _, -, hfinish, rfl, rfl⟩ := finish_eq hs
    obtain rfl : b' = b := by
      rcases hserves with ⟨_, _, _, heq⟩ | ⟨_, heq⟩ | ⟨_, heq, -⟩ <;> cases heq
      rfl
    exact ⟨⟨Routes.finish_inactive h.routes hgone hfinish, decoder_update rfl rfl⟩, fun w frame reply heq => nomatch heq⟩
  · exact ⟨hinert, fun w frame reply heq => nomatch heq⟩

/-- The steps that move a delivery from place to place change no entry and no assembly; what else is quiet is expiry and
the pressure handler. -/
theorem Step.quiet_cases (h : Inv e s) (hstep : Step e s .quiet s') :
    Inert s s' ∨ (∃ shard now, s.expireRoutes shard now = some s') ∨ (∃ w now, s.expireDecoder e w now = some s') ∨
    (∃ shard key, s.discardPending shard key = some s') ∨ ∃ w key, s.discardOldest e w key = some s' := by
  cases hstep.action h with
  | inert hinert => exact .inl hinert
  | fragment hs =>
    obtain ⟨d, _, rest, _, _, l, -, -, -, hev, -⟩ := fragment_cases hs
    cases hev
  | finish hs =>
    obtain ⟨_, _, _, l, -, -, hev, -⟩ := finish_eq hs
    cases hev
  | expireRoutes hs => exact .inr (.inl ⟨_, _, hs⟩)
  | expireDecoder hs => exact .inr (.inr (.inl ⟨_, _, hs⟩))
  | discardPending _ hs => exact .inr (.inr (.inr (.inl ⟨_, _, hs⟩)))
  | discardOldest _ _ hs => exact .inr (.inr (.inr (.inr ⟨_, _, hs⟩)))

/-! ## Removed entries -/

/-- The entry of `b` is removed: completed, expired, reclaimed or refused. -/
inductive Ends (e : PipelineEnv A) (s : State A) (b : Binding) : State A → Prop where
  | finished {w : Nat} {s' : State A} : s.finish w = some (.finished w b, s') → Ends e s b s'
  | expired {now : Nat} {s' : State A} : b.expires ≤ now → s.expireRoutes b.shard now = some s' → Ends e s b s'
  | reclaimed {owner : Option Nat} {s' : State A} : s.routes.Owned b owner →
      (s.routes.shards b.shard).OldestPending b.key → s.discardPending b.shard b.key = some s' → Ends e s b s'
  | refused {w now : Nat} {received : Received} {accepted : Bool} {frame : Frame} {x : Entry} {s' : State A} :
      x.binding = b → s.frame e w received accepted now = some (.routed w frame (.overflow x), s') → Ends e s b s'

theorem Ends.not_owned (h : Inv e s) (hb : s.routes.Known b) (hends : Ends e s b s') (owner : Option Nat) :
    ¬ s'.routes.Owned b owner := by
  cases hends with
  | finished hs =>
    obtain ⟨_, _, _, _, -, hfinish, hev, rfl⟩ := finish_eq hs
    cases hev
    exact (Routes.finish_spec h.routes hfinish).inv.not_owned (Routes.finish_removes h.routes hb hfinish) owner
  | expired hdue hs =>
    obtain ⟨_, _, hexpire, rfl⟩ := expireRoutes_eq hs
    exact (Routes.expire_spec h.routes hexpire).inv.not_owned (Routes.expire_removes h.routes hb hdue hexpire) owner
  | reclaimed howned hold hs =>
    obtain ⟨_, _, hremove, rfl⟩ := discardPending_eq hs
    exact (Routes.discard_spec h.routes hold hremove).inv.not_owned (Routes.remove_removes howned hremove) owner
  | refused hx hs =>
    obtain ⟨_, rfl, hcases⟩ := frame_cases hs
    rcases hcases with ⟨hev, -⟩ | ⟨p, key, -, -, hroute⟩ | ⟨p, key, -, -, -, ⟨hev, -⟩ | ⟨hev, -⟩⟩
    · cases hev
    · obtain ⟨_, _, _, hcall, hev, rfl⟩ := route_eq hroute
      cases hev
      refine (Routes.route_spec h.routes rfl h.firstOwner_lt hcall).1.inv.not_owned ?_ owner
      exact hx ▸ ((Routes.route_removed h.routes rfl h.firstOwner_lt hcall).2 _ rfl).gone
    · cases hev
    · cases hev

/-- The worker `w` still has to finish the binding `b`, or its entry is gone. -/
def Closing (s : State A) (w : Nat) (b : Binding) : Prop :=
  (∃ rest, (s.workers w).task = .finishing b rest) ∨ ∀ owner, ¬ s.routes.Owned b owner

/-! ## The result -/

def State.RoutedCopy (e : PipelineEnv A) (s : State A) (b : Binding) (c : Copied) : Prop :=
  ∃ frame p fragment now, (b, frame) ∈ s.routed ∧ (parse e.wire frame.received.bytes).result = .ok p ∧
    p.fragment = some fragment ∧ c = Decoder.bound b p fragment now

theorem Ledger.routedCopy (h : Ledger e s) {c : Copied} (hc : s.Copies e b c) : s.RoutedCopy e b c := by
  obtain ⟨frame, p, fragment, now, hmem, hrest⟩ := hc
  exact ⟨frame, p, fragment, now, h.routed_of_decoded hmem, hrest⟩

structure Isolated (e : PipelineEnv A) (s : State A) : Prop where
  owners : ∀ d ∈ s.deliveries, ∀ d' ∈ s.deliveries, d.binding = d'.binding → d.owner = d'.owner
  alone : ∀ {i key x}, (s.routes.shards i).entries.lookup key = some x → x.owner.isSome = true → x.pending = none
  ledger : Ledger e s
  once : ((s.inFlight e + (s.decoded : Frames) + (s.lost : Frames)).map fun x => x.2.serial).Nodup
  assembly : ∀ {w key a}, (s.workers w).decoder.fragments.lookup key = some a →
    ∃ b, a.binding = some b ∧ ∀ c ∈ a.copied, s.RoutedCopy e b c
  packet : ∀ {w b frame key ip a s'}, Step e s (.decoded w b frame (.fragment key ip (.complete a))) s' →
    a.binding = some b ∧ ∀ c ∈ a.copied, s'.RoutedCopy e b c
  queueing : ∀ {s'}, Step e s .quiet s' →
    Inert s s' ∨ (∃ shard now, s.expireRoutes shard now = some s') ∨ (∃ w now, s.expireDecoder e w now = some s') ∨
    (∃ shard key, s.discardPending shard key = some s') ∨ ∃ w key, s.discardOldest e w key = some s'

theorem Step.complete_bound (h : Inv e s) {frame : Frame} {key : FragmentKey} {ip : IpRepr} {a : Assembly A}
    (hstep : Step e s (.decoded w b frame (.fragment key ip (.complete a))) s') :
    s.routes.Known b ∧ Closing s' w b ∧ a.binding = some b ∧ ∀ c ∈ a.copied, s'.Copies e b c := by
  obtain ⟨now, hs⟩ := hstep.decoded_cases h
  obtain ⟨d, frame, rest, _, decoder, _, htask, -, hdecode, hev, rfl⟩ := fragment_cases hs
  cases hev
  have hlogged : s.Logged d.binding w := (h.worker w).hand (htask ▸ mem_singleton_self d)
  rcases Decoder.decodeFragment_spec hdecode with ⟨hreply, rfl⟩ | ⟨-, -, p, fragment, o, base, hparse, hfrag, heq, hm⟩
  · rcases hreply with hreply | hreply <;> cases hreply
  · cases heq
    obtain ⟨⟨hgrown, hnone⟩, -⟩ := hm.complete a rfl
    have hretains : decoder.retains d.binding = false := by simp [Decoder.retains, hnone]
    obtain ⟨hbinding, -, hcopied⟩ := (h.worker w).base (fun hb => (h.logged hb).1) hlogged hm
    refine ⟨(h.logged hlogged).1, .inl ⟨rest, by simp [State.setWorker, hretains]⟩, hgrown.binding.trans hbinding,
      fun c hc => ?_⟩
    rcases hgrown.copied c hc with hc | rfl
    · obtain ⟨frame, p, fragment, now, hmem, hrest⟩ := hcopied c hc
      exact ⟨frame, p, fragment, now, mem_append_left _ hmem, hrest⟩
    · exact ⟨frame, p, fragment, now, mem_append_right _ (mem_singleton_self _), hparse, hfrag, rfl⟩

theorem Inv.inactive_of_not_owned (h : Inv e s) (hb : s.routes.Known b) (hgone : ∀ owner, ¬ s.routes.Owned b owner) :
    s.routes.active b.id = false :=
  Bool.eq_false_iff.2 fun hactive => (h.routes.live hb hactive).elim hgone

theorem Step.closing (h : Inv e s) (hb : s.routes.Known b) (hc : Closing s w b) (hstep : Step e s ev s') :
    Closing s' w b := by
  rcases hc with ⟨rest, htask⟩ | hgone
  · rcases hstep.finishing h htask with hsame | hs
    · exact .inl ⟨rest, hsame⟩
    · obtain ⟨_, _, _, _, htask', -, rfl, -⟩ := finish_eq hs
      cases htask.symm.trans htask'
      exact .inr ((Ends.finished hs).not_owned h hb)
  · refine .inr ((hstep.inv h).routes.not_owned (Bool.eq_false_iff.2 fun hactive => ?_))
    have hinactive := h.inactive_of_not_owned hb hgone
    exact Bool.eq_false_iff.1 hinactive ((hstep.evolves h).active hb hactive)

theorem Run.closing (h : Inv e s) (hb : s.routes.Known b) (hc : Closing s w b) {evs : List (Event A)}
    (hrun : Run e s evs s') : Closing s' w b := by
  induction hrun with
  | refl => exact hc
  | step hrun hstep ih => exact hstep.closing (hrun.inv h) ((hrun.evolves h).known hb) ih

/-- While a worker has to finish `b`, no delivery of it is decoded, and afterwards each is inactive. -/
theorem Closing.inactive (h : Inv e s) (hb : s.routes.Known b) (hc : Closing s w b) {v : Nat} {frame : Frame}
    {reply : Reply A} (hstep : Step e s (.decoded v b frame reply) s') : reply = .inactive ∧ Inert s s' := by
  rcases hc with ⟨rest, htask⟩ | hgone
  · obtain ⟨now, hs⟩ := hstep.decoded_cases h
    obtain ⟨d, _, _, _, _, _, hd, -, -, hev, -⟩ := fragment_cases hs
    cases hev
    obtain rfl := h.agree ((h.worker w).finishing htask).1 ((h.worker v).hand (hd ▸ mem_singleton_self d))
    cases htask.symm.trans hd
  · have hinactive := h.inactive_of_not_owned hb hgone
    obtain ⟨hinert, hreply⟩ := hstep.stale h hinactive (.inl ⟨_, _, _, rfl⟩)
    exact ⟨hreply _ _ _ rfl, hinert⟩

theorem Reachable.isolated (hs : Reachable e s) : Isolated e s where
  owners d hd d' hd' heq := hs.inv.agree ⟨d, hd, heq, rfl⟩ ⟨d', hd', rfl, rfl⟩
  alone hx howner := hs.inv.routes.alone hx howner
  ledger := hs.ledger
  once := hs.ledger.nodup
  assembly ha := by
    obtain ⟨b, hb⟩ := (hs.inv.worker _).bound ha
    exact ⟨b, hb.binding, fun c hc => hs.ledger.routedCopy (hb.copied c hc)⟩
  packet hstep := by
    obtain ⟨_, _, _, hm⟩ := hstep.moves hs.inv
    obtain ⟨-, -, hbinding, hcopied⟩ := hstep.complete_bound hs.inv
    exact ⟨hbinding, fun c hc => (hm.ledger hs.ledger).routedCopy (hcopied c hc)⟩
  queueing hstep := hstep.quiet_cases hs.inv

/-- **Fragment routing isolates datagrams.** In every state of every run: `Isolated` holds; a step loses a frame only
with a delivery that is dropped or an entry that is removed; the entry of a binding is gone once it is completed,
expired, reclaimed or refused, and a worker that yields a packet finishes the binding before anything else; and once the
entry is gone, a delivery of the binding yields no packet and changes no entry and no assembly, whatever happens in
between. -/
theorem fragment_isolation (hs : Reachable e s) : Isolated e s ∧
    (∀ ev s', Step e s ev s' → ∃ gone, s'.lost = s.lost ++ gone ∧ ∀ x ∈ gone,
      (∃ d, ev = .dropped d ∧ x ∈ d.frames) ∨ Routes.Removed s.routes s'.routes x.1) ∧
    (∀ b s', s.routes.Known b → Ends e s b s' → ∀ owner, ¬ s'.routes.Owned b owner) ∧
    (∀ {w b frame key ip a s0}, Step e s (.decoded w b frame (.fragment key ip (.complete a))) s0 →
      ∀ {evs s1}, Run e s0 evs s1 → Closing s1 w b ∧
        ∀ {v frame reply s2}, Step e s1 (.decoded v b frame reply) s2 → reply = .inactive ∧ Inert s1 s2) ∧
    ∀ b, s.routes.Known b → (∀ owner, ¬ s.routes.Owned b owner) →
      ∀ evs s1 ev s2, Run e s evs s1 → Step e s1 ev s2 → ev.Serves b →
        Inert s1 s2 ∧ ∀ w frame reply, ev = .decoded w b frame reply → reply = .inactive := by
  refine ⟨hs.isolated, fun ev s' hstep => ?_, fun b s' hb hends => hends.not_owned hs.inv hb, fun hstep _ _ hrun => ?_,
    fun b hb hgone evs s1 ev s2 hrun hstep hserves => ?_⟩
  · obtain ⟨_, _, gone, hm⟩ := hstep.moves hs.inv
    exact ⟨gone, hm.lost, hm.cause⟩
  · have h0 := hstep.inv hs.inv
    obtain ⟨hknown, hclosing, -⟩ := hstep.complete_bound hs.inv
    have hknown0 := (hstep.evolves hs.inv).known hknown
    have hclosing1 := hrun.closing h0 hknown0 hclosing
    exact ⟨hclosing1, fun hlater => hclosing1.inactive (hrun.inv h0) ((hrun.evolves h0).known hknown0) hlater⟩
  · refine hstep.stale (hrun.inv hs.inv) (Bool.eq_false_iff.2 fun hactive => ?_) hserves
    have hinactive := hs.inv.inactive_of_not_owned hb hgone
    exact Bool.eq_false_iff.1 hinactive ((hrun.evolves hs.inv).active hb hactive)

def ipv6Last : Received := { ipv6First with bytes := ipv6First.bytes.set 43 16 }

/-- A worker holds a delivery whose entry expires, and another worker reads a fragment with the same key: the old
delivery is refused and the new entry stands. A datagram that is completed leaves no entry. -/
theorem fragment_isolation_reused_key : (∃ (s0 s1 s s' : State Ranges) (b : Binding) (evs : List (Event Ranges))
      (frame : Frame), Reachable octetsPipeline s0 ∧ s0.routes.Owned b (some 1) ∧ Ends octetsPipeline s0 b s1 ∧
      (∀ owner, ¬ s1.routes.Owned b owner) ∧ Run octetsPipeline s1 evs s ∧ Isolated octetsPipeline s ∧
      (∃ x, (s.routes.shards b.shard).entries.lookup b.key = some x ∧ x.owner = some 1) ∧
      Step octetsPipeline s (.decoded 1 b frame .inactive) s' ∧ Inert s s') ∧
    ∃ (s s0 s1 : State Ranges) (b : Binding) (frame : Frame) (ip : IpRepr) (a : Assembly Ranges),
      Reachable octetsPipeline s ∧ s.routes.Owned b (some 1) ∧
      Step octetsPipeline s (.decoded 1 b frame (.fragment b.key ip (.complete a))) s0 ∧ Closing s0 1 b ∧
      Ends octetsPipeline s0 b s1 ∧ ∀ owner, ¬ s1.routes.Owned b owner := by
  have hw : 1 < octetsPipeline.workers := by decide
  constructor
  · have hsteps : ∃ ev1 s1, (State.new octetsPipeline 0).frame octetsPipeline 1 ipv6First true 1 = some (ev1, s1) ∧
        ∃ s2, s1.expireRoutes 0 (1 + reassemblyLifetime) = some s2 ∧ (s2.workers 0).task = .idle ∧
        ∃ ev3 s3, s2.frame octetsPipeline 0 ipv6First true (1 + reassemblyLifetime) = some (ev3, s3) ∧
        ∃ b frame s4, s3.fragment octetsPipeline 1 (2 + reassemblyLifetime) = some (.decoded 1 b frame .inactive, s4) ∧
        s1.routes.Owned b (some 1) ∧ s1.routes.Known b ∧ b.expires ≤ 1 + reassemblyLifetime ∧ b.shard = 0 ∧
        s2.routes.Known b ∧ ∃ x, (s3.routes.shards b.shard).entries.lookup b.key = some x ∧ x.owner = some 1 :=
      ⟨_, _, rfl, _, rfl, rfl, _, _, rfl, _, _, _, rfl, ⟨_, rfl, rfl, rfl⟩, rfl, by decide, rfl, rfl, _, rfl, rfl⟩
    obtain ⟨_, s1, h1, s2, h2, hidle, _, s3, h3, b, frame, s4, h4, howned, hknown, hdue, hshard, hknown2, hreused⟩ :=
      hsteps
    have hreached : Reachable octetsPipeline s1 := ⟨0, _, Run.refl.step (.frame hw rfl h1)⟩
    have hreached2 : Reachable octetsPipeline s2 := ⟨0, _, (Run.refl.step (.frame hw rfl h1)).step (.expireRoutes h2)⟩
    have hends : Ends octetsPipeline s1 b s2 := .expired hdue (hshard ▸ h2)
    have hgone := (fragment_isolation hreached).2.2.1 b s2 hknown hends
    have hrun : Run octetsPipeline s2 _ s3 := Run.refl.step (.frame (by decide) hidle h3)
    have hreached3 : Reachable octetsPipeline s3 :=
      ⟨0, _, ((Run.refl.step (.frame hw rfl h1)).step (.expireRoutes h2)).step (.frame (by decide) hidle h3)⟩
    have hstep : Step octetsPipeline s3 (.decoded 1 b frame .inactive) s4 := .fragment hw h4
    have hinert := (fragment_isolation hreached2).2.2.2.2 b hknown2 hgone _ s3 _ s4 hrun hstep (.inl ⟨_, _, _, rfl⟩)
    exact ⟨s1, s2, s3, s4, b, _, frame, hreached, howned, hends, hgone, hrun, (fragment_isolation hreached3).1, hreused,
      hstep, hinert.1⟩
  · have hsteps : ∃ ev1 s1, (State.new octetsPipeline 0).frame octetsPipeline 1 ipv6First true 1 = some (ev1, s1) ∧
        ∃ ev2 s2, s1.fragment octetsPipeline 1 2 = some (ev2, s2) ∧ (s2.workers 1).task = .idle ∧
        ∃ ev3 s3, s2.frame octetsPipeline 1 ipv6Last true 3 = some (ev3, s3) ∧
        ∃ b frame ip a s4, s3.fragment octetsPipeline 1 4 =
          some (.decoded 1 b frame (.fragment b.key ip (.complete a)), s4) ∧ s3.routes.Owned b (some 1) ∧
        s4.routes.Known b ∧
        ∃ s5, s4.finish 1 = some (.finished 1 b, s5) :=
      ⟨_, _, rfl, _, _, rfl, rfl, _, _, rfl, _, _, _, _, _, rfl, ⟨_, rfl, rfl, rfl⟩, rfl, _, rfl⟩
    obtain ⟨_, _, h1, _, _, h2, hidle, _, s3, h3, b, frame, ip, a, s4, h4, howned, hknown, s5, h5⟩ := hsteps
    have hrun := ((Run.refl.step (.frame hw rfl h1)).step (.fragment hw h2)).step (.frame hw hidle h3)
    have hstep := Step.fragment hw h4
    have hends : Ends octetsPipeline s4 b s5 := .finished h5
    exact ⟨s3, s4, s5, b, frame, ip, a, ⟨0, _, hrun⟩, howned, hstep,
      ((fragment_isolation ⟨0, _, hrun⟩).2.2.2.1 hstep .refl).1, hends,
      (fragment_isolation ⟨0, _, hrun.step hstep⟩).2.2.1 b s5 hknown hends⟩

end Kotoconn.Tun.Pipeline
