import Kotoconn.Tun.Fragments.Actions
import Kotoconn.Tun.Packet.Octets

/-! # Poisoned datagrams stay poisoned -/

namespace Kotoconn.Tun.Pipeline

open Lib List Option Function

variable {A : Type} {e : PipelineEnv A} {s s' : State A} {ev : Event A} {w v : Nat} {key : FragmentKey}
  {a : Assembly A}

def Event.reply : Event A → Option (Reply A)
  | decoded _ _ _ reply => some reply
  | plain _ _ reply => some reply
  | _ => none

def Event.Reassembles (ev : Event A) (key : FragmentKey) : Prop :=
  ∃ ip a, ev.reply = some (.fragment key ip (.complete a))

theorem Event.not_reassembles (h : ev.reply = none) (key : FragmentKey) : ¬ ev.Reassembles key := by
  rintro ⟨_, _, hreply⟩
  cases h.symm.trans hreply

variable {frame : Frame}

theorem Event.passive_not_reassembles (h : ev.passive = true) (key : FragmentKey) : ¬ ev.Reassembles key := by
  rintro ⟨_, _, hreply⟩
  cases ev <;> cases hreply <;> cases h

theorem lookup_update {k : Worker A} (hs : s'.workers = update s.workers v k)
    (ha : (s.workers w).decoder.fragments.lookup key = some a) (hk : w = v → k.decoder.fragments.lookup key = some a) :
    (s'.workers w).decoder.fragments.lookup key = some a := by
  rw [hs, update_apply]
  split_ifs with hv
  · exact hk hv
  · exact ha

variable (h : Inv e s)
include h

def Stands (e : PipelineEnv A) (s : State A) (key : FragmentKey) (b : Binding) (w : Nat) : Prop :=
  ∃ x, (s.routes.shards (e.shardOf key)).entries.lookup key = some x ∧ x.binding = b ∧ x.owner = some w

theorem Inv.stands (ha : (s.workers w).decoder.fragments.lookup key = some a)
    (hbefore : s.clock < a.expires) : ∃ b, Bound e s w key a b ∧ Stands e s key b w := by
  obtain ⟨b, hb⟩ := (h.worker w).bound ha
  obtain ⟨hknown, -, howned⟩ := h.logged hb.logged
  obtain ⟨x, hx, hrest⟩ := howned (hb.active (hb.expires ▸ hbefore))
  refine ⟨b, hb, x, ?_, hrest⟩
  rw [← hb.key, ← (h.routes.shard hknown).1]
  exact hx

theorem Inv.active_unique {b c : Binding} (hb : s.Logged b v) (hactive : s.routes.active b.id = true)
    (hkey : b.key = key) (hc : Stands e s key c w) : b = c ∧ v = w := by
  obtain ⟨hknown, -, howned⟩ := h.logged hb
  obtain ⟨_, hx, rfl, howner⟩ := howned hactive
  obtain ⟨_, hy, rfl, howner'⟩ := hc
  rw [(h.routes.shard hknown).1, hkey] at hx
  obtain rfl := some.inj (hx.symm.trans hy)
  exact ⟨rfl, some.inj (howner.symm.trans howner')⟩

theorem Step.poisoned (ha : (s.workers w).decoder.fragments.lookup key = some a)
    (hp : a.poisoned = true) (hstep : Step e s ev s') (hbefore : s'.clock < a.expires) :
    (s'.workers w).decoder.fragments.lookup key = some a ∧ ¬ ev.Reassembles key := by
  -- only `decode_fragment`, expiry and the pressure handler touch a decoder
  have hkept : (∀ v, (s'.workers v).decoder = (s.workers v).decoder) → ¬ ev.Reassembles key →
      (s'.workers w).decoder.fragments.lookup key = some a ∧ ¬ ev.Reassembles key := fun hsame hnone =>
    ⟨by rw [hsame]; exact ha, hnone⟩
  cases hstep.action h with
  | inert hinert _ _ hpassive => exact hkept hinert.2 (Event.passive_not_reassembles hpassive key)
  | routed _ hdecoders => exact hkept hdecoders (Event.not_reassembles rfl key)
  | finish hs =>
    obtain ⟨_, _, r, l, -, -, rfl, rfl⟩ := finish_eq hs
    exact hkept (decoder_update rfl rfl) (Event.not_reassembles rfl key)
  | expireRoutes hs =>
    obtain ⟨r, l, -, rfl⟩ := expireRoutes_eq hs
    exact hkept (fun v => rfl) (Event.not_reassembles rfl key)
  | discardPending _ hs =>
    obtain ⟨_, _, -, rfl⟩ := discardPending_eq hs
    exact hkept (fun v => rfl) (Event.not_reassembles rfl key)
  | @fragment v now _ _ hs =>
    obtain ⟨d, _, _, _, decoder, l, htask, -, hdecode, rfl, rfl⟩ := fragment_cases hs
    have hclock : s.clock < a.expires := lt_of_le_of_lt (s.tick_le now) hbefore
    have hnow : now < a.expires := lt_of_le_of_lt (le_max_right _ _) hbefore
    obtain ⟨b, hb, hstands⟩ := h.stands ha hclock
    have hlogged : s.Logged d.binding v := (h.worker v).hand (htask ▸ mem_singleton_self d)
    rcases Decoder.decodeFragment_spec hdecode with ⟨hreply, rfl⟩ |
      ⟨-, hactive, p, fragment, o, base, -, -, rfl, hm⟩
    · refine ⟨lookup_update rfl ha fun hv => hv ▸ ha, ?_⟩
      rintro ⟨ip, x, hx⟩
      cases some.inj hx
      rcases hreply with hreply | hreply <;> cases hreply
    · -- an active binding for this key is the poisoned one, and its worker is the same
      have hsame : d.binding.key = key → d.binding = b ∧ v = w := fun hkey =>
        h.active_unique hlogged hactive hkey hstands
      refine ⟨lookup_update rfl ha fun hv => ?_, ?_⟩
      · subst hv
        refine hm.kept key a ha hnow ?_
        by_cases hkey : key = d.binding.key
        · exact .inr ⟨⟨b, hb.binding, by rw [(hsame hkey.symm).1]⟩, hp⟩
        · exact .inl hkey
      · rintro ⟨_, x, hx⟩
        cases some.inj hx
        obtain ⟨rfl, rfl⟩ := hsame rfl
        have := (hm.complete x rfl).2 a ha ⟨_, hb.binding, rfl⟩ hnow
        rw [hp] at this
        cases this
  | expireDecoder hs =>
    obtain ⟨_, l, hexpire, rfl⟩ := expireDecoder_eq hs
    refine ⟨lookup_update rfl ha fun hv => ?_, Event.not_reassembles rfl key⟩
    subst hv
    exact (Decoder.expire_keeps hexpire).2 key a ha (lt_of_le_of_lt (le_max_right _ _) hbefore)
  | discardOldest _ hold hs =>
    obtain ⟨_, _, _, _, -, rfl⟩ := discardOldest_cases hs
    refine ⟨lookup_update rfl ha fun hv => ?_, Event.not_reassembles rfl key⟩
    subst hv
    refine Table.lookup_erase_iff.2 ⟨?_, ha⟩
    rintro rfl
    obtain ⟨_, hy, halive, -⟩ := hold
    rw [some.inj (ha.symm.trans hy), halive] at hp
    cases hp

variable {evs : List (Event A)}

/-- **A poisoned assembly stays until it expires**, and nothing is reassembled under its key. -/
theorem Run.poisoned (ha : (s.workers w).decoder.fragments.lookup key = some a)
    (hp : a.poisoned = true) (hrun : Run e s evs s') (hbefore : s'.clock < a.expires) :
    (s'.workers w).decoder.fragments.lookup key = some a ∧ ∀ ev ∈ evs, ¬ ev.Reassembles key := by
  induction hrun with
  | refl => exact ⟨ha, fun ev hev => nomatch hev⟩
  | step hrun hstep ih =>
    obtain ⟨ha', hevs⟩ := ih (lt_of_le_of_lt (hstep.clock_le (hrun.inv h)) hbefore)
    obtain ⟨ha'', hev⟩ := hstep.poisoned (hrun.inv h) ha' hp hbefore
    exact ⟨ha'', forall_mem_append.2 ⟨hevs, forall_mem_singleton.2 hev⟩⟩

/-! ## Packets that are not fragments -/

/-- A packet that is not a fragment is decoded by its owner whenever the owner reads or takes it; another worker's read
appends it to the queue of the owner, unless that queue is full. -/
structure WholeDelivered (e : PipelineEnv A) (s : State A) : Prop where
  read : ∀ {v received p protocol flow}, (parse e.wire received.bytes).result = .ok p → p.fragment = none →
    p.route = some (.flow protocol flow) → ∀ now,
    if e.owner (.flow protocol flow) = v then ∀ accepted, ∃ s',
      s.frame e v received accepted now = some (.plain v ⟨received, s.reads⟩ (wholeReply p), s')
    else ∃ s', s.frame e v received true now = some (.quiet, s') ∧
      (s'.workers (e.owner (.flow protocol flow))).inbox =
        (s.workers (e.owner (.flow protocol flow))).inbox ++ [.frame ⟨received, s.reads⟩]
  queued : ∀ {v frame inbox}, (s.workers v).inbox = .frame frame :: inbox →
    ∃ p, (parse e.wire frame.received.bytes).result = .ok p ∧ p.fragment = none ∧
      ∀ now, ∃ s', s.take e v now = some (.plain v frame (wholeReply p), s')

theorem Inv.wholeDelivered : WholeDelivered e s where
  read := by
    intro v received p protocol flow hparse hp hroute now
    split_ifs with howner
    · intro accepted
      simp only [State.frame, hparse, hroute, if_pos howner]
      exact ⟨_, decode_whole hparse hp⟩
    · refine ⟨State.send { s.tick now with reads := s.reads + 1 } (e.owner (.flow protocol flow))
        (.frame ⟨received, s.reads⟩), ?_, ?_⟩
      · simp only [State.frame, hparse, hroute, if_neg howner, if_true]
      · simp [State.send, State.setWorker, State.tick]
  queued := by
    intro v frame inbox hinbox
    have hmem : Forwarded.frame frame ∈ (s.workers v).inbox := hinbox ▸ mem_cons_self
    obtain ⟨p, hparse, hp⟩ := (h.worker v).raw hmem
    refine ⟨p, hparse, hp, fun now => ?_⟩
    unfold State.take
    rw [hinbox]
    exact ⟨_, decode_whole hparse hp⟩

/-! ## What poisons a datagram -/

omit h

/-- The IPv6 fragment `c` does not fit the assembly `a`. -/
inductive Clashes {L : Type} (e : DecoderEnv L A) (a : Assembly A) (c : Copied) : Prop where
  | overlap {r : Nat × Nat} : r ∈ e.assembler.iterData a.ranges → r.1 < c.offset + c.data.length → c.offset < r.2 →
      Clashes e a c
  | beyond {total : Nat} : a.total = some total → total < c.offset + c.data.length → Clashes e a c
  | ending {total : Nat} : a.total = some total → c.more = false → c.offset + c.data.length ≠ total → Clashes e a c
  | short : c.more = false → c.offset + c.data.length < a.data.length → Clashes e a c
  | length : c.more = true → c.data.length % 8 ≠ 0 → Clashes e a c
  | empty : c.data = [] → Clashes e a c
  | long : 65535 - c.prefixLen < c.offset + c.data.length → Clashes e a c
  | header : c.offset = 0 → completeTransportHeader e c.protocol c.data = false → Clashes e a c
  | protocol : c.protocol ≠ a.protocol → Clashes e a c
  | prefixLen : c.prefixLen ≠ a.prefixLen → Clashes e a c

theorem Clashes.conflicts {L : Type} {e : DecoderEnv L A} {c : Copied} (h : Clashes e a c)
    (hkey : c.key.ipv4Protocol = none) : (a.raisePrefix c).conflicts e c = true := by
  have hraise : a.raisePrefix c = a := by simp [Assembly.raisePrefix, hkey]
  rw [hraise]
  cases h with
  | overlap hr hbefore hafter =>
    have hoverlap : (e.assembler.iterData a.ranges).any
        (fun r => r.1 < c.offset + c.data.length && r.2 > c.offset) = true :=
      any_eq_true.2 ⟨_, hr, by simp [hbefore, hafter]⟩
    simp [Assembly.conflicts, hkey, hoverlap]
  | beyond htotal hstop => simp [Assembly.conflicts, hkey, htotal, hstop]
  | ending htotal hmore hstop => simp [Assembly.conflicts, hkey, htotal, hmore, hstop]
  | short hmore hstop => simp [Assembly.conflicts, hkey, hmore, hstop]
  | length hmore hlength => simp [Assembly.conflicts, hkey, hmore, hlength]
  | empty hempty => simp [Assembly.conflicts, hempty]
  | long hstop => simp [Assembly.conflicts, hkey, hstop]
  | header hoffset hheader => simp [Assembly.conflicts, hkey, hoffset, hheader]
  | protocol hprotocol => simp [Assembly.conflicts, hprotocol]
  | prefixLen hlen => simp [Assembly.conflicts, hkey, hlen]

/-- The next frame of the worker's task is an IPv6 fragment that does not fit the assembly of its binding. -/
structure Offends (e : PipelineEnv A) (s : State A) (w now : Nat) (d : Delivery) (frame : Frame) (p : Parsed) :
    Prop where
  task : (s.workers w).task = .fragments d
  next : ∃ rest, State.next d = some (frame, rest)
  live : now < d.binding.expires
  active : s.routes.active d.binding.id = true
  parsed : (parse e.wire frame.received.bytes).result = .ok p
  ipv6 : d.binding.key.ipv4Protocol = none
  clashes : ∃ fragment a, p.fragment = some fragment ∧
    (s.workers w).decoder.Current e.decoder d.binding (Decoder.bound d.binding p fragment now) a ∧
    Clashes e.decoder a (Decoder.bound d.binding p fragment now)

def Poisoned (s : State A) (w : Nat) (b : Binding) (a : Assembly A) : Prop :=
  (s.workers w).decoder.fragments.lookup b.key = some a ∧ a.poisoned = true ∧ a.binding = some b ∧ a.expires = b.expires

/-! ## The result -/

include h

theorem fragment_poisons {b : Binding} {ip : IpRepr} {now : Nat}
    (hs : s.fragment e v now = some (.decoded w b frame (.fragment key ip .poisons), s')) :
    ∃ a, Poisoned s' w b a := by
  obtain ⟨d, _, _, _, _, _, htask, -, hdecode, hev, rfl⟩ := fragment_cases hs
  cases hev
  have hlogged : s.Logged d.binding w := (h.worker w).hand (htask ▸ mem_singleton_self d)
  rcases Decoder.decodeFragment_spec hdecode with ⟨hreply, rfl⟩ | ⟨-, -, p, fragment, o, base, -, -, heq, hm⟩
  · rcases hreply with hreply | hreply <;> cases hreply
  · cases heq
    obtain ⟨a, ha, hp, hgrown⟩ := hm.poisons rfl
    obtain ⟨hbinding, hexpires, -⟩ := (h.worker w).base (fun hb => (h.logged hb).1) hlogged hm
    refine ⟨a, ?_, hp, hgrown.binding.trans hbinding, hgrown.expires.trans hexpires⟩
    simpa [State.setWorker] using ha

theorem Offends.poisons {now : Nat} {d : Delivery} {p : Parsed} (ho : Offends e s w now d frame p)
    (hs : s.fragment e w now = some (ev, s')) :
    (ev = .decoded w d.binding frame (.fragment d.binding.key p.ip .poisons) ∧ ∃ a, Poisoned s' w d.binding a) ∨
    ev = .decoded w d.binding frame (.fragment d.binding.key p.ip .refused) ∧
      ∀ a, (s.workers w).decoder.fragments.lookup d.binding.key = some a → ¬ a.Of d.binding := by
  obtain ⟨rest, hnext⟩ := ho.next
  obtain ⟨fragment, a, hfragment, hcurrent, hclash⟩ := ho.clashes
  obtain ⟨d', _, _, reply, _, _, htask, hnext', hdecode, rfl, rfl⟩ := fragment_cases hs
  cases ho.task.symm.trans htask
  cases hnext.symm.trans hnext'
  rw [ho.active] at hdecode
  rcases Decoder.decodeFragment_poisons hdecode ho.live ho.parsed hfragment hcurrent (hclash.conflicts ho.ipv6) with
    rfl | ⟨rfl, hnone⟩
  · exact .inl ⟨rfl, fragment_poisons h hs⟩
  · exact .inr ⟨rfl, hnone⟩

omit h

/-- **Poisoning cannot be bypassed.** An IPv6 fragment that does not fit its assembly poisons it, unless it would be the
first of a new assembly for which there is no budget. From a state with a poisoned assembly on, in any run and before the
assembly expires: it stays as it is, the entry of its key keeps its binding and owner, no worker yields a reassembled
packet with this key, and packets that are not fragments pass. -/
theorem poison_holds (hs : Reachable e s) :
    (∀ {w now d frame p ev s'}, Offends e s w now d frame p → s.fragment e w now = some (ev, s') →
      (ev = .decoded w d.binding frame (.fragment d.binding.key p.ip .poisons) ∧ ∃ a, Poisoned s' w d.binding a) ∨
      ev = .decoded w d.binding frame (.fragment d.binding.key p.ip .refused) ∧
        ∀ a, (s.workers w).decoder.fragments.lookup d.binding.key = some a → ¬ a.Of d.binding) ∧
    ∀ {w key a evs s'}, (s.workers w).decoder.fragments.lookup key = some a → a.poisoned = true → Run e s evs s' →
      s'.clock < a.expires →
      (∃ b, b.key = key ∧ Poisoned s w b a ∧ Poisoned s' w b a ∧ Stands e s key b w ∧ Stands e s' key b w) ∧
      (∀ ev ∈ evs, ¬ ev.Reassembles key) ∧ WholeDelivered e s' := by
  have h := hs.inv
  refine ⟨fun ho hcall => ho.poisons h hcall, fun {w key a evs s'} ha hp hrun hbefore => ?_⟩
  obtain ⟨ha', hevs⟩ := hrun.poisoned h ha hp hbefore
  obtain ⟨b, hb, hstands⟩ := h.stands ha (lt_of_le_of_lt (hrun.clock_le h) hbefore)
  obtain ⟨b', hb', hstands'⟩ := (hrun.inv h).stands ha' hbefore
  obtain rfl := some.inj (hb.binding.symm.trans hb'.binding)
  obtain rfl := hb.key
  exact ⟨⟨b, rfl, ⟨ha, hp, hb.binding, hb.expires⟩, ⟨ha', hp, hb.binding, hb.expires⟩, hstands, hstands'⟩, hevs,
    (hrun.inv h).wholeDelivered⟩

def octetsPipeline : PipelineEnv Ranges where
  wire := octets
  tcpChecked := Octets.tcpChecked
  assembler := rangeAssembler
  metadata := 512
  allocate := id
  routes := ⟨512, 64, id⟩
  workers := 2
  workers_pos := by decide
  hash
    | .fragment _ => 0
    | .flow _ flow => flow.source.port

def ipv6First : Received :=
  ⟨[0x60, 0, 0, 0, 0, 24, 44, 64, 0x20, 1, 0x0d, 0xb8, 0, 0, 0, 0, 0, 0, 0, 0, 0, 0, 0, 1, 0x20, 1, 0x0d, 0xb8, 0, 0, 0, 0,
    0, 0, 0, 0, 0, 0, 0, 2, 17, 0, 0, 1, 0, 0, 0, 7, 0, 53, 0x10, 0, 0, 20, 0, 0, 1, 2, 3, 4, 5, 6, 7, 8], 256, false, none⟩

/-- The first fragment comes twice, which is an overlap, and then once more. -/
theorem poison_holds_overlap : ∃ (s s0 s1 : State Ranges) (d : Delivery) (frame : Frame) (p : Parsed)
    (evs : List (Event Ranges)) (a : Assembly Ranges),
    Reachable octetsPipeline s ∧ Offends octetsPipeline s 1 4 d frame p ∧
    s.fragment octetsPipeline 1 4 =
      some (.decoded 1 d.binding frame (.fragment d.binding.key p.ip .poisons), s0) ∧
    Run octetsPipeline s0 evs s1 ∧ evs.length = 2 ∧ s1.clock < a.expires ∧ Poisoned s1 1 d.binding a ∧
    Stands octetsPipeline s1 d.binding.key d.binding 1 ∧ WholeDelivered octetsPipeline s1 := by
  have hsteps : ∃ ev1 s1, (State.new octetsPipeline 0).frame octetsPipeline 1 ipv6First true 1 = some (ev1, s1) ∧
      ∃ ev2 s2, s1.fragment octetsPipeline 1 2 = some (ev2, s2) ∧ (s2.workers 1).task = .idle ∧
      ∃ ev3 s3, s2.frame octetsPipeline 1 ipv6First true 3 = some (ev3, s3) ∧
      ∃ d frame p s4, s3.fragment octetsPipeline 1 4 =
        some (.decoded 1 d.binding frame (.fragment d.binding.key p.ip .poisons), s4) ∧
      ((s3.workers 1).task = .fragments d ∧ (∃ rest, State.next d = some (frame, rest)) ∧
        4 < d.binding.expires ∧ s3.routes.active d.binding.id = true ∧
        (parse octets frame.received.bytes).result = .ok p ∧ d.binding.key.ipv4Protocol = none ∧
        ∃ fragment a, p.fragment = some fragment ∧ (s3.workers 1).decoder.fragments.lookup d.binding.key = some a ∧
          a.binding = some d.binding ∧ a.poisoned = false ∧ 4 < a.expires ∧
          (0, 16) ∈ rangeAssembler.iterData a.ranges ∧ fragment.offset = 0 ∧ 0 < p.payload.length) ∧
      (s4.workers 1).task = .idle ∧
      ∃ ev5 s5, s4.frame octetsPipeline 1 ipv6First true 5 = some (ev5, s5) ∧
      ∃ ev6 s6, s5.fragment octetsPipeline 1 6 = some (ev6, s6) ∧ s6.clock < d.binding.expires :=
    ⟨_, _, rfl, _, _, rfl, rfl, _, _, rfl, _, _, _, _, rfl, ⟨rfl, ⟨_, rfl⟩, by decide, rfl, rfl, rfl, _, _, rfl, rfl,
      rfl, rfl, by decide, by decide, rfl, by decide⟩, rfl, _, _, rfl, _, _, rfl, by decide⟩
  obtain ⟨_, _, h1, _, _, h2, hidle, _, s3, h3, d, frame, p, s4, h4,
    ⟨htask, hnext, hlive, hactive, hparse, hkey, fragment, a, hfragment, ha, hbinding, halive, hexpires, hrange, hoffset,
      hpayload⟩, hidle', _, s5, h5, _, s6, h6, hclock⟩ := hsteps
  have hw : 1 < octetsPipeline.workers := by decide
  have hreached : Reachable octetsPipeline s3 :=
    ⟨0, _, ((Run.refl.step (.frame hw rfl h1)).step (.fragment hw h2)).step (.frame hw hidle h3)⟩
  have hreached' : Reachable octetsPipeline s4 := by
    obtain ⟨t, evs, hrun⟩ := hreached
    exact ⟨t, _, hrun.step (.fragment hw h4)⟩
  have hoffends : Offends octetsPipeline s3 1 4 d frame p := by
    refine ⟨htask, hnext, hlive, hactive, hparse, hkey, fragment, a, hfragment,
      .held ha ⟨_, hbinding, rfl⟩ halive hexpires, .overlap hrange ?_ ?_⟩
    · exact Nat.lt_add_left _ hpayload
    · exact lt_of_eq_of_lt hoffset (by decide)
  have hrun : Run octetsPipeline s4 _ s6 := (Run.refl.step (.frame hw hidle' h5)).step (.fragment hw h6)
  rcases (poison_holds hreached).1 hoffends h4 with ⟨-, x, hx⟩ | ⟨hev, -⟩
  · have hbefore : s6.clock < x.expires := hx.2.2.2 ▸ hclock
    obtain ⟨⟨b, -, hb, hb', -, hstands⟩, -, hwhole⟩ := (poison_holds hreached').2 hx.1 hx.2.1 hrun hbefore
    obtain rfl := some.inj (hb.2.2.1.symm.trans hx.2.2.1)
    exact ⟨s3, s4, s6, d, frame, p, _, x, hreached, hoffends, h4, hrun, rfl, hbefore, hb', hstands, hwhole⟩
  · cases hev

end Kotoconn.Tun.Pipeline
