import Kotoconn.Tun.UdpMove

/-! # Moving an association keeps both packet sequences -/

namespace Kotoconn.Tun
open Lib Outbounds Protocol.PacketIo List Option Function Table AList

/-! ## Replies of connected transports -/

def Flow.Replies (flow : Flow) (packets : List RoutedPacket) : Prop :=
  ∀ packet ∈ packets, packet.target = .ip flow.destination

def Flow.Answerable (flow : Flow) : Prop := replyFlow flow flow.destination = some (flow.destination, flow.source)

def Flow.answer (flow : Flow) (packet : RoutedPacket) : SocketAddr × SocketAddr × Bytes :=
  (flow.destination, flow.source, packet.payload)

theorem Flow.Replies.append {flow : Flow} {packets more : List RoutedPacket} (h : flow.Replies packets)
    (h' : flow.Replies more) : flow.Replies (packets ++ more) :=
  fun packet hpacket => (mem_append.1 hpacket).elim (h packet) (h' packet)

theorem Flow.Answerable.shows {flow : Flow} (h : flow.Answerable) {packets : List RoutedPacket}
    (hpackets : flow.Replies packets) : flow.shows packets = packets.map flow.answer := by
  rw [Flow.shows, ← filterMap_eq_map]
  refine filterMap_congr fun packet hpacket => ?_
  rw [Flow.accepts, hpackets packet hpacket, socketAddr, bind_some, h]
  rfl

theorem replies_packets {P : Type} (flow : Flow) (received : Protocol.PacketIo.Received P) (payload : P → Bytes) :
    flow.Replies (received.map fun packet => reply flow (payload packet)).packets := by
  cases received with
  | pending => nofun
  | error => nofun
  | ok =>
    intro packet hpacket
    obtain ⟨_, -, rfl⟩ := List.mem_map.1 hpacket
    rfl

/-! ## One association -/

namespace Log

/-- `requests` were admitted and not taken; `replies` arrived and did not reach the output. -/
structure Counted (log : Log) (flow : Flow) (requests replies : List RoutedPacket) : Prop where
  requests : log.taken ++ requests = log.admitted
  targets : flow.Replies (accepted log.before ++ log.after)
  replies : ∃ sent, Emission flow sent log.output ∧ sent ++ replies = accepted log.before ++ log.after

structure Cut (log : Log) (flow : Flow) : Prop where
  requests : log.taken <+: log.admitted
  targets : flow.Replies (accepted log.before ++ log.after)
  replies : ∃ sent, Emission flow sent log.output ∧ sent <+: accepted log.before ++ log.after

structure Early (log : Log) : Prop where
  taken : log.taken = []
  before : log.before = []
  after : log.after = []

structure Driven (log : Log) (driver : Driver RoutedPacket) : Prop where
  inv : driver.Inv
  used : driver.used = false
  outgoing : driver.outgoing = []
  taken : log.taken = driver.taken
  before : log.before = driver.arrived
  after : log.after = []

variable {log : Log} {flow : Flow} {requests replies : List RoutedPacket}

theorem Counted.cut (h : log.Counted flow requests replies) : log.Cut flow := by
  obtain ⟨sent, hemission, hsent⟩ := h.replies
  exact ⟨⟨requests, h.requests⟩, h.targets, sent, hemission, ⟨replies, hsent⟩⟩

theorem Counted.push (h : log.Counted flow requests replies) (packet : RoutedPacket) :
    Counted { log with admitted := log.admitted ++ [packet] } flow (requests ++ [packet]) replies :=
  ⟨by rw [← append_assoc, h.requests], h.targets, h.replies⟩

theorem Counted.enqueue {d d' : Direct} (h : log.Counted flow d.pending d.held) (hd : d.Replying) {size now : Nat}
    {packet : RoutedPacket} {send : List RoutedPacket → Sent} {ok : Bool} {offers : List Offer}
    (henqueue : d.enqueue size packet send now = (ok, offers, d')) : Counted { log with
        admitted := log.admitted ++ (if ok then [packet] else [])
        taken := log.taken ++ Tun.taken offers } flow d'.pending d'.held ∧ d'.Replying ∧ d'.id = d.id := by
  obtain ⟨hpending, hsame⟩ := Direct.enqueue_spec henqueue
  refine ⟨⟨?_, h.targets, ?_⟩, ?_, hsame.id⟩
  · rw [append_assoc, hpending, ← append_assoc, h.requests]
  · rw [hsame.held]
    exact h.replies
  · rw [Direct.Replying, hsame.received, hsame.receivedOffset]
    exact hd

theorem Counted.poll {d d' : Direct} (h : log.Counted flow d.pending d.held) (hd : d.Replying) (hid : d.id.1 = flow)
    {size : Nat} {answers : IoAnswers} {progress : UdpProgress} {effects : Effects}
    (hpoll : d.poll size (answers.connected flow) = (progress, effects, d')) : Counted { log with
        taken := log.taken ++ Tun.taken effects.offers
        after := log.after ++ d.given (answers.connected flow)
        output := log.output ++ effects.output } flow d'.pending d'.held ∧ d'.Replying ∧ d'.id = d.id := by
  subst hid
  obtain ⟨hoffers, hsame, ⟨sent, hsent, hemission⟩, -, hd'⟩ := Direct.poll_spec hd hpoll
  obtain ⟨htaken, hsame'⟩ := Direct.flushRequests_spec size d answers.send answers.now
  obtain ⟨sent₀, hemission₀, hsent₀⟩ := h.replies
  refine ⟨⟨?_, ?_, sent₀ ++ sent, hemission₀.append hemission, ?_⟩, hd', hsame.id.trans hsame'.id⟩
  · rw [← hoffers, hsame.pending]
    show (log.taken ++ Tun.taken (d.flushRequests size answers.send answers.now).1) ++
      (d.flushRequests size answers.send answers.now).2.pending = log.admitted
    rw [append_assoc, htaken, h.requests]
  · show d.id.1.Replies (accepted log.before ++ (log.after ++ d.given (answers.connected d.id.1)))
    rw [← append_assoc]
    refine h.targets.append ?_
    unfold Direct.given Direct.fresh
    cases (d.flushReplies _).1 with
    | idle =>
      split_ifs
      · exact replies_packets d.id.1 answers.recv RoutedPacket.payload
      · nofun
    | blocked => nofun
    | closed => nofun
  · rw [append_assoc, hsent, ← append_assoc, hsent₀, append_assoc]

theorem Driven.drive {driver driver' : Driver RoutedPacket} (h : log.Driven driver)
    (hcounted : log.Counted flow requests driver.replies) {request : Request} {count : Nat} {closed : Bool}
    {send : List RoutedPacket → Sent} {received : Protocol.PacketIo.Received (Bytes × Bool)}
    (hpoll : driver.poll request count closed send (received.map fun r => (reply flow r.1, r.2)) = (.again, driver')) :
    Driven { log with
        taken := driver'.taken
        before := log.before ++ (received.map fun r => (reply flow r.1, r.2)).packets } driver' ∧
      Counted { log with
        taken := driver'.taken
        before := log.before ++ (received.map fun r => (reply flow r.1, r.2)).packets } flow requests driver'.replies := by
  obtain ⟨harrived, hidle⟩ := Driver.poll_again hpoll
  rw [h.before, ← harrived]
  obtain ⟨houtgoing, hused⟩ := hidle h.outgoing
  have hinv := h.inv.poll hpoll
  have hnone : driver'.taken = [] := (hinv.unused (hused.trans h.used)).2.2
  have hnone' : log.taken = [] := h.taken.trans (h.inv.unused h.used).2.2
  refine ⟨⟨hinv, hused.trans h.used, houtgoing, rfl, rfl, h.after⟩, ?_, ?_, ?_⟩
  · show driver'.taken ++ requests = log.admitted
    rw [hnone, ← hcounted.requests, hnone']
  · show flow.Replies (accepted driver'.arrived ++ log.after)
    have htargets := hcounted.targets
    rw [h.before, h.after, append_nil] at htargets
    rw [h.after, append_nil, harrived, accepted_append]
    refine htargets.append fun packet hpacket => ?_
    obtain ⟨_, hr, rfl⟩ := List.mem_map.1 hpacket
    obtain ⟨hr, -⟩ := mem_filter.1 hr
    cases received with
    | pending => cases hr
    | error => cases hr
    | ok =>
      obtain ⟨_, -, rfl⟩ := List.mem_map.1 hr
      rfl
  · obtain ⟨_, hemission, hsent⟩ := hcounted.replies
    rw [h.before, h.after, h.inv.replies, append_nil] at hsent
    obtain rfl := append_left_eq_self.1 hsent
    refine ⟨[], hemission, ?_⟩
    show driver'.replies = accepted driver'.arrived ++ log.after
    rw [hinv.replies, h.after, append_nil]

end Log

namespace Association
variable {base : WorkerEnv} {o : Outside}

def Holds (known : List Transfer) (udp : Table Flow (UdpEntry (movingEnv base o))) (g : Nat) (a : Association) : Prop :=
  match a.stage with
  | .sniffing packets | .routing packets => a.log.Early ∧ a.log.Counted a.flow (packets ++ a.queue) []
  | .driving packets driver _ => a.log.Driven driver ∧ a.log.Counted a.flow (packets ++ a.queue) driver.replies
  | .granted packets replies => a.log.Counted a.flow (packets ++ a.queue) replies
  | .sent => ∃ t ∈ known, t.id = (a.flow, g) ∧ a.log.Counted a.flow (t.putBack ++ a.queue) t.io.held
  | .moved => ∃ (x : UdpEntry (movingEnv base o)) (d : Direct), udp.lookup a.flow = some x ∧ x.generation = g ∧
      x.direct = some d ∧ d.id = (a.flow, g) ∧ d.Replying ∧ a.log.Counted a.flow d.pending d.held
  | .ended => a.log.Cut a.flow

variable {known known' : List Transfer} {udp udp' : Table Flow (UdpEntry (movingEnv base o))} {g : Nat} {a : Association}

theorem holds_new (flow : Flow) : (new flow).Holds known udp g :=
  ⟨⟨rfl, rfl, rfl⟩, rfl, (fun _ h => nomatch h), [], .nil, rfl⟩

variable (h : a.Holds known udp g)
include h

/-- The rest of the system changed, but not the transfer or the native transport of an association. -/
theorem Holds.frame (hknown : ∀ t ∈ known, t.id = (a.flow, g) → t ∈ known')
    (hudp : ∀ x, udp.lookup a.flow = some x → x.generation = g →
      ∃ y, udp'.lookup a.flow = some y ∧ y.generation = g ∧ y.direct = x.direct) : a.Holds known' udp' g := by
  obtain ⟨_, stage, _, _, _⟩ := a
  cases stage with
  | sent =>
    obtain ⟨t, ht, hid, hcounted⟩ := h
    exact ⟨t, hknown t ht hid, hid, hcounted⟩
  | moved =>
    obtain ⟨x, d, hx, hg, hd, hrest⟩ := h
    obtain ⟨y, hy, hyg, hyd⟩ := hudp x hx hg
    exact ⟨y, d, hy, hyg, hyd.trans hd, hrest⟩
  | _ => exact h

theorem Holds.cut : a.log.Cut a.flow := by
  obtain ⟨_, stage, _, _, _⟩ := a
  cases stage with
  | sniffing => exact h.2.cut
  | routing => exact h.2.cut
  | driving => exact h.2.cut
  | granted => exact Log.Counted.cut h
  | sent =>
    obtain ⟨_, -, -, hcounted⟩ := h
    exact hcounted.cut
  | moved =>
    obtain ⟨_, _, -, -, -, -, -, hcounted⟩ := h
    exact hcounted.cut
  | ended => exact h

theorem Holds.close : a.close.Holds known udp' g := by
  have hcut := h.cut
  obtain ⟨_, stage, _, _, _⟩ := a
  cases stage with
  | moved => exact hcut
  | _ => exact h

theorem Holds.push (hmoved : a.stage ≠ .moved) (hended : a.isEnded = false)
    (packet : RoutedPacket) : (a.push packet).Holds known udp g := by
  obtain ⟨flow, stage, queue, _, log⟩ := a
  have hpush : ∀ {packets replies : List RoutedPacket}, log.Counted flow (packets ++ queue) replies →
      Log.Counted { log with admitted := log.admitted ++ [packet] } flow (packets ++ (queue ++ [packet])) replies :=
    fun hcounted => append_assoc .. ▸ hcounted.push packet
  cases stage with
  | sniffing => exact ⟨⟨h.1.taken, h.1.before, h.1.after⟩, hpush h.2⟩
  | routing => exact ⟨⟨h.1.taken, h.1.before, h.1.after⟩, hpush h.2⟩
  | driving =>
    exact ⟨⟨h.1.inv, h.1.used, h.1.outgoing, h.1.taken, h.1.before, h.1.after⟩, hpush h.2⟩
  | granted => exact hpush h
  | sent =>
    obtain ⟨t, ht, hid, hcounted⟩ := h
    exact ⟨t, ht, hid, hpush hcounted⟩
  | moved => exact absurd rfl hmoved
  | ended => cases hended

omit h

/-- **A step of the session keeps the packets**, and sends at most one transfer. -/
theorem Holds.step {a' : Association} {sent : List Transfer} (h : a.Holds known udp g) (hstep : a.Step g a' sent) :
    a'.Holds (known ++ sent) udp g ∧ a'.flow = a.flow ∧ (a.stage = .moved → a'.stage = .moved) ∧
      (a.stage = .sent → a'.stage = .sent) ∧
      (sent = [] ∨ ∃ t, sent = [t] ∧ t.id = (a.flow, g) ∧ a.stage ≠ .sent ∧ a'.stage = .sent) := by
  have hknown : ∀ t ∈ known, t.id = (a.flow, g) → t ∈ known ++ sent := fun t ht _ => mem_append_left _ ht
  have hframe := h.frame hknown fun x hx hg => ⟨x, hx, hg, rfl⟩
  obtain ⟨_, stage, queue, _, _⟩ := a
  cases hstep with
  | sniff hstage hqueue =>
    obtain rfl : stage = _ := hstage
    obtain rfl : queue = _ := hqueue
    refine ⟨⟨h.1, ?_⟩, rfl, nofun, nofun, .inl rfl⟩
    exact append_assoc .. ▸ h.2
  | putBack hstage =>
    obtain rfl : stage = _ := hstage
    exact ⟨h, rfl, nofun, nofun, .inl rfl⟩
  | @native _ hstage =>
    obtain rfl : stage = _ := hstage
    refine ⟨⟨_, mem_append_right _ (mem_singleton_self _), rfl, h.2⟩, rfl, nofun, nofun, .inr ⟨_, rfl, rfl, ?_⟩⟩
    exact ⟨nofun, rfl⟩
  | connect hstage =>
    obtain rfl : stage = _ := hstage
    exact ⟨⟨⟨Driver.inv_new, rfl, rfl, h.1.taken, h.1.before, h.1.after⟩, h.2⟩, rfl, nofun, nofun, .inl rfl⟩
  | ask hstage =>
    obtain rfl : stage = _ := hstage
    exact ⟨h, rfl, nofun, nofun, .inl rfl⟩
  | drive hstage _ hpoll =>
    obtain rfl : stage = _ := hstage
    exact ⟨h.1.drive h.2 hpoll, rfl, nofun, nofun, .inl rfl⟩
  | grant hstage hpoll =>
    obtain rfl : stage = _ := hstage
    obtain ⟨-, -, _, _, rfl⟩ := Driver.handoff_eq hpoll
    exact ⟨h.2, rfl, nofun, nofun, .inl rfl⟩
  | take hstage =>
    obtain rfl : stage = _ := hstage
    refine ⟨⟨_, mem_append_right _ (mem_singleton_self _), rfl, h⟩, rfl, nofun, nofun, .inr ⟨_, rfl, rfl, ?_⟩⟩
    exact ⟨nofun, rfl⟩
  | fail hstage => exact ⟨h.cut, rfl, fun hmoved => absurd hmoved hstage.2, fun hsent => absurd hsent hstage.1, .inl rfl⟩
  | close => exact ⟨hframe, rfl, id, id, .inl rfl⟩

end Association

/-! ## The system -/

namespace Move
variable {base : WorkerEnv} {o : Outside}

structure Inv (known : List Transfer) (generation : Nat) (udp : Table Flow (UdpEntry (movingEnv base o)))
    (associations : Nat → Option Association) : Prop where
  holds : ∀ {g a}, associations g = some a → g ≤ generation ∧ a.flow.Answerable ∧ a.Holds known udp g
  entries : ∀ {flow x}, udp.lookup flow = some x → x.scope = x.generation ∧
    (x.direct = none → x.packets = some x.generation) ∧
    ∃ a, associations x.generation = some a ∧ a.flow = flow ∧ (x.direct ≠ none → a.stage = .moved)
  sent : ∀ {t}, t ∈ known → ∃ a, associations t.id.2 = some a ∧ a.flow = t.id.1 ∧ a.stage = .sent
  nodup : (known.map fun t => t.id.2).Nodup

theorem inv_new : Inv [] 0 (∅ : Table Flow (UdpEntry (movingEnv base o))) fun _ => none := ⟨nofun, nofun, nofun, .nil⟩

variable {known known' : List Transfer} {generation : Nat} {udp : Table Flow (UdpEntry (movingEnv base o))}
  {N : Nat → Option Association} {flow : Flow} {x : UdpEntry (movingEnv base o)} {g : Nat} {a a' : Association}

variable (h : Inv known generation udp N)
include h

theorem Inv.entry (hx : udp.lookup flow = some x) :
    ∃ a, N x.generation = some a ∧ a.flow = flow := by
  obtain ⟨-, -, a, ha, hflow, -⟩ := h.entries hx
  exact ⟨a, ha, hflow⟩

theorem Inv.flow_eq {flow' : Flow} {y : UdpEntry (movingEnv base o)}
    (hx : udp.lookup flow = some x) (hy : udp.lookup flow' = some y) (hg : y.generation = x.generation) : flow' = flow := by
  obtain ⟨_, ha, hflow⟩ := h.entry hx
  obtain ⟨_, hb, hflow'⟩ := h.entry hy
  obtain rfl := some.inj (ha.symm.trans (hg ▸ hb))
  exact hflow'.symm.trans hflow

theorem Inv.direct (hx : udp.lookup flow = some x) {d : Direct}
    (hd : x.direct = some d) : ∃ a, N x.generation = some a ∧ a.flow = flow ∧ a.stage = .moved ∧ flow.Answerable ∧
      d.id = (flow, x.generation) ∧ d.Replying ∧ a.log.Counted flow d.pending d.held := by
  obtain ⟨-, -, a, ha, rfl, hmoved⟩ := h.entries hx
  have hstage : a.stage = .moved := hmoved (by rw [hd]; nofun)
  obtain ⟨-, hflow, hholds⟩ := h.holds ha
  refine ⟨a, ha, rfl, hstage, hflow, ?_⟩
  unfold Association.Holds at hholds
  rw [hstage] at hholds
  obtain ⟨_, _, hy, -, hd', hid, hreplying, hcounted⟩ := hholds
  obtain rfl := some.inj (hx.symm.trans hy)
  obtain rfl := some.inj (hd.symm.trans hd')
  exact ⟨hid, hreplying, hcounted⟩

theorem Inv.same (hx : udp.lookup flow = some x) (ha : N x.generation = some a) :
    a.flow = flow ∧ x.scope = x.generation ∧ (x.direct = none → x.packets = some x.generation) ∧
      (x.direct ≠ none → a.stage = .moved) := by
  obtain ⟨hscope, hpackets, _, hb, hflow, hmoved⟩ := h.entries hx
  obtain rfl := some.inj (ha.symm.trans hb)
  exact ⟨hflow, hscope, hpackets, hmoved⟩

theorem Inv.staged {t : Transfer} (ht : t ∈ known) (ha : N t.id.2 = some a) :
    a.flow = t.id.1 ∧ a.stage = .sent := by
  obtain ⟨_, hb, hflow, hstage⟩ := h.sent ht
  obtain rfl := some.inj (ha.symm.trans hb)
  exact ⟨hflow, hstage⟩

/-- **One generation changes**: its association, its entry and its transfer. -/
theorem Inv.update {generation' : Nat} {udp' : Table Flow (UdpEntry (movingEnv base o))}
    (hle : generation ≤ generation') (hbound : g ≤ generation') (hans : a'.flow.Answerable)
    (hholds : a'.Holds known' udp' g) (hknown : ∀ t ∈ known, t.id.2 ≠ g → t ∈ known')
    (hudp : ∀ {flow x}, x.generation ≠ g → udp.lookup flow = some x → udp'.lookup flow = some x)
    (hentries : ∀ {flow x}, udp'.lookup flow = some x → (x.generation ≠ g ∧ udp.lookup flow = some x) ∨
      (x.generation = g ∧ x.scope = g ∧ (x.direct = none → x.packets = some g) ∧ a'.flow = flow ∧
        (x.direct ≠ none → a'.stage = .moved)))
    (hsent : ∀ {t}, t ∈ known' → (t.id.2 ≠ g ∧ t ∈ known) ∨ (t.id = (a'.flow, g) ∧ a'.stage = .sent))
    (hnodup : (known'.map fun t => t.id.2).Nodup) : Inv known' generation' udp' (Function.update N g (some a')) := by
  refine ⟨fun {g' b} hb => ?_, fun {flow x} hx => ?_, fun {t} ht => ?_, hnodup⟩
  · rcases update_eq_some.1 hb with ⟨rfl, hb'⟩ | ⟨hg, hb'⟩
    · obtain rfl := some.inj hb'
      exact ⟨hbound, hans, hholds⟩
    · obtain ⟨hbound', hans', hholds'⟩ := h.holds hb'
      refine ⟨le_trans hbound' hle, hans', hholds'.frame (fun t ht hid => hknown t ht ?_) fun z hz hzg => ?_⟩
      · rw [hid]
        exact hg
      · exact ⟨z, hudp (hzg ▸ hg) hz, hzg, rfl⟩
  · rcases hentries hx with ⟨hg, hx⟩ | ⟨hg, hscope, hpackets, hflow, hmoved⟩
    · rw [update_of_ne hg]
      exact h.entries hx
    · rw [hg, update_self]
      exact ⟨hscope, hpackets, a', rfl, hflow, hmoved⟩
  · rcases hsent ht with ⟨hg, ht⟩ | ⟨hid, hstage⟩
    · rw [update_of_ne hg]
      exact h.sent ht
    · rw [hid, update_self]
      exact ⟨a', rfl, rfl, hstage⟩

/-- **One entry and its association change.** Its transfer may leave the channel. -/
theorem Inv.change (hx : udp.lookup flow = some x) (ha : N x.generation = some a)
    {y : UdpEntry (movingEnv base o)} (hgen : y.generation = x.generation) (hscope : y.scope = x.scope)
    (hpackets : y.direct = none → y.packets = some x.generation) (hflow : a'.flow = a.flow)
    (hmoved : y.direct ≠ none → a'.stage = .moved) (hsub : List.Sublist known' known)
    (hsent : ∀ t ∈ known', t.id.2 = x.generation → a'.stage = .sent)
    (hkept : ∀ t ∈ known, t.id.2 ≠ x.generation → t ∈ known')
    (hholds : a'.Holds known' (udp.insert flow y) x.generation) :
    Inv known' generation (udp.insert flow y) (Function.update N x.generation (some a')) := by
  obtain ⟨hflow₀, hscope₀, -⟩ := h.same hx ha
  obtain ⟨hbound, hans, -⟩ := h.holds ha
  refine h.update le_rfl hbound (hflow ▸ hans) hholds hkept (fun {flow' z} hz hlookup => ?_)
    (fun {flow' z} hz => ?_) (fun {t} ht => ?_) (h.nodup.sublist (hsub.map _))
  · rw [lookup_insert_ne fun heq => hz ?_]
    · exact hlookup
    · rw [heq, hx] at hlookup
      rw [← some.inj hlookup]
  · rcases lookup_insert_iff.1 hz with ⟨rfl, rfl⟩ | ⟨hne, hz⟩
    · exact .inr ⟨hgen, hscope.trans hscope₀, hpackets, hflow.trans hflow₀, hmoved⟩
    · exact .inl ⟨fun heq => hne (h.flow_eq hx hz heq), hz⟩
  · by_cases hg : t.id.2 = x.generation
    · obtain ⟨hbflow, -⟩ := h.staged (hsub.subset ht) (hg ▸ ha)
      exact .inr ⟨Prod.ext (hflow.trans hbflow).symm hg, hsent t ht hg⟩
    · exact .inl ⟨hg, hsub.subset ht⟩

/-- **One association changes**, and may send a transfer. -/
theorem Inv.put (ha : N g = some a) {sent : List Transfer}
    (hholds : a'.Holds (known ++ sent) udp g) (hflow : a'.flow = a.flow)
    (hmoved : a.stage = .moved → a'.stage = .moved) (hsent : a.stage = .sent → a'.stage = .sent)
    (hnew : sent = [] ∨ ∃ t, sent = [t] ∧ t.id = (a.flow, g) ∧ a.stage ≠ .sent ∧ a'.stage = .sent) :
    Inv (known ++ sent) generation udp (Function.update N g (some a')) := by
  obtain ⟨hbound, hans, -⟩ := h.holds ha
  refine h.update le_rfl hbound (hflow ▸ hans) hholds (fun t ht _ => mem_append_left _ ht)
    (fun _ hx => hx) (fun {flow x} hx => ?_) (fun {t} ht => ?_) ?_
  · by_cases hg : x.generation = g
    · subst hg
      obtain ⟨hbflow, hscope, hpackets, hbmoved⟩ := h.same hx ha
      exact .inr ⟨rfl, hscope, hpackets, hflow.trans hbflow, fun hd => hmoved (hbmoved hd)⟩
    · exact .inl ⟨hg, hx⟩
  · rcases mem_append.1 ht with ht | ht
    · by_cases hg : t.id.2 = g
      · obtain ⟨hbflow, hbstage⟩ := h.staged ht (hg ▸ ha)
        exact .inr ⟨Prod.ext (hflow.trans hbflow).symm hg, hsent hbstage⟩
      · exact .inl ⟨hg, ht⟩
    · rcases hnew with rfl | ⟨t', rfl, hid, -, hstage⟩
      · cases ht
      · obtain rfl := mem_singleton.1 ht
        exact .inr ⟨hflow ▸ hid, hstage⟩
  · rcases hnew with rfl | ⟨t, rfl, hid, hstage, -⟩
    · rw [append_nil]
      exact h.nodup
    · rw [map_append, nodup_append]
      refine ⟨h.nodup, nodup_singleton _, ?_⟩
      -- a generation with a transfer in the channel is at another stage
      rintro g₁ hg₁ g₂ hg₂ rfl
      obtain rfl := mem_singleton.1 hg₂
      obtain ⟨t', ht', heq⟩ := List.mem_map.1 hg₁
      have hg : t'.id.2 = g := heq.trans (congrArg Prod.snd hid)
      exact hstage (h.staged ht' (hg ▸ ha)).2

/-! ## Calls of the worker -/

theorem Inv.flag (hx : udp.lookup flow = some x) (blocked : Bool) :
    Inv known generation (udp.insert flow { x with blocked }) N := by
  obtain ⟨-, hpackets, a, ha, hflow, hmoved⟩ := h.entries hx
  have hsent : ∀ t ∈ known, t.id.2 = x.generation → a.stage = .sent := fun t ht hg => (h.staged ht (hg ▸ ha)).2
  have hchange := h.change hx ha (y := { x with blocked }) rfl rfl hpackets rfl hmoved (List.Sublist.refl _) hsent
    (fun t ht _ => ht) ((h.holds ha).2.2.frame (fun t ht _ => ht) fun z hz hzg => ?_)
  · rw [update_eq_self_iff.2 ha.symm] at hchange
    exact hchange
  · rw [hflow, hx] at hz
    obtain rfl := some.inj hz
    exact ⟨{ x with blocked }, by rw [hflow, lookup_insert], hzg, rfl⟩

theorem Inv.count : Inv known (generation + 1) udp N := by
  refine ⟨fun ha => ?_, h.entries, h.sent, h.nodup⟩
  obtain ⟨hbound, hrest⟩ := h.holds ha
  exact ⟨Nat.le_succ_of_le hbound, hrest⟩

/-- **Entries are dropped**: `gone` are their generations. -/
theorem Inv.drop {udp' : Table Flow (UdpEntry (movingEnv base o))}
    {N' : Nat → Option Association} (gone : Nat → Prop)
    (hudp : ∀ {flow x}, udp'.lookup flow = some x ↔ udp.lookup flow = some x ∧ ¬gone x.generation)
    (hgone : ∀ {g}, gone g → N' g = (N g).map Association.close) (hsame : ∀ {g}, ¬gone g → N' g = N g) :
    Inv known generation udp' N' := by
  have hback : ∀ {g b}, N' g = some b → ∃ a, N g = some a ∧ (b = a.close ∨ ¬gone g ∧ b = a) := by
    intro g b hb
    by_cases hg : gone g
    · rw [hgone hg] at hb
      obtain ⟨a, ha, rfl⟩ := map_eq_some_iff.1 hb
      exact ⟨a, ha, .inl rfl⟩
    · rw [hsame hg] at hb
      exact ⟨b, hb, .inr ⟨hg, rfl⟩⟩
  refine ⟨?_, ?_, ?_, h.nodup⟩
  · intro g b hb
    obtain ⟨a, ha, rfl | ⟨hg, rfl⟩⟩ := hback hb
    · obtain ⟨hbound, hans, hholds⟩ := h.holds ha
      exact ⟨hbound, hans, hholds.close⟩
    · obtain ⟨hbound, hans, hholds⟩ := h.holds ha
      refine ⟨hbound, hans, hholds.frame (fun t ht _ => ht) fun x hx hxg => ⟨x, ?_, hxg, rfl⟩⟩
      exact hudp.2 ⟨hx, hxg ▸ hg⟩
  · intro flow x hx
    obtain ⟨hx, hg⟩ := hudp.1 hx
    rw [hsame hg]
    exact h.entries hx
  · intro t ht
    obtain ⟨a, ha, hflow, hstage⟩ := h.sent ht
    by_cases hg : gone t.id.2
    · refine ⟨a.close, by rw [hgone hg, ha]; rfl, hflow, ?_⟩
      rw [Association.close, hstage]
    · exact ⟨a, by rw [hsame hg]; exact ha, hflow, hstage⟩

theorem Inv.erase (hx : udp.lookup flow = some x) :
    Inv known generation (udp.erase flow) (Function.update N x.generation ((N x.generation).map Association.close)) := by
  refine h.drop (· = x.generation) (fun {flow' y} => ?_) (fun hg => ?_) fun hg => update_of_ne hg ..
  · rw [lookup_erase_iff, and_comm]
    refine and_congr_right fun hy => ⟨fun hne hg => hne (h.flow_eq hx hy hg), fun hne heq => hne ?_⟩
    rw [heq, hx] at hy
    rw [some.inj hy]
  · rw [hg, update_self]

omit h

theorem close_close (a : Association) : a.close.close = a.close := by
  obtain ⟨_, stage, _, _, _⟩ := a
  cases stage <;> rfl

theorem closeAll_associations (entries : List (UdpEntry (movingEnv base o))) (w : (movingEnv base o).World) (g : Nat) :
    let w' := entries.foldl (fun w entry => (movingEnv base o).close entry.scope w) w
    ((∃ entry ∈ entries, entry.scope = g) → w'.2.associations g = (w.2.associations g).map Association.close) ∧
      ((¬∃ entry ∈ entries, entry.scope = g) → w'.2.associations g = w.2.associations g) := by
  induction entries generalizing w with
  | nil => exact ⟨nofun, fun _ => rfl⟩
  | cons entry entries ih =>
    obtain ⟨hgone, hsame⟩ := ih ((movingEnv base o).close entry.scope w)
    have hself : entry.scope = g → ((movingEnv base o).close entry.scope w).2.associations g =
        (w.2.associations g).map Association.close := Net.update_eq
    have hother : entry.scope ≠ g → ((movingEnv base o).close entry.scope w).2.associations g = w.2.associations g :=
      Net.update_ne
    refine ⟨fun hmem => ?_, fun hmem => ?_⟩
    · by_cases htail : ∃ entry ∈ entries, entry.scope = g
      · refine (hgone htail).trans ?_
        by_cases heq : entry.scope = g
        · rw [hself heq, Option.map_map]
          exact congrArg (fun f => (w.2.associations g).map f) (funext close_close)
        · rw [hother heq]
      · refine (hsame htail).trans (hself ?_)
        obtain ⟨e, he, heq⟩ := hmem
        rcases mem_cons.1 he with rfl | he
        · exact heq
        · exact absurd ⟨e, he, heq⟩ htail
    · refine (hsame fun ⟨e, he, heq⟩ => hmem ⟨e, mem_cons_of_mem _ he, heq⟩).trans (hother fun heq => hmem ?_)
      exact ⟨entry, mem_cons_self, heq⟩

variable (h : Inv known generation udp N)
include h

theorem Inv.clear {N' : Nat → Option Association}
    (hN : ∀ g, ((∃ entry ∈ udp.values, entry.scope = g) → N' g = (N g).map Association.close) ∧
      ((¬∃ entry ∈ udp.values, entry.scope = g) → N' g = N g)) :
    Inv known generation (∅ : Table Flow (UdpEntry (movingEnv base o))) N' := by
  refine h.drop (fun g => ∃ entry ∈ udp.values, entry.scope = g) (fun {flow x} => ?_) (fun {g} => (hN g).1) fun {g} => (hN g).2
  refine iff_of_false nofun ?_
  rintro ⟨hx, hnone⟩
  exact hnone ⟨x, Table.mem_values_of_lookup hx, (h.entries hx).1⟩

theorem Inv.associate (hflow : flow.Answerable) (hvacant : udp.lookup flow = none) :
    Inv known (generation + 1) (udp.insert flow ⟨some (generation + 1), generation + 1, generation + 1, none, false⟩)
      (Function.update N (generation + 1) (some (.new flow))) := by
  have hold : ∀ {g a}, N g = some a → g ≠ generation + 1 := fun ha heq => by
    have := (h.holds ha).1
    omega
  refine h.update (Nat.le_succ _) le_rfl hflow (Association.holds_new flow) (fun t ht _ => ht)
    (fun {flow' z} _ hz => ?_) (fun {flow' z} hz => ?_) (fun {t} ht => ?_) h.nodup
  · rw [lookup_insert_ne fun heq => ?_]
    · exact hz
    · rw [heq, hvacant] at hz
      cases hz
  · rcases lookup_insert_iff.1 hz with ⟨rfl, rfl⟩ | ⟨-, hz⟩
    · exact .inr ⟨rfl, rfl, fun _ => rfl, rfl, fun hd => absurd rfl hd⟩
    · obtain ⟨_, hb, -⟩ := h.entry hz
      exact .inl ⟨hold hb, hz⟩
  · obtain ⟨_, hb, -⟩ := h.sent ht
    exact .inl ⟨hold hb, ht⟩

theorem Inv.send (hx : udp.lookup flow = some x) (hdirect : x.direct = none)
    (hopen : (N x.generation).any Association.isEnded = false) (packet : RoutedPacket) :
    Inv known generation udp (Function.update N x.generation ((N x.generation).map (·.push packet))) := by
  obtain ⟨a, ha, hflow⟩ := h.entry hx
  have hmoved : a.stage ≠ .moved := fun hstage => by
    have hholds := (h.holds ha).2.2
    unfold Association.Holds at hholds
    rw [hstage] at hholds
    obtain ⟨_, _, hy, -, hd, -⟩ := hholds
    rw [hflow, hx] at hy
    rw [← some.inj hy, hdirect] at hd
    cases hd
  rw [ha] at hopen ⊢
  have hholds := (h.holds ha).2.2.push hmoved hopen packet
  rw [← append_nil known] at hholds ⊢
  exact h.put ha hholds rfl id id (.inl rfl)

theorem Inv.work (hx : udp.lookup flow = some x) {d d' : Direct}
    (hd : x.direct = some d) (hid : d'.id = d.id) (hd' : d'.Replying) (ha : N x.generation = some a) (a' : Association)
    (hflow : a'.flow = a.flow) (hstage : a'.stage = a.stage) (hcounted : a'.log.Counted flow d'.pending d'.held) :
    Inv known generation (udp.insert flow { x with direct := some d' }) (Function.update N x.generation (some a')) := by
  obtain ⟨b, hb, rfl, hmoved, -, hdid, -⟩ := h.direct hx hd
  obtain rfl := some.inj (ha.symm.trans hb)
  have hnone : ∀ t ∈ known, t.id.2 = x.generation → a'.stage = .sent := fun t ht hg => by
    cases hmoved.symm.trans (h.staged ht (hg ▸ ha)).2
  refine h.change hx ha (y := { x with direct := some d' }) rfl rfl nofun hflow (fun _ => hstage.trans hmoved)
    (List.Sublist.refl _) hnone (fun t ht _ => ht) ?_
  unfold Association.Holds
  rw [hstage, hmoved, hflow]
  exact ⟨_, d', lookup_insert _, rfl, rfl, hid.trans hdid, hd', hcounted⟩

theorem Inv.enqueue (hx : udp.lookup flow = some x) {d d' : Direct}
    (hd : x.direct = some d) {size now : Nat} {packet : RoutedPacket} {send : List RoutedPacket → Sent} {ok : Bool}
    {offers : List Offer} (henqueue : d.enqueue size packet send now = (ok, offers, d')) :
    Inv known generation (udp.insert flow { x with direct := some d' })
      (Function.update N d.id.2 ((N d.id.2).map (·.enqueued packet ok offers))) := by
  obtain ⟨a, ha, rfl, -, -, hid, hreplying, hcounted⟩ := h.direct hx hd
  obtain ⟨hcounted', hreplying', hid'⟩ := hcounted.enqueue hreplying henqueue
  rw [hid, ha]
  exact h.work hx hd hid' hreplying' ha (a.enqueued packet ok offers) rfl rfl hcounted'

theorem Inv.poll (hx : udp.lookup flow = some x) {d d' : Direct}
    (hd : x.direct = some d) {size : Nat} {answers : IoAnswers} {progress : UdpProgress} {effects : Effects}
    (hpoll : d.poll size (answers.connected d.id.1) = (progress, effects, d')) :
    Inv known generation (udp.insert flow { x with direct := some d' })
      (Function.update N d.id.2 ((N d.id.2).map (·.polled (d.given (answers.connected d.id.1)) effects))) := by
  obtain ⟨a, ha, rfl, -, -, hid, hreplying, hcounted⟩ := h.direct hx hd
  have hflow : d.id.1 = a.flow := congrArg Prod.fst hid
  rw [hflow] at hpoll
  obtain ⟨hcounted', hreplying', hid'⟩ := hcounted.poll hreplying hflow hpoll
  rw [hflow, hid, ha]
  exact h.work hx hd hid' hreplying' ha (a.polled _ effects) rfl rfl hcounted'

omit h

theorem tcpCall_net {w w' : (movingEnv base o).World} (h : Worker.TcpCall w w') : w'.2 = w.2 := by
  cases h with
  | connect h =>
    obtain ⟨r, -, hr⟩ := map_eq_some_iff.1 h
    exact (congrArg (fun r : _ × _ × Net => r.2.2) hr).symm
  | beginTurn => rfl
  | poll => rfl
  | wake => rfl
  | input => rfl
  | drop => rfl
  | reject => rfl

def Inv.Of (known : List Transfer) (v : Worker.View (movingEnv base o)) : Prop :=
  Inv known v.generation v.udp v.world.2.associations

variable {v v' : Worker.View (movingEnv base o)} {F : Flow → Prop}

/-- **A call of the worker keeps the invariant.** -/
theorem Inv.touch (hF : ∀ flow, F flow → flow.Answerable)
    (h : Inv.Of known v) (htouch : Worker.Touch F v v') : Inv.Of known v' := by
  cases htouch with
  | tcp hcall =>
    show Inv known v.generation v.udp _
    rw [tcpCall_net hcall]
    exact h
  | count => exact Inv.count h
  | flag hx blocked => exact Inv.flag h hx blocked
  | @erase _ _ hx =>
    have herase := Inv.erase h hx
    rw [← (h.entries hx).1] at herase
    exact herase
  | clear => exact Inv.clear h fun g => closeAll_associations v.udp.values v.world g
  | associate hflow hvacant hassoc =>
    simp only [movingEnv] at hassoc
    split_ifs at hassoc
    obtain ⟨rfl, hrest⟩ := Prod.mk.inj (some.inj hassoc)
    obtain ⟨rfl, rfl⟩ := Prod.mk.inj hrest
    exact Inv.associate h (hF _ hflow) hvacant
  | @send _ _ _ _ _ _ hx hdirect hpackets hsend =>
    obtain ⟨-, hown, -⟩ := h.entries hx
    obtain rfl := some.inj (hpackets.symm.trans (hown hdirect))
    simp only [movingEnv] at hsend
    split_ifs at hsend with hroom
    obtain rfl := some.inj hsend
    exact Inv.send h hx hdirect (by simpa using (Bool.and_eq_true_iff.1 hroom).2) _
  | enqueue _ _ hx hdirect => exact Inv.enqueue h hx hdirect rfl
  | poll hx hdirect => exact Inv.poll h hx hdirect rfl

theorem Inv.touches (hF : ∀ flow, F flow → flow.Answerable)
    (h : Inv.Of known v) (htouches : Worker.Touches F v v') : Inv.Of known v' := by
  induction htouches with
  | refl => exact h
  | tail _ htouch ih => exact Inv.touch hF ih htouch

theorem answerable_of_admits {event : Worker.Event (movingEnv base o)} (hevent : Alone event)
    (hflow : event.admits flow) : flow.Answerable := by
  cases event with
  | packet p frame =>
    have hunicast := hevent.2 p frame rfl
    obtain ⟨hsource, hdest⟩ := hflow
    unfold Flow.Answerable replyFlow
    have hfamily : p.ip.dstAddr.isIpv4 = p.ip.srcAddr.isIpv4 := by cases p.ip <;> rfl
    rw [hsource, hdest, if_pos ⟨hfamily, hunicast⟩]
  | _ => exact hflow.elim

/-! ## Transfers -/

variable {rest : List Transfer} {t : Transfer}

theorem Inv.discard (h : Inv (t :: rest) generation udp N) :
    Inv rest generation udp (Function.update N t.id.2 ((N t.id.2).map Association.discard)) := by
  obtain ⟨a, ha, _, hstage⟩ := h.sent mem_cons_self
  obtain ⟨hfresh, hnodup⟩ := nodup_cons.1 h.nodup
  have hended : a.discard.stage = .ended := by rw [Association.discard, hstage]
  obtain ⟨hbound, hans, hholds⟩ := h.holds ha
  rw [ha]
  refine h.update le_rfl hbound hans ?_ (fun t' ht' hne => ?_) (fun _ hx => hx) (fun {flow x} hx => ?_)
    (fun {t'} ht' => .inl ⟨fun heq => hfresh (List.mem_map.2 ⟨t', ht', heq⟩), mem_cons_of_mem _ ht'⟩) hnodup
  · unfold Association.Holds
    rw [hended]
    exact hholds.cut
  · rcases mem_cons.1 ht' with rfl | ht'
    · exact absurd rfl hne
    · exact ht'
  · by_cases hg : x.generation = t.id.2
    · rw [← hg] at ha
      obtain ⟨hflow, hscope, hpackets, hmoved⟩ := h.same hx ha
      refine .inr ⟨hg, hg ▸ hscope, hg ▸ hpackets, hflow, fun hd => ?_⟩
      cases hstage.symm.trans (hmoved hd)
    · exact .inl ⟨hg, hx⟩

/-- **A transfer is installed**: the worker takes what was put back, then the queue, then the replies that wait. -/
theorem Inv.install (h : Inv (t :: rest) generation udp N)
    (hx : udp.lookup t.id.1 = some x) (hg : x.generation = t.id.2) (ha : N t.id.2 = some a) (size now : Nat) :
    Inv rest generation (udp.insert t.id.1 { x with direct := some (Direct.new size t a.queue now), packets := none })
      (Function.update N t.id.2 (some a.move)) := by
  obtain ⟨_, hb, hflow, hstage⟩ := h.sent mem_cons_self
  obtain rfl := some.inj (ha.symm.trans hb)
  obtain ⟨hfresh, -⟩ := nodup_cons.1 h.nodup
  have hnone : ∀ t' ∈ rest, t'.id.2 ≠ t.id.2 := fun t' ht' heq => hfresh (List.mem_map.2 ⟨t', ht', heq⟩)
  have hid : t.id = (a.flow, t.id.2) := Prod.ext hflow.symm rfl
  -- the transfer of the association in the channel is this one
  have hcounted : a.log.Counted a.flow (t.putBack ++ a.queue) t.io.held := by
    have hholds := (h.holds ha).2.2
    unfold Association.Holds at hholds
    rw [hstage] at hholds
    obtain ⟨t', ht', hid', hcounted⟩ := hholds
    rcases mem_cons.1 ht' with rfl | ht'
    · exact hcounted
    · exact absurd (congrArg Prod.snd hid') (hnone t' ht')
  rw [← hg] at ha ⊢
  refine h.change hx ha (y := { x with direct := some (Direct.new size t a.queue now), packets := none }) rfl rfl nofun rfl
    (fun _ => rfl) (sublist_cons_self t rest) (fun t' ht' heq => absurd (heq.trans hg) (hnone t' ht'))
    (fun t' ht' hne => ?_) ?_
  · rcases mem_cons.1 ht' with rfl | ht'
    · exact absurd hg.symm hne
    · exact ht'
  · refine ⟨{ x with direct := some (Direct.new size t a.queue now), packets := none }, Direct.new size t a.queue now, ?_,
      rfl, rfl, hg ▸ hid, le_rfl, hcounted⟩
    show (udp.insert t.id.1 _).lookup a.flow = _
    rw [hflow, lookup_insert]

/-- **A transfer keeps the invariant**, whether the worker installs it or not. -/
theorem Inv.transfer {s s' : Worker (movingEnv base o)} {w w' : base.World} {net net' : Net}
    (h : Inv (t :: rest) s.generation s.udp net.associations) (hinstall : s.install (w, net) t = (s', w', net')) :
    Inv rest s'.generation s'.udp (net'.update t.id.2 Association.discard).associations ∧
      net'.transfers = net.transfers := by
  rcases Worker.install_cases s (w, net) t with ⟨x, hx, hg, heq⟩ | heq
  · obtain ⟨a, ha, -⟩ := h.sent mem_cons_self
    have hinv := h.install hx hg ha o.size (o.answers net.calls).now
    obtain ⟨rfl, hworld⟩ := Prod.mk.inj (hinstall.symm.trans heq)
    obtain ⟨rfl, rfl⟩ := Prod.mk.inj hworld
    refine ⟨?_, rfl⟩
    have hmoved : ((net.update t.id.2 Association.move).tick.update t.id.2 Association.discard).associations =
        Function.update net.associations t.id.2 (some a.move) := by
      funext g
      by_cases hne : t.id.2 = g
      · rw [Net.update_eq hne, show (net.update _ _).tick.associations g = _ from Net.update_eq hne, ← hne, ha,
          update_self]
        rfl
      · rw [Net.update_ne hne, show (net.update _ _).tick.associations g = _ from Net.update_ne hne,
          update_of_ne (Ne.symm hne)]
    have hqueue : (net.associations t.id.2).elim [] Association.queue = a.queue := by rw [ha]; rfl
    rw [hmoved]
    rw [← hqueue] at hinv
    exact hinv
  · obtain ⟨rfl, hworld⟩ := Prod.mk.inj (hinstall.symm.trans heq)
    obtain ⟨rfl, rfl⟩ := Prod.mk.inj hworld
    exact ⟨h.discard, rfl⟩

/-! ## Runs -/

theorem touch_transfers (h : Worker.Touch F v v') : v'.world.2.transfers = v.world.2.transfers := by
  cases h with
  | tcp hcall => exact congrArg Net.transfers (tcpCall_net hcall)
  | count => rfl
  | flag => rfl
  | erase => rfl
  | clear =>
    show (v.udp.values.foldl _ v.world).2.transfers = _
    generalize v.world = w
    induction v.udp.values generalizing w with
    | nil => rfl
    | cons _ _ ih => exact ih _
  | associate _ _ hassoc =>
    simp only [movingEnv] at hassoc
    split_ifs at hassoc
    obtain ⟨rfl, hrest⟩ := Prod.mk.inj (some.inj hassoc)
    obtain ⟨rfl, rfl⟩ := Prod.mk.inj hrest
    rfl
  | send _ _ _ hsend =>
    simp only [movingEnv] at hsend
    split_ifs at hsend
    obtain rfl := some.inj hsend
    rfl
  | enqueue => rfl
  | poll => rfl

theorem touches_transfers (h : Worker.Touches F v v') : v'.world.2.transfers = v.world.2.transfers := by
  induction h with
  | refl => rfl
  | tail _ htouch ih => exact (touch_transfers htouch).trans ih

variable {m : Move base o}

/-- **The associations and the worker fit together in every run.** -/
theorem Reachable.inv (h : Reachable m) : Inv m.net.transfers m.worker.generation m.worker.udp m.net.associations := by
  induction h with
  | new => exact inv_new
  | @step m _ _ hstep ih =>
    cases hstep with
    | @worker _ _ _ net hevent hstep =>
      have htouches := Worker.step_touches hevent.1 hstep
      have hinv := Inv.touches (fun flow => answerable_of_admits hevent) (v := m.worker.view (m.world, m.net)) ih htouches
      show Inv net.transfers _ _ _
      rw [show net.transfers = m.net.transfers from touches_transfers htouches]
      exact hinv
    | @transfer t rest _ _ net hhead hstep =>
      rw [hhead] at ih
      have hnet : Inv (t :: rest) _ _ ({ m.net with transfers := rest } : Net).associations := ih
      obtain ⟨hinv, hrest⟩ := hnet.transfer (Except.ok.inj hstep)
      rw [show (net.update t.id.2 Association.discard).transfers = rest from hrest]
      exact hinv
    | session ha hstep =>
      obtain ⟨hholds, hflow, hmoved, hsent, hnew⟩ := (ih.holds ha).2.2.step hstep
      exact ih.put ha hholds hflow hmoved hsent hnew
    | world => exact ih

/-! ## The result -/

theorem find?_id {ts : List Transfer} (hnodup : (ts.map fun t => t.id.2).Nodup) (ht : t ∈ ts) :
    (ts.find? fun t' => t'.id.2 == t.id.2) = some t := by
  induction ts with
  | nil => cases ht
  | cons _ _ ih =>
    obtain ⟨hfresh, hnodup⟩ := nodup_cons.1 hnodup
    rcases mem_cons.1 ht with rfl | ht
    · exact find?_cons_of_pos (beq_self_eq_true t.id.2)
    · rw [find?_cons_of_neg, ih hnodup ht]
      intro heq
      exact hfresh (List.mem_map.2 ⟨t, ht, (beq_iff_eq.1 heq).symm⟩)

theorem Inv.counted (h : Inv m.net.transfers m.worker.generation m.worker.udp m.net.associations)
    (ha : m.net.associations g = some a) (hended : a.isEnded = false) :
    a.log.Counted a.flow (m.requests g a) (m.replies g a) := by
  have hholds := (h.holds ha).2.2
  obtain ⟨flow, stage, _, _, _⟩ := a
  cases stage with
  | sniffing => exact hholds.2
  | routing => exact hholds.2
  | driving => exact hholds.2
  | granted => exact hholds
  | sent =>
    obtain ⟨_, ht, hid, hcounted⟩ := hholds
    have hfind := find?_id h.nodup ht
    rw [hid] at hfind
    unfold Move.requests Move.replies
    simp only [Move.transfer, hfind]
    exact hcounted
  | moved =>
    obtain ⟨x, d, hx, -, hd, -, -, hcounted⟩ := hholds
    have hdirect : m.direct flow = some d := by
      rw [Move.direct, show m.worker.udp.lookup flow = some x from hx]
      exact hd
    unfold Move.requests Move.replies
    simp only [hdirect]
    exact hcounted
  | ended => cases hended

/-- **Moving an association keeps both packet sequences**, in every run. A driver that grants its transport has consumed
nothing. What the transport took is the first of what was admitted; what reached the output is the first of the replies that
the driver's queue accepted, then of the later ones; and the rest is on its way, in order, until the association ends. A
transfer of an old generation leaves the worker and the other associations alone. -/
theorem Reachable.preserves {m : Move base o} (h : Reachable m) :
    (∀ {driver driver' : Driver RoutedPacket} {count : Nat} {closed : Bool} {send : List RoutedPacket → Sent}
      {received : Protocol.PacketIo.Received (RoutedPacket × Bool)}, driver.Reachable →
      driver.poll .asked count closed send received = (.handoff, driver') → driver'.consumed = [] ∧ driver'.taken = []) ∧
    (∀ {g a}, m.net.associations g = some a → a.log.taken <+: a.log.admitted ∧
      delivered a.log.output <+: (accepted a.log.before ++ a.log.after).map a.flow.answer ∧
      (a.isEnded = false → a.log.taken ++ m.requests g a = a.log.admitted ∧
        delivered a.log.output ++ (m.replies g a).map a.flow.answer =
          (accepted a.log.before ++ a.log.after).map a.flow.answer)) ∧ ∀ {t rest s w net}, m.net.transfers = t :: rest →
      (∀ x, m.worker.udp.lookup t.id.1 = some x → x.generation ≠ t.id.2) →
      m.worker.step (m.world, { m.net with transfers := rest }) (.transfer t) = .ok (s, w, net) →
      s = m.worker ∧ w = m.world ∧
        ∀ g, g ≠ t.id.2 → (net.update t.id.2 Association.discard).associations g = m.net.associations g := by
  have hinv := h.inv
  refine ⟨fun hdriver hpoll => ?_, fun {g a} ha => ?_, fun {t rest s w net} _ hstale hstep => ?_⟩
  · obtain ⟨hconsumed, -, htaken⟩ := hdriver.unused hpoll
    exact ⟨hconsumed, htaken⟩
  · obtain ⟨-, hans, hholds⟩ := hinv.holds ha
    have hcut := hholds.cut
    refine ⟨hcut.requests, ?_, fun hended => ?_⟩
    · obtain ⟨sent, hemission, hsent⟩ := hcut.replies
      rw [hemission.delivered, hans.shows fun p hp => hcut.targets p (hsent.subset hp)]
      exact hsent.map _
    · have hcounted := hinv.counted ha hended
      obtain ⟨sent, hemission, hsent⟩ := hcounted.replies
      have htargets : a.flow.Replies sent := fun p hp => hcut.targets p (hsent ▸ mem_append_left _ hp)
      refine ⟨hcounted.requests, ?_⟩
      rw [hemission.delivered, hans.shows htargets, ← map_append, hsent]
  · have hsame := (Except.ok.inj hstep).symm.trans (Worker.install_stale hstale)
    obtain ⟨rfl, hworld⟩ := Prod.mk.inj hsame
    obtain ⟨rfl, rfl⟩ := Prod.mk.inj hworld
    exact ⟨rfl, rfl, fun g hg => Net.update_ne (Ne.symm hg)⟩

def outsideEcho : Outside where
  size := 40
  answers _ := ⟨fun packets => .ok packets.length, .ok [⟨.ip ⟨.ipv4 0x0a000002, 53⟩, [9]⟩], fun _ _ => .ok, fun _ _ => .ok, 0⟩
  room _ := true
  spawns _ := true

/-- A datagram of one byte is inspected and put back, a reply comes before the hand-off and one after it. -/
theorem preserves_echo : ∃ (m : Move Worker.scriptedEnv outsideEcho) (a : Association), Reachable m ∧
    m.net.associations 1 = some a ∧ a.log.taken.map RoutedPacket.payload = [[7]] ∧
    (delivered a.log.output).map (fun shown => shown.2.2) = [[8], [9]] ∧ a.log.taken <+: a.log.admitted := by
  have h₀ := @Reachable.new Worker.scriptedEnv outsideEcho 0 ()
  have h₁ := h₀.step (@Step.worker _ _ _ (.packet ⟨.ipv4 ⟨0x0a000001, 0x0a000002, .udp, 9, 64⟩,
    [0x0f, 0xa0, 0, 53, 0, 9, 0, 0, 7]⟩ (some ⟨[], 256, true, none⟩)) _ _ _ ⟨trivial, by rintro _ _ ⟨⟩; rfl⟩ rfl)
  have h₂ := h₁.step (@Step.session _ _ _ 1 _ _ _ rfl (.sniff rfl rfl))
  have h₃ := h₂.step (@Step.session _ _ _ 1 _ _ _ rfl (.putBack rfl))
  have h₄ := h₃.step (@Step.session _ _ _ 1 _ _ _ rfl (.connect rfl))
  have h₅ := h₄.step (@Step.session _ _ _ 1 _ _ _ rfl
    (@Association.Step.drive _ _ _ _ _ _ .pending 0 false (fun _ => .pending) (.ok [([8], true)]) rfl nofun rfl))
  have h₆ := h₅.step (@Step.session _ _ _ 1 _ _ _ rfl (.ask rfl))
  have h₇ := h₆.step (@Step.session _ _ _ 1 _ _ _ rfl
    (@Association.Step.grant _ _ _ _ _ 0 false (fun _ => .pending) .pending rfl rfl))
  have h₈ := h₇.step (@Step.session _ _ _ 1 _ _ _ rfl (.take rfl))
  have h₉ := h₈.step (@Step.transfer _ _ _ _ _ _ _ _ rfl rfl)
  have h₁₀ := h₉.step (@Step.worker _ _ _ (.ready (⟨⟨.ipv4 0x0a000001, 4000⟩, ⟨.ipv4 0x0a000002, 53⟩⟩, 1)) _ _ _
    ⟨trivial, nofun⟩ rfl)
  have h₁₁ := h₁₀.step (@Step.worker _ _ _ (.ready (⟨⟨.ipv4 0x0a000001, 4000⟩, ⟨.ipv4 0x0a000002, 53⟩⟩, 1)) _ _ _
    ⟨trivial, nofun⟩ rfl)
  refine ⟨_, _, h₁₁, rfl, rfl, rfl, ?_⟩
  exact (h₁₁.preserves.2.1 (g := 1) rfl).1

end Move

end Kotoconn.Tun
