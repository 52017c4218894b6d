import Kotoconn.Protocol.PacketIo
import Kotoconn.Tun.Transmit
import Kotoconn.Tun.Worker

/-!
# `udp_direct.rs`: a native transport on the worker

`Direct.new`, `Direct.enqueue`, `Direct.flushRequests`, `Direct.flushReplies`, `Direct.poll`: the code. Each returns
what it did: the batches offered to the transport and what was handed to the output.
-/

namespace Kotoconn.Tun
open Lib Protocol.PacketIo List

/-- `Target`, with the addresses of this crate. -/
inductive Target where
  | domain (name : String) (port : Nat)
  | ip (address : SocketAddr)
  deriving DecidableEq

/-- `p::socket_addr`; a domain is an error. -/
def socketAddr : Target → Option SocketAddr
  | .ip address => some address
  | .domain _ _ => none

/-- `p::Packet` -/
structure RoutedPacket where
  target : Target
  payload : Bytes
  deriving DecidableEq

def replyFlow (flow : Flow) (source : SocketAddr) : Option (SocketAddr × SocketAddr) :=
  if source.ip.isIpv4 = flow.source.ip.isIpv4 ∧ unicast source.ip = true then some (source, flow.source) else none

def Flow.accepts (flow : Flow) (packet : RoutedPacket) : Option (SocketAddr × SocketAddr) :=
  (socketAddr packet.target).bind (replyFlow flow)

structure Transfer where
  id : Ready
  io : BufferedPackets RoutedPacket
  putBack : List RoutedPacket

structure Direct where
  id : Ready
  io : BufferedPackets RoutedPacket
  pending : List RoutedPacket
  received : List RoutedPacket
  receivedOffset : Nat
  bytes : Nat
  capacity : Protocol.Capacity

/-- `try_reserve` on the output. -/
inductive Reserved where
  | ok
  | full
  | closed

/-- One `poll_send`: the packets that were offered, and those that left. -/
structure Offer where
  packets : List RoutedPacket
  taken : List RoutedPacket

structure Emitted where
  cost : Nat
  item : Transmit

structure Effects where
  offers : List Offer
  output : List Emitted

def taken (offers : List Offer) : List RoutedPacket := offers.flatMap Offer.taken

structure IoAnswers where
  send : List RoutedPacket → Sent
  recv : Protocol.PacketIo.Received RoutedPacket
  /-- at an offset, for a cost; before and after `poll_recv` -/
  reserve : Nat → Nat → Reserved
  reserveAgain : Nat → Nat → Reserved
  now : Nat

namespace Direct

/-- `size_of::<p::Packet>()` is `size`. -/
def cost (size : Nat) (packet : RoutedPacket) : Nat := packet.payload.length + size

def new (size : Nat) (transfer : Transfer) (queue : List RoutedPacket) (now : Nat) : Direct where
  id := transfer.id
  io := transfer.io
  pending := transfer.putBack ++ queue
  received := []
  receivedOffset := 0
  bytes := ((transfer.putBack ++ queue).map (cost size)).sum
  capacity := .new Protocol.initialBytes now

variable (size : Nat)

def flushRequests (d : Direct) (send : List RoutedPacket → Sent) (now : Nat) : List Offer × Direct :=
  if d.pending.isEmpty then ([], d)
  else
    let count := (send (d.pending.take 32)).count
    if count = 0 then ([⟨d.pending.take 32, []⟩], d)
    else
      let bytes := ((d.pending.take count).map (cost size)).sum
      ([⟨d.pending.take 32, d.pending.take count⟩],
        { d with pending := d.pending.drop count, bytes := d.bytes - bytes, capacity := d.capacity.complete bytes now })

/-- The allowance is exceeded; `target` is looked at only if something waits. -/
def exceeds (d : Direct) (packet : RoutedPacket) (now : Nat) : Bool × Direct :=
  if d.bytes = 0 then (false, d)
  else
    let (target, capacity) := d.capacity.target now
    (target < min (d.bytes + cost size packet) Protocol.usizeMax, { d with capacity })

def push (d : Direct) (packet : RoutedPacket) : Direct :=
  { d with bytes := d.bytes + cost size packet, pending := d.pending ++ [packet] }

/-- The two readings of the clock are one `now`. -/
def enqueue (d : Direct) (packet : RoutedPacket) (send : List RoutedPacket → Sent) (now : Nat) :
    Bool × List Offer × Direct :=
  match d.exceeds size packet now with
  | (false, d) => (true, [], d.push size packet)
  | (true, d) =>
    let (offers, d) := d.flushRequests size send now
    match d.exceeds size packet now with
    | (false, d) => (true, offers, d.push size packet)
    | (true, d) => (false, offers, d)

/-- The replies that join a datagram batch, at most `n`, and the cost of the batch. -/
def joining (target : Target) : Nat → (cost : Nat) → List RoutedPacket → List RoutedPacket × Nat
  | 0, cost, _ => ([], cost)
  | _ + 1, cost, [] => ([], cost)
  | n + 1, cost, next :: rest =>
    if next.target ≠ target ∨ 65536 < cost + (next.payload.length + 48) then ([], cost)
    else
      let (joined, cost) := joining target n (cost + (next.payload.length + 48)) rest
      (next :: joined, cost)

/-- The loop of `flush_replies` over the replies from `offset` on; `fuel` is their number. -/
def sendReplies (flow : Flow) (reserve : Nat → Nat → Reserved) :
    (fuel offset : Nat) → List RoutedPacket → UdpProgress × Nat × List Emitted
  | 0, offset, _ => (.idle, offset, [])
  | _ + 1, offset, [] => (.idle, offset, [])
  | fuel + 1, offset, packet :: rest =>
    match flow.accepts packet with
    | none => sendReplies flow reserve fuel (offset + 1) rest
    | some (source, destination) =>
      let (joined, cost) := joining packet.target 63 (packet.payload.length + 48) rest
      match reserve offset cost with
      | .full => (.blocked cost, offset, [])
      | .closed => (.closed, offset, [])
      | .ok =>
        let count := (packet :: joined).length
        let (progress, offset, output) := sendReplies flow reserve fuel (offset + count) ((packet :: rest).drop count)
        (progress, offset, ⟨cost, .datagrams source destination ((packet :: joined).map RoutedPacket.payload)⟩ :: output)

def flushReplies (d : Direct) (reserve : Nat → Nat → Reserved) : UdpProgress × List Emitted × Direct :=
  let (progress, offset, output) :=
    sendReplies d.id.1 reserve (d.received.length - d.receivedOffset) d.receivedOffset (d.received.drop d.receivedOffset)
  if offset = d.received.length then (progress, output, { d with received := [], receivedOffset := 0 })
  else (progress, output, { d with receivedOffset := offset })

/-- The second half of `poll`: what is handed to the output. -/
def receive (d : Direct) (answers : IoAnswers) : UdpProgress × List Emitted × Direct :=
  match d.io.pollRecv answers.recv with
  | (.ok [], io) => (.closed, [], { d with io })
  | (.ok packets, io) => { d with io, received := d.received ++ packets }.flushReplies answers.reserveAgain
  | (_, io) => (.idle, [], { d with io })

def poll (d : Direct) (answers : IoAnswers) : UdpProgress × Effects × Direct :=
  let (offers, d) := d.flushRequests size answers.send answers.now
  match d.flushReplies answers.reserve with
  | (.idle, output, d) =>
    let (progress, more, d) := d.receive answers
    (progress, ⟨offers, output ++ more⟩, d)
  | (progress, output, d) => (progress, ⟨offers, output⟩, d)

def waiting (d : Direct) : List RoutedPacket := d.received.drop d.receivedOffset

def held (d : Direct) : List RoutedPacket := d.waiting ++ d.io.held

/-- What the transport gives when it is asked; replies that are buffered come before it. -/
def fresh (d : Direct) (answers : IoAnswers) : List RoutedPacket :=
  if d.io.held.isEmpty then answers.recv.packets else []

/-- What the transport gives in a turn of `poll`: it is asked if all that was received before has left. -/
def given (d : Direct) (answers : IoAnswers) : List RoutedPacket :=
  match (d.flushReplies answers.reserve).1 with
  | .idle => d.fresh answers
  | _ => []

end Direct

/-! ## Batches -/

structure Batch (flow : Flow) (packets : List RoutedPacket) (e : Emitted) : Prop where
  nonempty : packets ≠ []
  length : packets.length ≤ 64
  source : ∃ target source destination, (∀ packet ∈ packets, packet.target = target) ∧
    (∀ packet ∈ packets, flow.accepts packet = some (source, destination)) ∧
    e.item = .datagrams source destination (packets.map RoutedPacket.payload)
  cost : ∀ handle, e.cost = e.item.size handle
  bounded : packets.length = 1 ∨ e.cost ≤ 65536

/-- Replies that left in order: batches of consecutive ones, without those that the client cannot be shown. -/
inductive Emission (flow : Flow) : List RoutedPacket → List Emitted → Prop
  | nil : Emission flow [] []
  | skip {packet : RoutedPacket} {packets : List RoutedPacket} {output : List Emitted} (hnone : flow.accepts packet = none)
      (h : Emission flow packets output) : Emission flow (packet :: packets) output
  | batch {packets rest : List RoutedPacket} {e : Emitted} {output : List Emitted} (hbatch : Batch flow packets e)
      (h : Emission flow rest output) : Emission flow (packets ++ rest) (e :: output)

variable {flow : Flow}

theorem Emission.append {packets more : List RoutedPacket} {output output' : List Emitted}
    (h : Emission flow packets output) (h' : Emission flow more output') :
    Emission flow (packets ++ more) (output ++ output') := by
  induction h with
  | nil => exact h'
  | skip hnone _ ih => exact .skip hnone ih
  | batch hbatch _ ih =>
    rw [append_assoc]
    exact .batch hbatch ih

def Transmit.datagramsOf : Transmit → List (SocketAddr × SocketAddr × Bytes)
  | .datagrams source destination payload => payload.map fun bytes => (source, destination, bytes)
  | _ => []

def delivered (output : List Emitted) : List (SocketAddr × SocketAddr × Bytes) := output.flatMap fun e => e.item.datagramsOf

def Flow.shows (flow : Flow) (packets : List RoutedPacket) : List (SocketAddr × SocketAddr × Bytes) :=
  packets.filterMap fun packet => (flow.accepts packet).map fun r => (r.1, r.2, packet.payload)

theorem Flow.shows_append (flow : Flow) (packets more : List RoutedPacket) :
    flow.shows (packets ++ more) = flow.shows packets ++ flow.shows more := filterMap_append

variable {packets : List RoutedPacket}

theorem Batch.delivered {e : Emitted} (h : Batch flow packets e) : e.item.datagramsOf = flow.shows packets := by
  obtain ⟨_, source, _, -, haccepts, hitem⟩ := h.source
  rw [hitem, Transmit.datagramsOf, List.map_map, Flow.shows, ← filterMap_eq_map]
  refine filterMap_congr fun packet hpacket => ?_
  rw [haccepts packet hpacket]
  rfl

variable {output : List Emitted}

/-- **The client sees the replies that it can be shown**, once and in order. -/
theorem Emission.delivered (h : Emission flow packets output) : delivered output = flow.shows packets := by
  induction h with
  | nil => rfl
  | @skip _ _ _ hnone _ ih =>
    rw [ih, Flow.shows, Flow.shows, filterMap_cons_none]
    rw [hnone]
    rfl
  | @batch _ _ _ _ hbatch _ ih =>
    rw [Flow.shows_append, ← hbatch.delivered, ← ih]
    rfl

namespace Direct
variable {size : Nat} {d d' : Direct}

/-! ## Requests -/

structure SameReplies (d d' : Direct) : Prop where
  id : d'.id = d.id
  io : d'.io = d.io
  received : d'.received = d.received
  receivedOffset : d'.receivedOffset = d.receivedOffset

theorem SameReplies.refl (d : Direct) : SameReplies d d := ⟨rfl, rfl, rfl, rfl⟩

theorem SameReplies.trans {d'' : Direct} (h : SameReplies d d') (h' : SameReplies d' d'') : SameReplies d d'' :=
  ⟨h'.id.trans h.id, h'.io.trans h.io, h'.received.trans h.received, h'.receivedOffset.trans h.receivedOffset⟩

theorem SameReplies.waiting (h : SameReplies d d') : d'.waiting = d.waiting := by
  unfold Direct.waiting
  rw [h.received, h.receivedOffset]

theorem SameReplies.held (h : SameReplies d d') : d'.held = d.held := by
  unfold Direct.held
  rw [h.waiting, h.io]

theorem SameReplies.given (h : SameReplies d d') (answers : IoAnswers) : d'.given answers = d.given answers := by
  unfold Direct.given Direct.fresh flushReplies
  rw [h.id, h.io, h.received, h.receivedOffset]
  simp only
  split_ifs <;> rfl

theorem flushRequests_spec (size : Nat) (d : Direct) (send : List RoutedPacket → Sent) (now : Nat) :
    taken (d.flushRequests size send now).1 ++ (d.flushRequests size send now).2.pending = d.pending ∧
      SameReplies d (d.flushRequests size send now).2 := by
  unfold flushRequests
  split_ifs
  · exact ⟨rfl, .refl d⟩
  · simp only
    split_ifs
    · exact ⟨rfl, .refl d⟩
    · refine ⟨?_, rfl, rfl, rfl, rfl⟩
      rw [taken, flatMap_singleton]
      exact take_append_drop _ _

theorem exceeds_spec (size : Nat) (d : Direct) (packet : RoutedPacket) (now : Nat) :
    (d.exceeds size packet now).2.pending = d.pending ∧ SameReplies d (d.exceeds size packet now).2 := by
  unfold exceeds
  split_ifs
  · exact ⟨rfl, .refl d⟩
  · exact ⟨rfl, rfl, rfl, rfl, rfl⟩

/-- **A packet is queued last, or refused**; the transport may take some that wait. -/
theorem enqueue_spec {packet : RoutedPacket} {send : List RoutedPacket → Sent} {now : Nat} {ok : Bool}
    {offers : List Offer} (h : d.enqueue size packet send now = (ok, offers, d')) :
    taken offers ++ d'.pending = d.pending ++ (if ok then [packet] else []) ∧ SameReplies d d' := by
  obtain ⟨hpending, hsame⟩ := exceeds_spec size d packet now
  unfold enqueue at h
  rcases hexceeds : d.exceeds size packet now with ⟨exceeds, d₁⟩
  rw [hexceeds] at h hpending hsame
  cases exceeds with
  | false =>
    cases h
    exact ⟨congrArg (· ++ [packet]) hpending, hsame.id, hsame.io, hsame.received, hsame.receivedOffset⟩
  | true =>
    obtain ⟨hpending₁, hsame₁⟩ := flushRequests_spec size d₁ send now
    obtain ⟨hpending₂, hsame₂⟩ := exceeds_spec size (d₁.flushRequests size send now).2 packet now
    have hall := (hsame.trans hsame₁).trans hsame₂
    have hqueue := (congrArg _ hpending₂).trans (hpending₁.trans hpending)
    simp only at h
    rcases hexceeds₂ : (d₁.flushRequests size send now).2.exceeds size packet now with ⟨exceeds₂, d₂⟩
    rw [hexceeds₂] at h hall hqueue
    cases exceeds₂ with
    | false =>
      cases h
      refine ⟨?_, hall.id, hall.io, hall.received, hall.receivedOffset⟩
      exact (append_assoc _ _ _).symm.trans (congrArg (· ++ [packet]) hqueue)
    | true =>
      cases h
      exact ⟨hqueue.trans (append_nil _).symm, hall⟩

/-! ## Replies -/

theorem joining_spec (target : Target) (n cost : Nat) (rest : List RoutedPacket) :
    (joining target n cost rest).1 <+: rest ∧ (joining target n cost rest).1.length ≤ n ∧
      (∀ packet ∈ (joining target n cost rest).1, packet.target = target) ∧ (joining target n cost rest).2 =
        cost + ((joining target n cost rest).1.map fun packet => packet.payload.length + 48).sum ∧
      ((joining target n cost rest).1 = [] ∨ (joining target n cost rest).2 ≤ 65536) := by
  induction n generalizing cost rest with
  | zero => exact ⟨ nil_prefix, le_rfl, nofun, rfl, .inl rfl⟩
  | succ _ ih =>
    cases rest with
    | nil => exact ⟨ nil_prefix, zero_le, nofun, rfl, .inl rfl⟩
    | cons next rest =>
      obtain ⟨hhead, hlength, htarget, hcost, hbound⟩ := ih (cost + (next.payload.length + 48)) rest
      unfold joining
      split_ifs with hstop
      · exact ⟨ nil_prefix, zero_le, nofun, rfl, .inl rfl⟩
      · obtain ⟨hnext, hfits⟩ := not_or.1 hstop
        refine ⟨cons_prefix_cons.2 ⟨rfl, hhead⟩, Nat.succ_le_succ hlength, ?_, ?_, .inr ?_⟩
        · intro packet hpacket
          rcases mem_cons.1 hpacket with rfl | hpacket
          · exact not_not.1 hnext
          · exact htarget packet hpacket
        · rw [hcost, map_cons, sum_cons, add_assoc]
        · rcases hbound with hnil | hbound
          · rw [hcost, hnil]
            exact not_lt.1 hfits
          · exact hbound

theorem batch_joining {packet : RoutedPacket} {rest : List RoutedPacket} {source destination : SocketAddr}
    (haccepts : flow.accepts packet = some (source, destination)) {joined : List RoutedPacket} {cost : Nat}
    (h : joining packet.target 63 (packet.payload.length + 48) rest = (joined, cost)) : Batch flow (packet :: joined)
      ⟨cost, .datagrams source destination ((packet :: joined).map RoutedPacket.payload)⟩ := by
  obtain ⟨-, hlength, htarget, hcost, hbound⟩ := joining_spec packet.target 63 (packet.payload.length + 48) rest
  rw [h] at hlength htarget hcost hbound
  have hsame : ∀ p ∈ packet :: joined, p.target = packet.target := fun p hp => by
    rcases mem_cons.1 hp with rfl | hp
    · rfl
    · exact htarget p hp
  refine ⟨cons_ne_nil _ _, Nat.succ_le_succ hlength, ⟨packet.target, source, destination, hsame, ?_, rfl⟩, ?_, ?_⟩
  · intro p hp
    rw [Flow.accepts, hsame p hp]
    exact haccepts
  · intro handle
    show cost = (((packet :: joined).map RoutedPacket.payload).map fun bytes => bytes.length + 48).sum
    rw [List.map_map]
    exact hcost
  · rcases hbound with hnil | hbound
    · exact .inl (congrArg (fun l => (packet :: l).length) hnil)
    · exact .inr hbound

variable {progress : UdpProgress}

/-- **Replies reach the output in order**: those that left are the first, and all left unless the output refuses. -/
theorem sendReplies_spec {reserve : Nat → Nat → Reserved} {fuel offset : Nat}
    (hfuel : packets.length ≤ fuel) {offset' : Nat}
    (h : sendReplies flow reserve fuel offset packets = (progress, offset', output)) :
    ∃ sent rest, packets = sent ++ rest ∧ offset' = offset + sent.length ∧ Emission flow sent output ∧
      (progress = .idle → rest = []) := by
  induction fuel generalizing offset packets progress offset' output with
  | zero =>
    cases h
    exact ⟨[], packets, rfl, rfl, .nil, fun _ => length_eq_zero_iff.1 (Nat.le_zero.1 hfuel)⟩
  | succ fuel ih =>
    cases packets with
    | nil =>
      cases h
      exact ⟨[], [], rfl, rfl, .nil, fun _ => rfl⟩
    | cons packet rest =>
      rw [length_cons] at hfuel
      unfold sendReplies at h
      cases haccepts : flow.accepts packet with
      | none =>
        simp only [haccepts] at h
        obtain ⟨sent, rest', rfl, rfl, hemission, hidle⟩ := ih (Nat.le_of_succ_le_succ hfuel) h
        refine ⟨packet :: sent, rest', rfl, ?_, .skip haccepts hemission, hidle⟩
        rw [length_cons]
        omega
      | some addresses =>
        obtain ⟨_, _⟩ := addresses
        rcases hjoining : joining packet.target 63 (packet.payload.length + 48) rest with ⟨joined, cost⟩
        simp only [haccepts, hjoining] at h
        have hbatch := batch_joining haccepts hjoining
        cases hreserve : reserve offset cost with
        | full =>
          simp only [hreserve] at h
          cases h
          exact ⟨[], _, rfl, rfl, .nil, nofun⟩
        | closed =>
          simp only [hreserve] at h
          cases h
          exact ⟨[], _, rfl, rfl, .nil, nofun⟩
        | ok =>
          obtain ⟨⟨later, hlater⟩, -⟩ := joining_spec packet.target 63 (packet.payload.length + 48) rest
          rw [hjoining] at hlater
          subst hlater
          have hdrop : (packet :: (joined ++ later)).drop (packet :: joined).length = later := drop_left
          simp only [hreserve, hdrop] at h
          rcases hmore : sendReplies flow reserve fuel (offset + (packet :: joined).length) later
            with ⟨progress₁, offset₁, output₁⟩
          rw [hmore] at h
          cases h
          have hlength : later.length ≤ fuel := by
            rw [length_append] at hfuel
            omega
          obtain ⟨sent, rest, rfl, rfl, hemission, hidle⟩ := ih hlength hmore
          refine ⟨packet :: joined ++ sent, rest, ?_, ?_, .batch hbatch hemission, hidle⟩
          · rw [cons_append, cons_append, append_assoc]
          · rw [length_append, add_assoc]

structure SameRequests (d d' : Direct) : Prop where
  id : d'.id = d.id
  pending : d'.pending = d.pending
  bytes : d'.bytes = d.bytes
  capacity : d'.capacity = d.capacity

def Replying (d : Direct) : Prop := d.receivedOffset ≤ d.received.length

/-- **Replies leave in order**, and what did not leave waits. -/
theorem flushReplies_spec (hd : Replying d) {reserve : Nat → Nat → Reserved}
    (h : d.flushReplies reserve = (progress, output, d')) :
    ∃ sent, d.waiting = sent ++ d'.waiting ∧ Emission d.id.1 sent output ∧ (progress = .idle → d'.waiting = []) ∧
      SameRequests d d' ∧ d'.io = d.io ∧ Replying d' := by
  unfold flushReplies at h
  rcases hsend : sendReplies d.id.1 reserve (d.received.length - d.receivedOffset) d.receivedOffset
    (d.received.drop d.receivedOffset) with ⟨progress₁, offset, output₁⟩
  rw [hsend] at h
  obtain ⟨sent, rest, hsplit, hoffset, hemission, hidle⟩ := sendReplies_spec (by rw [length_drop]) hsend
  have hlength : sent.length + rest.length = d.received.length - d.receivedOffset := by
    rw [← length_append, ← hsplit, length_drop]
  have hbound : d.receivedOffset ≤ d.received.length := hd
  by_cases hall : offset = d.received.length
  · simp only [if_pos hall] at h
    cases h
    have hnone : rest = [] := length_eq_zero_iff.1 (by omega)
    subst hnone
    exact ⟨sent, hsplit, hemission, fun _ => rfl, ⟨rfl, rfl, rfl, rfl⟩, rfl, le_rfl⟩
  · simp only [if_neg hall] at h
    cases h
    have hdrop : d.received.drop offset = rest := by rw [hoffset, ← drop_drop, hsplit, drop_left]
    refine ⟨sent, ?_, hemission, fun hprogress => hdrop.trans (hidle hprogress), ⟨rfl, rfl, rfl, rfl⟩, rfl, ?_⟩
    · exact hsplit.trans (congrArg (sent ++ ·) hdrop.symm)
    · show offset ≤ d.received.length
      omega

/-- **What the transport gives is handed to the output after what waited.** -/
theorem receive_spec (hd : Replying d) (hnone : d.waiting = []) {answers : IoAnswers}
    (h : d.receive answers = (progress, output, d')) :
    (∃ sent, sent ++ d'.held = d.io.held ++ d.fresh answers ∧ Emission d.id.1 sent output) ∧
      (progress = .idle → d'.waiting = []) ∧ SameRequests d d' ∧ Replying d' := by
  unfold receive at h
  have hspec := BufferedPackets.pollRecv_spec d.io answers.recv
  rcases hrecv : d.io.pollRecv answers.recv with ⟨answer, io⟩
  rw [hrecv] at hspec
  simp only [hrecv] at h
  -- buffered replies come before those of the transport
  have hgiven : answer.packets ++ io.held = d.io.held ++ d.fresh answers := by
    unfold fresh
    rcases hspec with ⟨hanswer, hheld, hio⟩ | ⟨out, hanswer, hne, hheld⟩
    · cases hanswer
      rw [hheld, hio, append_nil]
      rfl
    · cases hanswer
      rw [hheld, if_neg (by simp [hne]), append_nil]
      rfl
  have hempty : answer.packets = [] → Direct.held { d with io } = d.io.held ++ d.fresh answers := fun hnil => by
    rw [← hgiven, hnil]
    exact congrArg (· ++ io.held) hnone
  cases answer with
  | pending =>
    cases h
    exact ⟨⟨[], hempty rfl, .nil⟩, fun _ => hnone, ⟨rfl, rfl, rfl, rfl⟩, hd⟩
  | error =>
    cases h
    exact ⟨⟨[], hempty rfl, .nil⟩, fun _ => hnone, ⟨rfl, rfl, rfl, rfl⟩, hd⟩
  | ok packets =>
    cases packets with
    | nil =>
      cases h
      exact ⟨⟨[], hempty rfl, .nil⟩, nofun, ⟨rfl, rfl, rfl, rfl⟩, hd⟩
    | cons packet packets =>
      obtain ⟨d₁, hd₁⟩ : ∃ d₁ : Direct, d₁ = { d with io, received := d.received ++ packet :: packets } := ⟨_, rfl⟩
      simp only [← hd₁] at h
      have hwaiting : d₁.waiting = packet :: packets := by
        rw [hd₁, Direct.waiting, drop_append_of_le_length hd]
        exact congrArg (· ++ packet :: packets) hnone
      have hreplying : Replying d₁ := by
        rw [hd₁, Replying]
        exact le_trans hd (length_append ▸ le_self_add)
      obtain ⟨sent, hsent, hemission, hidle, hsame, hio, hd₂⟩ := flushReplies_spec hreplying h
      rw [hd₁] at hio
      have hid : d₁.id = d.id := by rw [hd₁]
      refine ⟨⟨sent, ?_, hid ▸ hemission⟩, hidle, ?_, hd₂⟩
      · rw [Direct.held, ← append_assoc, ← hsent, hwaiting, hio, ← hgiven]
        rfl
      · rw [hd₁] at hsame
        exact ⟨hsame.id, hsame.pending, hsame.bytes, hsame.capacity⟩

/-- **A turn loses and reorders nothing**: requests leave from the front, and replies reach the output as they came. -/
theorem poll_spec (hd : Replying d) {answers : IoAnswers} {effects : Effects}
    (h : d.poll size answers = (progress, effects, d')) :
    (d.flushRequests size answers.send answers.now).1 = effects.offers ∧
      SameRequests (d.flushRequests size answers.send answers.now).2 d' ∧
      (∃ sent, sent ++ d'.held = d.held ++ d.given answers ∧ Emission d.id.1 sent effects.output) ∧
      (progress = .idle → d'.waiting = []) ∧ Replying d' := by
  obtain ⟨-, hsame⟩ := flushRequests_spec size d answers.send answers.now
  unfold poll at h
  rcases hrequests : d.flushRequests size answers.send answers.now with ⟨offers, d₁⟩
  rw [hrequests] at h hsame
  rw [← hsame.given]
  have hreplying : Replying d₁ := by
    rw [Replying, hsame.receivedOffset, hsame.received]
    exact hd
  rcases hreplies : d₁.flushReplies answers.reserve with ⟨progress₁, output, d₂⟩
  obtain ⟨sent, hsent, hemission, hidle, hsame₂, hio, hd₂⟩ := flushReplies_spec hreplying hreplies
  rw [hsame.id] at hemission
  rw [hsame.waiting] at hsent
  have hheld : sent ++ d₂.held = d.held ++ [] := by
    rw [Direct.held, Direct.held, ← append_assoc, ← hsent, hio, hsame.io, append_nil]
  simp only [hreplies] at h
  cases progress₁ with
  | closed =>
    cases h
    exact ⟨rfl, hsame₂, ⟨sent, by rwa [given, hreplies], hemission⟩, nofun, hd₂⟩
  | blocked =>
    cases h
    exact ⟨rfl, hsame₂, ⟨sent, by rwa [given, hreplies], hemission⟩, nofun, hd₂⟩
  | idle =>
    rcases hreceive : d₂.receive answers with ⟨progress₃, more, d₃⟩
    obtain ⟨⟨sent₃, hheld₃, hemission₃⟩, hidle₃, hsame₃, hd₃⟩ := receive_spec hd₂ (hidle rfl) hreceive
    simp only [hreceive] at h
    cases h
    rw [hsame₂.id, hsame.id] at hemission₃
    refine ⟨rfl, ?_, ⟨sent ++ sent₃, ?_, hemission.append hemission₃⟩, hidle₃, hd₃⟩
    · exact ⟨hsame₃.id.trans hsame₂.id, hsame₃.pending.trans hsame₂.pending, hsame₃.bytes.trans hsame₂.bytes,
        hsame₃.capacity.trans hsame₂.capacity⟩
    · have hio₂ : d₂.io.held = d₂.held := by rw [Direct.held, hidle rfl, nil_append]
      have hgiven : d₁.given answers = d₂.fresh answers := by rw [given, hreplies, fresh, fresh, hio]
      rw [append_assoc, hheld₃, hio₂, ← append_assoc, hheld, append_nil, hgiven]

end Direct

end Kotoconn.Tun
