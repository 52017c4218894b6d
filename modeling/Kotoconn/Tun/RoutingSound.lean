import Kotoconn.Tun.Fragments.Poison
import Kotoconn.Tun.Offload.Dispatch
import Kotoconn.Tun.RoutingSteps
import Kotoconn.Tun.WorkerSound

/-! # Every flow is handled by one worker -/

namespace Kotoconn.Tun.Routing

open Lib List Option Function

variable {A : Type} {e : RoutingEnv A}

/-! ## The flow of a frame -/

def Ports (data : Bytes) (source destination : Nat) : Prop :=
  ∃ s1 s0 d1 d0 rest, data = s1 :: s0 :: d1 :: d0 :: rest ∧ source = s1.toNat * 256 + s0.toNat ∧
    destination = d1.toNat * 256 + d0.toNat

structure Laws (e : RoutingEnv A) : Prop where
  lengths : e.pipeline.wire.LengthChecks
  headers : e.pipeline.wire.Local
  setLen : e.device.KeepsLength
  tcpPorts : ∀ {data src dst verified repr}, e.worker.transport.tcpChecked data = true →
    e.worker.transport.tcpParse data src dst verified = some repr → Ports data repr.srcPort repr.dstPort
  udpPorts : ∀ {data}, e.worker.transport.udp.udpChecked data = true →
    Ports data (e.worker.transport.udp.udp data).srcPort (e.worker.transport.udp.udp data).dstPort

def wholePacket (p : Parsed) : Packet := ⟨p.ip.setPayloadLen p.payload.length, p.payload⟩

theorem firstRoute_eq {p : Parsed} {source destination : Nat} (hwhole : p.fragment = none)
    (hnext : p.ip.nextHeader = .tcp ∨ p.ip.nextHeader = .udp) (hports : Ports p.payload source destination)
    (hne : destination ≠ 0) :
    p.route = some (.flow p.ip.nextHeader.number ⟨⟨p.ip.srcAddr, source⟩, ⟨p.ip.dstAddr, destination⟩⟩) := by
  obtain ⟨_, _, _, _, _, hpayload, rfl, rfl⟩ := hports
  have hkey : p.fragmentKey = none := by simp [Parsed.fragmentKey, hwhole]
  have htransport : ¬ (p.ip.nextHeader ≠ .tcp ∧ p.ip.nextHeader ≠ .udp) := by tauto
  simp only [Parsed.route, hkey, Parsed.firstRoute, hwhole, any_none, Bool.false_eq_true, if_false, htransport,
    hpayload]
  rw [if_pos hne]

/-- **The transport parsers find the flow that `route` found.** -/
theorem routeKey_route (h : Laws e) {p : Parsed} {verified : Bool} {key : RouteKey} (hwhole : p.fragment = none)
    (hkey : (wholePacket p).routeKey e.worker.transport verified = some key) : p.route = some key := by
  have hnext : (wholePacket p).ip.nextHeader = p.ip.nextHeader := by
    unfold wholePacket
    cases p.ip <;> rfl
  unfold Packet.routeKey at hkey
  rw [hnext] at hkey
  split at hkey
  · next htcp =>
      obtain ⟨⟨flow, _⟩, hfound, rfl⟩ := map_eq_some_iff.1 hkey
      unfold Packet.tcpWithChecksum at hfound
      split_ifs at hfound with hchecked
      obtain ⟨_, hparse, hfound⟩ := bind_eq_some_iff.1 hfound
      obtain ⟨_, hflow, hfound⟩ := bind_eq_some_iff.1 hfound
      cases hfound
      unfold Packet.flow at hflow
      split_ifs at hflow with hne
      cases hflow
      rw [firstRoute_eq hwhole (.inl htcp) (h.tcpPorts hchecked hparse) hne, htcp]
      simp [wholePacket]
  · next hudp =>
      obtain ⟨⟨_, _⟩, hfound, rfl⟩ := map_eq_some_iff.1 hkey
      unfold Packet.udpWithChecksum at hfound
      dsimp only at hfound
      split_ifs at hfound with hchecked _ _ hne
      cases hfound
      rw [firstRoute_eq hwhole (.inr hudp) (h.udpPorts hchecked) hne, hudp]
      simp [wholePacket]
  · cases hkey

theorem fromDevice_unfragmented (h : Laws e) {received : Received} (hdevice : e.FromDevice received)
    (hmarked : received.Marked) {p : Parsed} (hp : (parse e.pipeline.wire received.bytes).result = .ok p) :
    p.fragment = none := by
  rcases hdevice with hplain | ⟨offload, frame, hpoll⟩
  · exact absurd hmarked hplain
  · rw [← e.ip_eq] at hp
    exact OffloadWire.pollFrame_unfragmented (e.ip_eq ▸ h.lengths) (e.ip_eq ▸ h.headers) h.setLen hpoll hmarked hp

/-! ## The invariant -/

def State.Held (s : State e) (frame : Frame) : Prop := s.frames[frame.serial]? = some frame.received

def WholeAt (e : RoutingEnv A) (frame : Frame) (p : Parsed) (w : Nat) : Prop :=
  (parse e.pipeline.wire frame.received.bytes).result = .ok p ∧ p.fragment = none ∧
    ∃ key, p.route = some key ∧ e.pipeline.owner key = w

structure Call.Sound (s : State e) (w : Nat) (c : Call) : Prop where
  held : s.Held c.frame
  whole : c.origin = .whole → ∃ p, WholeAt e c.frame p w ∧ c.packet = wholePacket p
  datagram : c.origin ≠ .whole → ∃ b, (b, c.frame) ∈ s.pipeline.decoded
  reassembled : c.origin = .reassembled →
    ∃ key, c.packet.routeKey e.worker.transport false = some key ∧ e.pipeline.owner key = w

structure HopSound (s : State e) (h : Frame × Hop) : Prop where
  held : s.Held h.1
  raw : h.2 = .raw → ∃ p, (parse e.pipeline.wire h.1.received.bytes).result = .ok p ∧ p.fragment = none
  batch : h.2 = .batch → ∃ b, (b, h.1) ∈ s.pipeline.routed ∧ ¬ s.pipeline.Unsent e.pipeline (b, h.1)
  reassembled : h.2 = .reassembled → ∃ b, (b, h.1) ∈ s.pipeline.decoded

def Call.mark (c : Nat × Call) : Option (Nat × Hop) :=
  if c.2.origin = .completed then some (c.2.frame.serial, .reassembled) else none

def State.marks (s : State e) : List (Nat × Hop) :=
  s.hops.map (fun h => (h.1.serial, h.2)) ++ s.calls.filterMap Call.mark

structure Base (s : State e) : Prop where
  pipeline : Pipeline.Inv e.pipeline s.pipeline
  ledger : Pipeline.Ledger e.pipeline s.pipeline
  reads : s.pipeline.reads = s.frames.length
  device : ∀ received ∈ s.frames, e.FromDevice received
  inbox : ∀ {w frame}, .frame frame ∈ (s.pipeline.workers w).inbox → s.Held frame ∧ ∃ p, WholeAt e frame p w
  routed : ∀ x ∈ s.pipeline.routed, s.Held x.2 ∧
    ∃ p, (parse e.pipeline.wire x.2.received.bytes).result = .ok p ∧ p.fragment ≠ none

structure Inv (s : State e) : Prop extends Base s where
  ids : ∀ w, (s.tables w).id = w
  calls : ∀ x ∈ s.calls, Call.Sound s x.1 x.2
  handled : ∀ x ∈ s.handled, Call.Sound s x.1 x.2.1 ∧ ∀ {key}, x.2.2.key = some key →
    x.2.1.packet.routeKey e.worker.transport (x.2.1.received.any Received.checksumVerified) = some key ∧
      e.pipeline.owner key = x.1
  hops : ∀ h ∈ s.hops, HopSound s h
  once : s.marks.Nodup

structure Grows (s s' : State e) : Prop where
  held : ∀ {frame}, s.Held frame → s'.Held frame
  routed : ∀ {x}, x ∈ s.pipeline.routed → x ∈ s'.pipeline.routed
  decoded : ∀ {x}, x ∈ s.pipeline.decoded → x ∈ s'.pipeline.decoded
  unsent : ∀ {x}, x ∈ s.pipeline.routed → s'.pipeline.Unsent e.pipeline x → s.pipeline.Unsent e.pipeline x

variable {s s' : State e}

theorem Call.Sound.mono {w : Nat} {c : Call} (h : Call.Sound s w c) (hg : Grows s s') : Call.Sound s' w c :=
  ⟨hg.held h.held, h.whole, fun ho => (h.datagram ho).imp fun _ => hg.decoded, h.reassembled⟩

theorem HopSound.mono {hop : Frame × Hop} (h : HopSound s hop) (hg : Grows s s') : HopSound s' hop := by
  refine ⟨hg.held h.held, h.raw, fun hb => ?_, fun hr => (h.reassembled hr).imp fun _ => hg.decoded⟩
  obtain ⟨b, hrouted, hsent⟩ := h.batch hb
  exact ⟨b, hg.routed hrouted, fun hu => hsent (hg.unsent hrouted hu)⟩

/-! ### Marks -/

theorem mem_marks {m : Nat × Hop} : m ∈ s.marks ↔ (∃ h ∈ s.hops, (h.1.serial, h.2) = m) ∨
    ∃ c ∈ s.calls, c.2.origin = .completed ∧ (c.2.frame.serial, Hop.reassembled) = m := by
  simp only [State.marks, mem_append, List.mem_map, mem_filterMap, Call.mark, ite_none_right_eq_some,
    Option.some.injEq]

theorem Inv.mark_raw (h : Inv s) {n : Nat} (hm : (n, .raw) ∈ s.marks) : n < s.frames.length := by
  rcases mem_marks.1 hm with ⟨hop, hhop, heq⟩ | ⟨c, -, -, heq⟩
  · obtain ⟨rfl, -⟩ := Prod.mk.inj heq
    exact (List.getElem?_eq_some_iff.1 (h.hops hop hhop).held).1
  · cases heq

theorem Inv.mark_batch (h : Inv s) {n : Nat} (hm : (n, .batch) ∈ s.marks) :
    ∃ x ∈ s.pipeline.routed, x.2.serial = n ∧ ¬ s.pipeline.Unsent e.pipeline x := by
  rcases mem_marks.1 hm with ⟨hop, hhop, heq⟩ | ⟨c, -, -, heq⟩
  · obtain ⟨rfl, hbatch⟩ := Prod.mk.inj heq
    obtain ⟨_, hrouted, hsent⟩ := (h.hops hop hhop).batch hbatch
    exact ⟨_, hrouted, rfl, hsent⟩
  · cases heq

theorem Inv.mark_reassembled (h : Inv s) {n : Nat} (hm : (n, .reassembled) ∈ s.marks) :
    ∃ x ∈ s.pipeline.decoded, x.2.serial = n := by
  rcases mem_marks.1 hm with ⟨hop, hhop, heq⟩ | ⟨c, hc, hcompleted, heq⟩
  · obtain ⟨rfl, hkind⟩ := Prod.mk.inj heq
    obtain ⟨b, hdecoded⟩ := (h.hops hop hhop).reassembled hkind
    exact ⟨_, hdecoded, rfl⟩
  · obtain ⟨rfl, -⟩ := Prod.mk.inj heq
    obtain ⟨_, hdecoded⟩ := (h.calls c hc).datagram (by rw [hcompleted]; nofun)
    exact ⟨_, hdecoded, rfl⟩

theorem Inv.marks_append (h : Inv s) {calls : List (Nat × Call)} {hops : List (Frame × Hop)}
    (hcalls : s'.calls = s.calls ++ calls) (hhops : s'.hops = s.hops ++ hops)
    (hnew : (hops.map (fun h => (h.1.serial, h.2)) ++ calls.filterMap Call.mark).Nodup)
    (hfresh : ∀ m ∈ hops.map (fun h => (h.1.serial, h.2)) ++ calls.filterMap Call.mark, m ∉ s.marks) :
    s'.marks.Nodup := by
  have hperm : s'.marks.Perm (s.marks ++ (hops.map (fun h => (h.1.serial, h.2)) ++ calls.filterMap Call.mark)) := by
    unfold State.marks
    rw [hcalls, hhops, map_append, filterMap_append, append_assoc, append_assoc]
    refine List.Perm.append_left _ ?_
    rw [← append_assoc, ← append_assoc]
    exact List.Perm.append_right _ perm_append_comm
  rw [hperm.nodup_iff, nodup_append]
  exact ⟨h.once, hnew, fun m hm n hn heq => hfresh n hn (heq ▸ hm)⟩

/-! ### The pipeline -/

theorem Inv.extend (h : Inv s) (hg : Grows s s') (hbase : Base s') {calls : List (Nat × Call)}
    {hops : List (Frame × Hop)} (hcalls : s'.calls = s.calls ++ calls) (hhops : s'.hops = s.hops ++ hops)
    (hhandled : s'.handled = s.handled) (htables : s'.tables = s.tables)
    (hcalled : ∀ x ∈ calls, Call.Sound s' x.1 x.2) (hhopped : ∀ h ∈ hops, HopSound s' h)
    (hnew : (hops.map (fun h => (h.1.serial, h.2)) ++ calls.filterMap Call.mark).Nodup)
    (hfresh : ∀ m ∈ hops.map (fun h => (h.1.serial, h.2)) ++ calls.filterMap Call.mark, m ∉ s.marks) : Inv s' where
  toBase := hbase
  ids := htables ▸ h.ids
  calls x hx := by
    rw [hcalls] at hx
    exact (mem_append.1 hx).elim (fun hx => (h.calls x hx).mono hg) (hcalled x)
  handled x hx := by
    rw [hhandled] at hx
    exact ⟨(h.handled x hx).1.mono hg, (h.handled x hx).2⟩
  hops x hx := by
    rw [hhops] at hx
    exact (mem_append.1 hx).elim (fun hx => (h.hops x hx).mono hg) (hhopped x)
  once := h.marks_append hcalls hhops hnew hfresh

theorem Inv.extend_calls (h : Inv s) (hg : Grows s s') (hbase : Base s') {calls : List (Nat × Call)}
    (hcalls : s'.calls = s.calls ++ calls) (hhops : s'.hops = s.hops ++ []) (hhandled : s'.handled = s.handled)
    (htables : s'.tables = s.tables) (hcalled : ∀ x ∈ calls, Call.Sound s' x.1 x.2)
    (hmarks : calls.filterMap Call.mark = []) : Inv s' := by
  refine h.extend hg hbase hcalls hhops hhandled htables hcalled (forall_mem_nil _) ?_ ?_ <;>
    rw [hmarks, map_nil, append_nil]
  · exact nodup_nil
  · exact forall_mem_nil _

structure Intake (s : State e) (frame : Frame) (p : Pipeline.State A) : Prop where
  routed : ∀ x ∈ p.routed, x ∈ s.pipeline.routed ∨ x.2 = frame ∧
    ∃ q, (parse e.pipeline.wire frame.received.bytes).result = .ok q ∧ q.fragment ≠ none
  decoded : p.decoded = s.pipeline.decoded
  unsent : ∀ {x}, p.Unsent e.pipeline x → s.pipeline.Unsent e.pipeline x ∨ x.2 = frame

theorem held_append {received : Received} (hframes : s'.frames = s.frames ++ [received]) {frame : Frame}
    (h : s.Held frame) : s'.Held frame := by
  unfold State.Held at h ⊢
  rw [hframes, getElem?_append_left (List.getElem?_eq_some_iff.1 h).1, h]

theorem held_new {received : Received} (h : Base s) (hframes : s'.frames = s.frames ++ [received]) :
    s'.Held ⟨received, s.pipeline.reads⟩ := by
  unfold State.Held
  rw [hframes, h.reads]
  exact getElem?_concat_length

variable {received : Received} {w now : Nat} {accepted : Bool} {ev : Pipeline.Event A} {p : Pipeline.State A}

theorem Intake.grows (h : Base s) (hi : Intake s ⟨received, s.pipeline.reads⟩ p) (hpipeline : s'.pipeline = p)
    (hframes : s'.frames = s.frames ++ [received]) {new used gone : List (Binding × Frame)}
    (hm : Pipeline.Moves e.pipeline s.pipeline ev p new used gone) : Grows s s' where
  held := held_append hframes
  routed hx := by
    rw [hpipeline, hm.routed]
    exact mem_append_left _ hx
  decoded hx := by rwa [hpipeline, hi.decoded]
  unsent {x} hx hu := by
    rw [hpipeline] at hu
    -- the frame that is read now is not among those routed before
    refine (hi.unsent hu).resolve_right fun heq => ?_
    have hlt := h.ledger.read x hx
    rw [heq] at hlt
    exact lt_irrefl _ hlt

theorem Intake.routedBase (h : Base s) (hi : Intake s ⟨received, s.pipeline.reads⟩ p) (hpipeline : s'.pipeline = p)
    (hframes : s'.frames = s.frames ++ [received]) : ∀ x ∈ s'.pipeline.routed, s'.Held x.2 ∧
      ∃ q, (parse e.pipeline.wire x.2.received.bytes).result = .ok q ∧ q.fragment ≠ none := by
  intro x hx
  rw [hpipeline] at hx
  rcases hi.routed x hx with hx | ⟨heq, hfragment⟩
  · exact ⟨held_append hframes (h.routed x hx).1, (h.routed x hx).2⟩
  · rw [heq]
    exact ⟨held_new h hframes, hfragment⟩

theorem frame_intake (hs : s.pipeline.frame e.pipeline w received accepted now = some (ev, p)) :
    Intake s ⟨received, s.pipeline.reads⟩ p := by
  obtain ⟨_, rfl, hcases⟩ := Pipeline.frame_cases hs
  rcases hcases with ⟨-, rfl⟩ | ⟨q, key, hparse, hkey, hroute⟩ | ⟨q, key, -, -, -, ⟨-, rfl, -⟩ | ⟨-, rfl⟩⟩
  · exact ⟨fun x => .inl, rfl, .inl⟩
  · have hfragment : q.fragment ≠ none := fun hnone => by simp [Parsed.fragmentKey, hnone] at hkey
    obtain ⟨hrouted, hdecoded, -, -⟩ := Pipeline.route_routed hroute
    exact ⟨fun x hx => (hrouted x hx).imp_right (⟨·, q, hparse, hfragment⟩), hdecoded, Pipeline.unsent_route hroute⟩
  · exact ⟨fun x => .inl, rfl, .inl⟩
  · exact ⟨fun x => .inl, rfl, fun hu => .inl (Pipeline.unsent_of_send hu)⟩

theorem frame_sends (hs : s.pipeline.frame e.pipeline w received accepted now = some (ev, p)) :
    ((∀ v, (p.workers v).inbox = (s.pipeline.workers v).inbox) ∧ (yields ev = [] ∨
      ∃ q, WholeAt e ⟨received, s.pipeline.reads⟩ q w ∧
        yields ev = [(w, ⟨.whole, ⟨received, s.pipeline.reads⟩, wholePacket q⟩)])) ∨
    (yields ev = [] ∧ ∃ v q, WholeAt e ⟨received, s.pipeline.reads⟩ q v ∧ ∀ u, (p.workers u).inbox =
      (s.pipeline.workers u).inbox ++ if u = v then [.frame ⟨received, s.pipeline.reads⟩] else []) := by
  obtain ⟨_, rfl, hcases⟩ := Pipeline.frame_cases hs
  rcases hcases with
    ⟨rfl, rfl⟩ | ⟨q, key, -, -, hroute⟩ | ⟨q, key, hparse, hwhole, hkey, ⟨rfl, rfl, howner⟩ | ⟨rfl, rfl⟩⟩
  · exact .inl ⟨fun v => rfl, .inl rfl⟩
  · obtain ⟨-, -, hinbox, hyields⟩ := Pipeline.route_routed hroute
    exact .inl ⟨hinbox, .inl hyields⟩
  · exact .inl ⟨fun v => rfl, .inr ⟨q, ⟨hparse, hwhole, key, hkey, howner⟩, rfl⟩⟩
  · exact .inr ⟨rfl, _, q, ⟨hparse, hwhole, key, hkey, rfl⟩, Pipeline.send_inbox _ _ _⟩

theorem Inv.receive (h : Inv s) (hw : w < e.pipeline.workers) (htask : (s.pipeline.workers w).task = .idle)
    (hdevice : e.FromDevice received) (hs : s.pipeline.frame e.pipeline w received accepted now = some (ev, p)) :
    Inv { s.advance ev p with frames := s.frames ++ [received] } := by
  have hstep : Pipeline.Step e.pipeline s.pipeline ev p := .frame hw htask hs
  obtain ⟨_, _, _, hm⟩ := hstep.moves h.pipeline
  have hi := frame_intake hs
  obtain ⟨s', hs'⟩ : ∃ s', s' = { s.advance ev p with frames := s.frames ++ [received] } := ⟨_, rfl⟩
  have hpipeline : s'.pipeline = p := by rw [hs']; rfl
  have hframes : s'.frames = s.frames ++ [received] := by rw [hs']
  have hcalls : s'.calls = s.calls ++ yields ev := by rw [hs']; rfl
  have hhops : s'.hops = s.hops ++ (sent e.pipeline s.pipeline p).flatMap hopsOf := by rw [hs']; rfl
  have hhandled : s'.handled = s.handled := by rw [hs']; rfl
  have htables : s'.tables = s.tables := by rw [hs']; rfl
  have hg : Grows s s' := hi.grows h.toBase hpipeline hframes hm
  have hheld := held_new h.toBase hframes
  have hbase : (∀ {v frame}, .frame frame ∈ (p.workers v).inbox → s'.Held frame ∧ ∃ q, WholeAt e frame q v) → Base s' :=
    fun hinbox => {
      pipeline := hpipeline ▸ hstep.inv h.pipeline
      ledger := hpipeline ▸ hm.ledger h.ledger
      reads := by rw [hpipeline, hframes, Pipeline.frame_reads hs, h.reads, length_append, length_singleton]
      device := by
        rw [hframes]
        intro r hr
        exact (mem_append.1 hr).elim (h.device r) fun hr => mem_singleton.1 hr ▸ hdevice
      inbox := by rwa [hpipeline]
      routed := hi.routedBase h.toBase hpipeline hframes }
  rw [← hs']
  clear hs'
  rcases frame_sends hs with ⟨hinbox, hyields⟩ | ⟨hyields, v, q, hwhole, hinbox⟩
  · have hsent : sent e.pipeline s.pipeline p = [] := sent_eq_nil fun v => by rw [hinbox v]
    rw [hsent, flatMap_nil] at hhops
    have hbase : Base s' := hbase fun hf => by
      rw [hinbox] at hf
      exact (h.inbox hf).imp_left hg.held
    rcases hyields with hyields | ⟨q, hwhole, hyields⟩
    · rw [hyields] at hcalls
      exact h.extend_calls hg hbase hcalls hhops hhandled htables (forall_mem_nil _) rfl
    · rw [hyields] at hcalls
      refine h.extend_calls hg hbase hcalls hhops hhandled htables (fun x hx => ?_) rfl
      obtain rfl := mem_singleton.1 hx
      exact ⟨hheld, fun _ => ⟨q, hwhole, rfl⟩, fun ho => absurd rfl ho, nofun⟩
  · rw [hyields] at hcalls
    have hbase : Base s' := hbase fun {u frame} hf => by
      rw [hinbox] at hf
      rcases mem_append.1 hf with hf | hf
      · exact (h.inbox hf).imp_left hg.held
      · split_ifs at hf with hu
        · cases mem_singleton.1 hf
          exact ⟨hheld, q, hu ▸ hwhole⟩
        · cases hf
    rw [sent_send hinbox] at hhops
    split_ifs at hhops
    · refine h.extend hg hbase hcalls hhops hhandled htables (forall_mem_nil _) (fun x hx => ?_)
        (nodup_singleton _) fun m hm => ?_
      · obtain rfl := mem_singleton.1 hx
        exact ⟨hheld, fun _ => ⟨q, hwhole.1, hwhole.2.1⟩, nofun, nofun⟩
      · obtain rfl := mem_singleton.1 hm
        exact fun hold => lt_irrefl _ (Nat.lt_of_lt_of_eq (h.mark_raw hold) h.reads.symm)
    · exact h.extend_calls hg hbase hcalls hhops hhandled htables (forall_mem_nil _) rfl

theorem Inv.advance (h : Inv s) (hstep : Pipeline.Step e.pipeline s.pipeline ev p)
    (hreads : p.reads = s.pipeline.reads) : Inv (s.advance ev p) := by
  obtain ⟨_, _, _, hm⟩ := hstep.moves h.pipeline
  have hrouted : p.routed = s.pipeline.routed := by
    rcases hm.fresh with rfl | ⟨x, -, -, hlt⟩
    · rw [hm.routed, append_nil]
    · omega
  have hledger := hm.ledger h.ledger
  have hbase : (∀ {v frame}, .frame frame ∈ (p.workers v).inbox → .frame frame ∈ (s.pipeline.workers v).inbox) →
      Base (s.advance ev p) := fun hinbox => {
    pipeline := hstep.inv h.pipeline
    ledger := hledger
    reads := hreads.trans h.reads
    device := h.device
    inbox := fun hf => h.inbox (hinbox hf)
    routed := fun x hx => h.routed x (hrouted ▸ hx) }
  have hgrows : (∀ {x}, x ∈ s.pipeline.routed → p.Unsent e.pipeline x → s.pipeline.Unsent e.pipeline x) →
      Grows s (s.advance ev p) := fun hunsent =>
    ⟨id, fun hx => hrouted.symm ▸ hx, fun hx => hm.decoded ▸ mem_append_left _ hx, hunsent⟩
  have hcalls : (s.advance ev p).calls = s.calls ++ yields ev := rfl
  have hhops : (s.advance ev p).hops = s.hops ++ (sent e.pipeline s.pipeline p).flatMap hopsOf := rfl
  cases hstep.effect h.pipeline hreads with
  | quiet hs _ hyields =>
    rw [sent_eq_nil hs.inbox, flatMap_nil] at hhops
    rw [hyields] at hcalls
    exact h.extend_calls (hgrows fun _ => hs.unsent) (hbase fun hf => (hs.inbox _).subset hf) hcalls hhops rfl rfl
      (forall_mem_nil _) rfl
  | @forwarded w d hw htask =>
    have hinbox : ∀ u, (((s.pipeline.setTask w .idle).send d.owner (.fragments d)).workers u).inbox =
        (s.pipeline.workers u).inbox ++ if u = d.owner then [.fragments d] else [] := fun u => by
      rw [Pipeline.send_inbox, Pipeline.setTask_inbox]
    have hgrows := hgrows fun _ hu => Pipeline.unsent_of_idle (Pipeline.unsent_of_send hu)
    have hbase := hbase fun {v frame} hf => by
      rw [hinbox] at hf
      rcases mem_append.1 hf with hf | hf
      · exact hf
      · split_ifs at hf
        · cases mem_singleton.1 hf
        · cases hf
    rw [sent_send hinbox] at hhops
    split_ifs at hhops
    · rw [flatMap_singleton] at hhops
      refine h.extend hgrows hbase hcalls hhops rfl rfl (forall_mem_nil _) (fun x hx => ?_) ?_ ?_
      · obtain ⟨y, hy, rfl⟩ := List.mem_map.1 hx
        have hmem : y ∈ s.pipeline.routed := Multiset.mem_of_le (h.ledger.forwarding_le hw htask) hy
        refine ⟨(h.routed y hmem).1, nofun, fun _ => ⟨y.1, hmem, fun hu => ?_⟩, nofun⟩
        exact h.ledger.forwarding_alone hw htask hy (Pipeline.unsent_of_send hu)
      · refine List.Nodup.append (.of_map Prod.fst ?_) nodup_nil nofun
        rw [hopsOf, List.map_map, List.map_map]
        exact h.ledger.forwarding_nodup hw htask
      · -- the frame of an older hop has the same serial number, so it is the same, and was sent
        intro m hm hold
        rw [hopsOf, List.map_map] at hm
        obtain ⟨y, hy, rfl⟩ := List.mem_map.1 ((mem_append.1 hm).resolve_right nofun)
        obtain ⟨_, hz, hserial, hsent⟩ := h.mark_batch hold
        have hmem : y ∈ s.pipeline.routed := Multiset.mem_of_le (h.ledger.forwarding_le hw htask) hy
        obtain rfl := inj_on_of_nodup_map h.ledger.serials hz hmem hserial
        exact hsent (.inr ⟨w, d, hw, htask, hy⟩)
    · exact h.extend_calls hgrows hbase hcalls hhops rfl rfl (forall_mem_nil _) rfl
  | @taken _ _ _ _ hs _ hmem hparse =>
    rw [sent_eq_nil hs.inbox, flatMap_nil] at hhops
    refine h.extend_calls (hgrows fun _ => hs.unsent) (hbase fun hf => (hs.inbox _).subset hf) hcalls hhops rfl rfl
      (fun x hx => ?_) rfl
    obtain rfl := mem_singleton.1 hx
    obtain ⟨hheld, q', hwhole⟩ := h.inbox hmem
    obtain rfl := Result.ok.inj (hwhole.1.symm.trans hparse)
    exact ⟨hheld, fun _ => ⟨q', hwhole, rfl⟩, fun ho => absurd rfl ho, nofun⟩
  | @decoded _ b frame reply _ hs hdecoded =>
    rw [sent_eq_nil hs.inbox, flatMap_nil] at hhops
    have hnew : (b, frame) ∈ p.decoded := hdecoded ▸ mem_append_right _ (mem_singleton_self _)
    refine h.extend (hgrows fun _ => hs.unsent) (hbase fun hf => (hs.inbox _).subset hf) hcalls hhops rfl rfl
      (fun x hx => ?_) (forall_mem_nil _) ?_ ?_
    · obtain ⟨packet, -, rfl⟩ := List.mem_map.1 hx
      have hold : (b, frame) ∈ s.pipeline.routed := hrouted ▸ hledger.routed_of_decoded hnew
      exact ⟨(h.routed (b, frame) hold).1, nofun, fun _ => ⟨b, hnew⟩, nofun⟩
    · cases hreply : reply.packet <;> simp [yields, hreply, Call.mark]
    · intro m hm hold
      obtain rfl : m = (frame.serial, .reassembled) := by
        cases hreply : reply.packet <;> simp [yields, hreply, Call.mark] at hm
        exact hm
      obtain ⟨_, hx, hserial⟩ := h.mark_reassembled hold
      have hnodup := hledger.decoded_nodup
      rw [hdecoded, map_append, nodup_append] at hnodup
      exact hnodup.2.2 _ (List.mem_map_of_mem hx) _ (mem_singleton_self _) hserial

/-! ### The workers -/

theorem Grows.of_eq (hpipeline : s'.pipeline = s.pipeline) (hframes : s'.frames = s.frames) : Grows s s' where
  held h := by rwa [State.Held, hframes]
  routed h := by rwa [hpipeline]
  decoded h := by rwa [hpipeline]
  unsent _ h := by rwa [hpipeline] at h

theorem Base.of_eq (h : Base s) (hpipeline : s'.pipeline = s.pipeline) (hframes : s'.frames = s.frames) : Base s' := by
  have hg : Grows s s' := .of_eq hpipeline hframes
  refine ⟨hpipeline ▸ h.pipeline, hpipeline ▸ h.ledger, ?_, hframes ▸ h.device, fun hf => ?_, fun x hx => ?_⟩
  · rw [hpipeline, hframes, h.reads]
  · rw [hpipeline] at hf
    exact (h.inbox hf).imp_left hg.held
  · rw [hpipeline] at hx
    exact (h.routed x hx).imp_left hg.held

theorem Inv.drop (h : Inv s) {call : Nat × Call} {before after : List (Nat × Call)}
    (hcalls : s.calls = before ++ call :: after) : Inv { s with calls := before ++ after } := by
  have hg : Grows s { s with calls := before ++ after } := .of_eq rfl rfl
  have hsub : (before ++ after).Sublist s.calls := hcalls ▸ List.Sublist.append_left (sublist_cons_self _ _) _
  exact {
    toBase := h.toBase.of_eq rfl rfl
    ids := h.ids
    calls := fun x hx => (h.calls x (hsub.subset hx)).mono hg
    handled := fun x hx => ⟨(h.handled x hx).1.mono hg, (h.handled x hx).2⟩
    hops := fun x hx => (h.hops x hx).mono hg
    once := h.once.sublist (List.Sublist.append_left (hsub.filterMap _) _) }

theorem Inv.event (h : Inv s) {event : Worker.Event e.worker} {table : Worker e.worker} {world : e.worker.World}
    (hevent : ∀ packet frame, event ≠ .packet packet frame)
    (hstep : (s.tables w).step s.world event = .ok (table, world)) :
    Inv { s with tables := update s.tables w table, world } := by
  have hg : Grows s { s with tables := update s.tables w table, world } := .of_eq rfl rfl
  refine ⟨h.toBase.of_eq rfl rfl, fun v => ?_, fun x hx => (h.calls x hx).mono hg,
    fun x hx => ⟨(h.handled x hx).1.mono hg, (h.handled x hx).2⟩, fun x hx => (h.hops x hx).mono hg, h.once⟩
  dsimp only
  rw [update_apply]
  split_ifs with hv
  · rw [Worker.step_id hevent hstep, h.ids, hv]
  · exact h.ids v

theorem Call.Sound.completed {c : Call} (hl : Laws e) (h : Call.Sound s w c) {key : RouteKey}
    (hkey : c.packet.routeKey e.worker.transport (c.received.any Received.checksumVerified) = some key)
    (howner : e.pipeline.owner key ≠ w) : c.origin = .completed := by
  cases horigin : c.origin with
  | completed => rfl
  | whole =>
    obtain ⟨_, ⟨-, hwhole, key', hroute, hkey'⟩, hpacket⟩ := h.whole horigin
    rw [hpacket] at hkey
    obtain rfl := some.inj (hroute.symm.trans (routeKey_route hl hwhole hkey))
    exact absurd hkey' howner
  | reassembled =>
    obtain ⟨_, hroute, hkey'⟩ := h.reassembled horigin
    rw [Call.received, horigin] at hkey
    obtain rfl := some.inj (hroute.symm.trans hkey)
    exact absurd hkey' howner

theorem forwardPacket_cases (c : Call) (accepted : Bool) (out : Worker.Handled) :
    State.forwardPacket c accepted out = [] ∨ ∃ owner, out = .forward owner ∧
      State.forwardPacket c accepted out = [(owner, { c with origin := .reassembled })] := by
  cases out with
  | forward owner =>
    cases accepted with
    | false => exact .inl rfl
    | true => exact .inr ⟨owner, rfl, rfl⟩
  | _ => exact .inl rfl

theorem marks_handle {c : Call} {before after : List (Nat × Call)} {out : Worker.Handled} {table : Worker e.worker}
    {world : e.worker.World} (hcalls : s.calls = before ++ (w, c) :: after)
    (hcompleted : State.forwardPacket c accepted out ≠ [] → c.origin = .completed) (h : s.marks.Nodup) :
    (s.handle (before ++ after) w c accepted out table world).marks.Nodup := by
  rcases forwardPacket_cases c accepted out with hnone | ⟨owner, -, hsome⟩
  · refine h.sublist ?_
    unfold State.marks State.handle
    rw [hnone, map_nil, append_nil, append_nil, hcalls]
    exact .append_left (.filterMap _ (.append_left (sublist_cons_self _ _) _)) _
  · have hmark : Call.mark (w, c) = some (c.frame.serial, .reassembled) := if_pos (hcompleted (hsome ▸ nofun))
    have hcopy : Call.mark (owner, { c with origin := .reassembled }) = none := if_neg nofun
    refine (List.Perm.nodup_iff ?_).1 h
    unfold State.marks State.handle
    simp only [hsome, hcalls, map_append, map_cons, map_nil, filterMap_append, filterMap_cons,
      filterMap_nil, hmark, hcopy, append_nil, append_assoc]
    exact .append_left _ (perm_middle.trans (by rw [singleton_append]))

theorem Inv.packet (hl : Laws e) (h : Inv s) {c : Call} {before after : List (Nat × Call)} {out : Worker.Handled}
    {table : Worker e.worker} {world : e.worker.World} (hcalls : s.calls = before ++ (w, c) :: after)
    (hstep : (s.tables w).packet s.world c.packet c.received = .ok (out, table, world)) :
    Inv (s.handle (before ++ after) w c accepted out table world) := by
  obtain ⟨hid, hforward, hkey⟩ := Worker.packet_spec hstep
  rw [h.ids] at hid
  simp only [e.owner_eq, h.ids] at hforward hkey
  have hg : Grows s (s.handle (before ++ after) w c accepted out table world) := .of_eq rfl rfl
  have hc : Call.Sound s w c := h.calls (w, c) (hcalls ▸ mem_append_right _ mem_cons_self)
  have hsub : (before ++ after).Sublist s.calls := hcalls ▸ List.Sublist.append_left (sublist_cons_self _ _) _
  have hcompleted : ∀ {owner}, out = .forward owner → c.origin = .completed := fun heq => by
    obtain ⟨key, hfound, rfl, hne⟩ := hforward heq
    exact hc.completed hl hfound hne
  refine ⟨h.toBase.of_eq rfl rfl, fun v => ?_, fun x hx => ?_, fun x hx => ?_, fun x hx => ?_,
    marks_handle hcalls ?_ h.once⟩
  · change (update s.tables w table v).id = v
    rw [update_apply]
    split_ifs with hv
    · rw [hid, hv]
    · exact h.ids v
  · rcases mem_append.1 hx with hx | hx
    · exact (h.calls x (hsub.subset hx)).mono hg
    · rcases forwardPacket_cases c accepted out with hnone | ⟨owner, hout, hsome⟩
      · rw [hnone] at hx
        cases hx
      · rw [hsome] at hx
        obtain rfl := mem_singleton.1 hx
        have horigin := hcompleted hout
        obtain ⟨key, hfound, rfl, -⟩ := hforward hout
        rw [Call.received, horigin] at hfound
        exact ⟨hc.held, nofun, fun _ => hc.datagram (horigin ▸ nofun), fun _ => ⟨key, hfound, rfl⟩⟩
  · rcases mem_append.1 hx with hx | hx
    · exact ⟨(h.handled x hx).1.mono hg, (h.handled x hx).2⟩
    · obtain rfl := mem_singleton.1 hx
      exact ⟨hc.mono hg, hkey⟩
  · rcases mem_append.1 hx with hx | hx
    · exact (h.hops x hx).mono hg
    · rcases forwardPacket_cases c accepted out with hnone | ⟨owner, hout, hsome⟩
      · rw [hnone] at hx
        cases hx
      · rw [hsome] at hx
        obtain rfl := mem_singleton.1 hx
        exact ⟨hc.held, nofun, nofun, fun _ => hc.datagram (hcompleted hout ▸ nofun)⟩
  · intro hne
    rcases forwardPacket_cases c accepted out with hnone | ⟨owner, hout, -⟩
    · exact absurd hnone hne
    · exact hcompleted hout

theorem Inv.new (e : RoutingEnv A) (now : Nat) (world : e.worker.World) : Inv (.new e now world) where
  pipeline := .new e.pipeline now
  ledger := .new e.pipeline now
  reads := rfl
  device _ h := absurd h not_mem_nil
  inbox h := absurd h not_mem_nil
  routed _ h := absurd h not_mem_nil
  ids _ := rfl
  calls _ h := absurd h not_mem_nil
  handled _ h := absurd h not_mem_nil
  hops _ h := absurd h not_mem_nil
  once := nodup_nil

theorem Reachable.inv (hl : Laws e) (h : Reachable e s) : Inv s := by
  induction h with
  | new now world => exact .new e now world
  | step _ hstep ih =>
    cases hstep with
    | receive hw htask hdevice hs => exact ih.receive hw htask hdevice hs
    | advance hstep hreads => exact ih.advance hstep hreads
    | packet hcalls hs => exact ih.packet hl hcalls hs
    | drop hcalls => exact ih.drop hcalls
    | event hevent hs => exact ih.event hevent hs

/-! ## One worker for a flow -/

structure OneWorker (s : State e) : Prop where
  owner : ∀ {w c out key}, (w, c, out) ∈ s.handled → out.key = some key →
    c.packet.routeKey e.worker.transport (c.received.any Received.checksumVerified) = some key ∧
      e.pipeline.owner key = w
  whole : ∀ {n received p}, s.frames[n]? = some received →
    (parse e.pipeline.wire received.bytes).result = .ok p → p.fragment = none → s.forwards n ≤ 1
  twice : ∀ n, s.forwards n ≤ 2
  raw : ∀ {frame hop}, (frame, hop) ∈ s.hops → frame.received.Marked → hop = .raw
  fragments : ∀ x ∈ s.pipeline.routed, ¬ x.2.received.Marked
  metadata : ∀ {w c}, (w, c) ∈ s.calls ∨ (∃ out, (w, c, out) ∈ s.handled) →
    (c.frame.received.Marked → c.received = some c.frame.received) ∧ (∀ received, c.received = some received →
      received = c.frame.received ∧ ∃ p, (parse e.pipeline.wire received.bytes).result = .ok p ∧ p.fragment = none ∧
        c.packet = wholePacket p)

theorem forwards_le (h : s.marks.Nodup) {n : Nat} (kinds : List Hop)
    (hkinds : ∀ x ∈ s.hops, x.1.serial = n → x.2 ∈ kinds) : s.forwards n ≤ kinds.length := by
  have hpairs : (s.hops.map fun h => (h.1.serial, h.2)).Nodup := h.sublist (sublist_append_left _ _)
  obtain ⟨own, hown⟩ : ∃ own, own = s.hops.filter fun h => decide (h.1.serial = n) := ⟨_, rfl⟩
  have hserial : ∀ x ∈ own, x ∈ s.hops ∧ x.1.serial = n := fun x hx => by
    rw [hown] at hx
    exact (mem_filter.1 hx).imp_right of_decide_eq_true
  have hmap : own.map (fun h => (h.1.serial, h.2)) = (own.map Prod.snd).map (Prod.mk n) := by
    rw [List.map_map]
    exact map_congr_left fun x hx => by rw [(hserial x hx).2, Function.comp]
  have hnodup : (own.map Prod.snd).Nodup := by
    refine .of_map (Prod.mk n) ?_
    rw [← hmap, hown]
    exact hpairs.sublist (filter_sublist.map _)
  have hsubset : own.map Prod.snd ⊆ kinds := fun kind hkind => by
    obtain ⟨x, hx, rfl⟩ := List.mem_map.1 hkind
    exact hkinds x (hserial x hx).1 (hserial x hx).2
  have hle := (hnodup.subperm hsubset).length_le
  rwa [length_map, hown] at hle

theorem Base.unmarked (hl : Laws e) (h : Base s) {x : Binding × Frame} (hx : x ∈ s.pipeline.routed) :
    ¬ x.2.received.Marked := by
  obtain ⟨hheld, _, hparse, hfragment⟩ := h.routed x hx
  have hdevice := h.device _ (mem_of_getElem? hheld)
  exact fun hmarked => hfragment (fromDevice_unfragmented hl hdevice hmarked hparse)

theorem Inv.hop_cases (h : Inv s) {x : Frame × Hop} (hx : x ∈ s.hops) :
    (x.2 = .raw ∧ ∃ p, (parse e.pipeline.wire x.1.received.bytes).result = .ok p ∧ p.fragment = none) ∨
    (x.2 ∈ [Hop.batch, .reassembled] ∧ ∃ b, (b, x.1) ∈ s.pipeline.routed) := by
  have hsound := h.hops x hx
  cases hkind : x.2 with
  | raw => exact .inl ⟨rfl, hsound.raw hkind⟩
  | batch =>
    obtain ⟨b, hrouted, -⟩ := hsound.batch hkind
    exact .inr ⟨by decide, b, hrouted⟩
  | reassembled =>
    obtain ⟨b, hdecoded⟩ := hsound.reassembled hkind
    exact .inr ⟨by decide, b, h.ledger.routed_of_decoded hdecoded⟩

theorem Inv.forwards_whole (h : Inv s) {n : Nat} {received : Received} {p : Parsed}
    (hframe : s.frames[n]? = some received) (hparse : (parse e.pipeline.wire received.bytes).result = .ok p)
    (hwhole : p.fragment = none) : s.forwards n ≤ 1 := by
  refine forwards_le h.once [.raw] fun x hx hserial => ?_
  rcases h.hop_cases hx with ⟨hraw, -⟩ | ⟨-, b, hrouted⟩
  · rw [hraw]
    exact mem_singleton_self _
  · obtain ⟨hheld, _, hq, hfragment⟩ := h.routed _ hrouted
    rw [State.Held, hserial, hframe] at hheld
    rw [← some.inj hheld, hparse] at hq
    exact absurd (Result.ok.inj hq ▸ hwhole) hfragment

theorem Inv.forwards_twice (h : Inv s) (n : Nat) : s.forwards n ≤ 2 := by
  by_cases hraw : ∃ x ∈ s.hops, x.1.serial = n ∧ x.2 = .raw
  · obtain ⟨x, hx, rfl, hkind⟩ := hraw
    obtain ⟨_, hparse, hwhole⟩ := (h.hops x hx).raw hkind
    exact (h.forwards_whole (h.hops x hx).held hparse hwhole).trans (by decide)
  · refine forwards_le h.once [.batch, .reassembled] fun x hx hserial => ?_
    exact ((h.hop_cases hx).resolve_left fun hkind => hraw ⟨x, hx, hserial, hkind.1⟩).1

theorem Call.Sound.metadata (hl : Laws e) (h : Inv s) {c : Call} (hc : Call.Sound s w c) :
    (c.frame.received.Marked → c.received = some c.frame.received) ∧ (∀ received, c.received = some received →
      received = c.frame.received ∧ ∃ p, (parse e.pipeline.wire received.bytes).result = .ok p ∧ p.fragment = none ∧
        c.packet = wholePacket p) := by
  by_cases horigin : c.origin = .whole
  · have hreceived : c.received = some c.frame.received := by rw [Call.received, horigin]
    refine ⟨fun _ => hreceived, fun received heq => ?_⟩
    obtain rfl := some.inj (hreceived.symm.trans heq)
    obtain ⟨p, ⟨hparse, hwhole, -⟩, hpacket⟩ := hc.whole horigin
    exact ⟨rfl, p, hparse, hwhole, hpacket⟩
  · obtain ⟨_, hdecoded⟩ := hc.datagram horigin
    have hunmarked := h.unmarked hl (h.ledger.routed_of_decoded hdecoded)
    refine ⟨fun hmarked => absurd hmarked hunmarked, fun received heq => ?_⟩
    unfold Call.received at heq
    split at heq
    · exact absurd ‹_› horigin
    · cases heq

/-- **Every flow is handled by one worker.** A packet is forwarded at most once after it was routed, so forwarding never
loops, and the metadata of the device stays with its frame. -/
theorem flow_one_worker (hl : Laws e) (h : Reachable e s) : OneWorker s := by
  have hinv := h.inv hl
  refine ⟨fun hx hkey => (hinv.handled _ hx).2 hkey, hinv.forwards_whole, hinv.forwards_twice,
    fun {frame hop} hx hmarked => ?_, fun x hx => hinv.unmarked hl hx, ?_⟩
  · rcases hinv.hop_cases hx with ⟨hraw, -⟩ | ⟨-, b, hrouted⟩
    · exact hraw
    · exact absurd hmarked (hinv.unmarked hl hrouted)
  · rintro w c (hc | ⟨out, hc⟩)
    · exact (hinv.calls _ hc).metadata hl hinv
    · exact (hinv.handled _ hc).1.metadata hl hinv

/-! ## Over octets -/

/-- The workers of `Worker.scriptedEnv`, with the transport readers on octets. -/
def octetsWorker : WorkerEnv :=
  { Worker.scriptedEnv with
    transport := ⟨udpOctets, Octets.tcpChecked,
      fun data _ _ _ => some ⟨numberAt data 0 2, numberAt data 2 2, .syn, none⟩⟩
    owner := Pipeline.octetsPipeline.owner }

def octetsRouting : RoutingEnv Ranges := ⟨Pipeline.octetsPipeline, octetsWorker, octetsOffload, rfl, rfl⟩

theorem ports_numberAt {data : Bytes} (h : 4 ≤ data.length) : Ports data (numberAt data 0 2) (numberAt data 2 2) := by
  match data, h with
  | s1 :: s0 :: d1 :: d0 :: rest, _ =>
    refine ⟨s1, s0, d1, d0, rest, rfl, ?_, ?_⟩ <;> simp [numberAt, slice, bigEndian]

theorem octetsRouting_laws : Laws octetsRouting where
  lengths := octets_lengthChecks
  headers := octets_local
  setLen {body} n hchecked := by
    simp only [octetsRouting, octetsOffload, Octets.udpChecked, Bool.and_eq_true, decide_eq_true_eq] at hchecked
    exact length_writeAt (by rw [length_toBytes]; omega)
  tcpPorts {data _ _ _ repr} hchecked hparse := by
    simp only [octetsRouting, octetsWorker, Octets.tcpChecked, Bool.and_eq_true, decide_eq_true_eq] at hchecked
    obtain rfl := some.inj hparse
    exact ports_numberAt (by omega)
  udpPorts {data} hchecked := by
    simp only [octetsRouting, octetsWorker, udpOctets, Octets.udpChecked, Bool.and_eq_true,
      decide_eq_true_eq] at hchecked
    exact ports_numberAt (by omega)

def offloadedFrame : Bytes := [1, 0, 0, 0, 0, 0, 20, 0, 6, 0] ++
  [0x45, 0, 0, 28, 0, 0, 0, 0, 64, 17, 0x66, 0xcf, 10, 0, 0, 1, 10, 0, 0, 2, 0x14, 0xe9, 0, 53, 0, 8, 0, 0]

def offloaded : Received := ⟨offloadedFrame.drop virtioNetHdrLen,
  (ReceiveBuffer.publish (maxIpPacket + virtioNetHdrLen) offloadedFrame).2, true, none⟩

def offloadedCall : Call := ⟨.whole, ⟨offloaded, 0⟩,
  ⟨.ipv4 ⟨0x0a000001, 0x0a000002, .udp, 8, 64⟩, [0x14, 0xe9, 0, 53, 0, 8, 0, 0]⟩⟩

/-- The first worker reads the frame and forwards it; the second one hands the payload over. -/
theorem flow_one_worker_forwarded : Laws octetsRouting ∧ ∃ (s : State octetsRouting) (flow : Flow),
    Reachable octetsRouting s ∧ (1, offloadedCall, .udp flow) ∈ s.handled ∧ offloaded.Marked ∧ s.forwards 0 = 1 ∧
      OneWorker s := by
  have hpoll : octetsOffload.pollFrame true offloadedFrame = .ok offloaded :=
    OffloadWire.pollFrame_of_normalize (by decide) rfl
  have hsteps : ∃ ev1 p1,
      (Pipeline.State.new octetsRouting.pipeline 0).frame octetsRouting.pipeline 0 offloaded true 1 = some (ev1, p1) ∧
      (p1.workers 1).task = .idle ∧ ∃ ev2 p2, p1.take octetsRouting.pipeline 1 2 = some (ev2, p2) ∧ p2.reads = p1.reads ∧
      [] ++ yields ev1 ++ yields ev2 = [(1, offloadedCall)] ∧
      sent octetsRouting.pipeline (.new octetsRouting.pipeline 0) p1 = [.frame ⟨offloaded, 0⟩] ∧
      sent octetsRouting.pipeline p1 p2 = [] :=
    ⟨_, _, rfl, rfl, _, _, rfl, rfl, rfl, rfl, rfl⟩
  obtain ⟨_, _, h1, hidle, _, _, h2, hreads, hcalls, hsent1, hsent2⟩ := hsteps
  obtain ⟨flow, table, h3⟩ : ∃ flow table, (Worker.new octetsWorker 1).packet () offloadedCall.packet (some offloaded) =
    .ok (.udp flow, table, ()) := ⟨_, _, rfl⟩
  have hreached := ((Reachable.new (e := octetsRouting) 0 ()).step (.receive (by decide) rfl
    (.inr ⟨true, offloadedFrame, hpoll⟩) h1)).step (.advance (.take (by decide) hidle h2) hreads)
  have hpacket : ∀ {s : State octetsRouting}, s.calls = [] ++ (1, offloadedCall) :: [] →
      s.tables = Worker.new octetsWorker →
      Step octetsRouting s (s.handle ([] ++ []) 1 offloadedCall true (.udp flow) table ()) := fun hcalls htables =>
    .packet hcalls (by rw [htables]; exact h3)
  have hlast := hreached.step (hpacket hcalls rfl)
  refine ⟨octetsRouting_laws, _, flow, hlast, mem_append_right _ (mem_singleton_self _), .inl rfl, ?_,
    flow_one_worker octetsRouting_laws hlast⟩
  simp [State.forwards, State.handle, State.advance, State.forwardPacket, State.new, hsent1, hsent2, hopsOf]

end Kotoconn.Tun.Routing
