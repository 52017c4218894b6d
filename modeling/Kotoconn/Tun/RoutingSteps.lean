import Kotoconn.Tun.Fragments.Ledger
import Kotoconn.Tun.Routing

/-! # What a step of the routing can do -/

namespace Kotoconn.Tun

open Lib List Function

/-! ## The pipeline -/

variable {x : Binding × Frame}

theorem Routes.mem_of_erase {r : Routes} {shardOf : FragmentKey → Nat} (hr : r.Inv shardOf) {i : Nat}
    {key : FragmentKey} {y : Entry} (hy : (r.shards i).entries.lookup key = some y)
    (hx : x ∈ (r.erase i key y).frames) : x ∈ r.frames := by
  obtain ⟨hknown, -, -, rfl⟩ := hr.entry hy
  rw [Routes.erase_frames (hr.shard hknown).2 hy]
  exact Multiset.mem_add.2 (.inl hx)

namespace Pipeline
variable {A : Type} {e : PipelineEnv A} {s s' : State A} {ev : Event A} {w v : Nat}

def State.Unsent (e : PipelineEnv A) (s : State A) (x : Binding × Frame) : Prop :=
  x ∈ s.routes.frames ∨ ∃ w d, w < e.workers ∧ (s.workers w).task = .forwarding d ∧ x ∈ d.frames

structure Settles (e : PipelineEnv A) (s s' : State A) : Prop where
  inbox : ∀ v, (s'.workers v).inbox.Sublist (s.workers v).inbox
  unsent : ∀ {x}, s'.Unsent e x → s.Unsent e x

theorem Settles.of_update {k : Worker A} (hworkers : s'.workers = update s.workers w k)
    (hinbox : k.inbox.Sublist (s.workers w).inbox)
    (htask : ∀ {d}, k.task = .forwarding d → (s.workers w).task = .forwarding d)
    (hroutes : ∀ {x}, x ∈ s'.routes.frames → x ∈ s.routes.frames) : Settles e s s' where
  inbox v := by
    rw [hworkers, update_apply]
    split_ifs with hv
    · exact hv ▸ hinbox
    · exact .refl _
  unsent := by
    rintro x (hx | ⟨v, d, hv, hd, hx⟩)
    · exact .inl (hroutes hx)
    · refine .inr ⟨v, d, hv, ?_, hx⟩
      rw [hworkers, update_apply] at hd
      split_ifs at hd with hvw
      · exact hvw ▸ htask hd
      · exact hd

theorem Settles.of_workers (hworkers : s'.workers = s.workers)
    (hroutes : ∀ {x}, x ∈ s'.routes.frames → x ∈ s.routes.frames) : Settles e s s' where
  inbox v := by rw [hworkers]
  unsent := by
    rintro x (hx | hx)
    · exact .inl (hroutes hx)
    · rw [hworkers] at hx
      exact .inr hx

inductive Effect (e : PipelineEnv A) (s : State A) : Event A → State A → Prop where
  | quiet {ev : Event A} {s' : State A} :
      Settles e s s' → s'.decoded = s.decoded → Routing.yields ev = [] → Effect e s ev s'
  | forwarded {w : Nat} {d : Delivery} : w < e.workers → (s.workers w).task = .forwarding d →
      Effect e s .quiet ((s.setTask w .idle).send d.owner (.fragments d))
  | taken {w : Nat} {frame : Frame} {p : Parsed} {s' : State A} :
      Settles e s s' → s'.decoded = s.decoded → .frame frame ∈ (s.workers w).inbox →
      (parse e.wire frame.received.bytes).result = .ok p →
      Effect e s (.plain w frame (.whole ⟨p.ip.setPayloadLen p.payload.length, p.payload⟩)) s'
  | decoded {w : Nat} {b : Binding} {frame : Frame} {reply : Reply A} {s' : State A} :
      Settles e s s' → s'.decoded = s.decoded ++ [(b, frame)] → Effect e s (.decoded w b frame reply) s'

theorem frame_reads {received : Received} {accepted : Bool} {now : Nat}
    (h : s.frame e w received accepted now = some (ev, s')) : s'.reads = s.reads + 1 := by
  obtain ⟨_, rfl, hcases⟩ := frame_cases h
  rcases hcases with ⟨-, rfl⟩ | ⟨p, key, -, -, hroute⟩ | ⟨p, key, -, -, -, ⟨-, rfl, -⟩ | ⟨-, rfl⟩⟩
  · rfl
  · obtain ⟨_, _, _, -, -, rfl⟩ := route_eq hroute
    rfl
  · rfl
  · rfl

variable {d : Delivery}

theorem resume_ne_forwarding {rest : Option Delivery} : Task.resume rest ≠ .forwarding d := by
  cases rest <;> nofun

theorem Step.effect (h : Inv e s) (hstep : Step e s ev s') (hreads : s'.reads = s.reads) : Effect e s ev s' := by
  cases hstep with
  | frame _ _ hs => exact absurd ((frame_reads hs).symm.trans hreads) (Nat.succ_ne_self _)
  | forward hw hs =>
    obtain ⟨d, htask, ⟨rfl, rfl⟩ | ⟨l, rfl, rfl⟩⟩ := forward_cases hs
    · exact .forwarded hw htask
    · exact .quiet (.of_update rfl (.refl _) nofun id) rfl rfl
  | @take w _ _ _ _ _ hs =>
    rcases take_cases hs with ⟨d, inbox, hinbox, -, rfl, rfl⟩ | ⟨frame, inbox, hinbox, hs⟩
    · exact .quiet (.of_update rfl (hinbox ▸ sublist_cons_self _ _) nofun id) rfl rfl
    · have hmem : .frame frame ∈ (s.workers w).inbox := hinbox ▸ mem_cons_self
      obtain ⟨_, hparse, hp⟩ := (h.worker w).raw hmem
      rw [decode_whole hparse hp, setWorker_self] at hs
      cases hs
      exact .taken (.of_update rfl (hinbox ▸ sublist_cons_self _ _) id id) rfl hmem hparse
  | releasePending _ hs =>
    obtain ⟨d, _, l, -, -, -, rfl⟩ := releasePending_cases hs
    exact .quiet (.of_update rfl (.refl _) nofun id) rfl rfl
  | fragment _ hs =>
    obtain ⟨d, _, rest, _, decoder, l, -, -, -, rfl, rfl⟩ := fragment_cases hs
    refine .decoded (.of_update rfl (.refl _) (fun {d'} htask => ?_) id) rfl
    dsimp only at htask
    split_ifs at htask
    exact absurd htask resume_ne_forwarding
  | finish _ hs =>
    obtain ⟨_, _, r, l, htask, hfinish, rfl, rfl⟩ := finish_eq hs
    refine .quiet (.of_update rfl (.refl _) (absurd · resume_ne_forwarding) fun {x} hx => ?_) rfl rfl
    rcases Routes.finish_cases hfinish with ⟨rfl, -⟩ | ⟨x, hx', -, rfl⟩
    · exact hx
    · exact Routes.mem_of_erase h.routes hx' hx
  | abandon _ hs =>
    obtain ⟨d, l, -, rfl, rfl⟩ := abandon_cases hs
    exact .quiet (.of_update rfl (.refl _) nofun id) rfl rfl
  | dropQueued _ hinbox =>
    refine .quiet (.of_update rfl ?_ id id) rfl rfl
    rw [hinbox]
    exact List.Sublist.append_left (sublist_cons_self _ _) _
  | expireRoutes hs =>
    obtain ⟨r, l, hexpire, rfl⟩ := expireRoutes_eq hs
    obtain ⟨hshard, rfl⟩ := Routes.expire_eq hexpire
    refine .quiet (.of_workers rfl fun {x} hx => ?_) rfl rfl
    rw [Routes.expire_frames hshard]
    exact Multiset.mem_add.2 (.inl hx)
  | expireDecoder _ hs =>
    obtain ⟨_, l, -, rfl⟩ := expireDecoder_eq hs
    exact .quiet (.of_update rfl (.refl _) id id) rfl rfl
  | discardPending _ hs =>
    obtain ⟨_, l, hremove, rfl⟩ := discardPending_eq hs
    refine .quiet (.of_workers rfl fun {x} hx => ?_) rfl rfl
    rcases Routes.remove_cases hremove with ⟨rfl, -⟩ | ⟨y, hy, rfl⟩
    · exact hx
    · exact Routes.mem_of_erase h.routes hy hx
  | discardOldest _ htask _ hs =>
    obtain ⟨a, _, _, -, rfl, rfl⟩ := discardOldest_cases hs
    refine .quiet (.of_update rfl (.refl _) (fun {d} htask => ?_) id) rfl rfl
    cases hb : a.binding <;> simp [hb] at htask
  | headroom => exact .quiet (.of_workers rfl id) rfl rfl
  | releaseBinding => exact .quiet (.of_workers rfl id) rfl rfl

/-! ### Messages -/

theorem send_inbox (s : State A) (v : Nat) (m : Forwarded) (u : Nat) :
    ((s.send v m).workers u).inbox = (s.workers u).inbox ++ if u = v then [m] else [] := by
  unfold State.send State.setWorker
  dsimp only
  rw [update_apply]
  split_ifs with hu
  · rw [hu]
  · rw [append_nil]

theorem setTask_inbox (s : State A) (w : Nat) (task : Task) (u : Nat) :
    ((s.setTask w task).workers u).inbox = (s.workers u).inbox := by
  unfold State.setTask State.setWorker
  dsimp only
  rw [update_apply]
  split_ifs with hu
  · rw [hu]
  · rfl

theorem unsent_of_send {m : Forwarded} (h : (s.send v m).Unsent e x) : s.Unsent e x := by
  rcases h with h | ⟨u, d, hu, hd, hx⟩
  · exact .inl h
  · refine .inr ⟨u, d, hu, ?_, hx⟩
    unfold State.send State.setWorker at hd
    dsimp only at hd
    rw [update_apply] at hd
    split_ifs at hd with huv
    · exact huv ▸ hd
    · exact hd

theorem unsent_of_idle (h : (s.setTask w .idle).Unsent e x) : s.Unsent e x := by
  have hsettles : Settles e s (s.setTask w .idle) := .of_update rfl (.refl _) nofun id
  exact hsettles.unsent h

/-! ### Frames that `route` takes in -/

theorem mem_taken {out : Routed} {frame : Frame} (h : x ∈ out.taken frame) : x.2 = frame := by
  cases out with
  | unadmitted => cases h
  | _ => exact congrArg Prod.snd (mem_singleton.1 h)

theorem unsent_route {frame : Frame} {p : Parsed} {key : FragmentKey} {now : Nat}
    (hs : s.route e w frame p key now = some (ev, s')) {x : Binding × Frame} (hx : s'.Unsent e x) :
    s.Unsent e x ∨ x.2 = frame := by
  obtain ⟨out, r, _, hroute, -, rfl⟩ := route_eq hs
  have hkept : x ∈ r.frames + (out.delivered : Frames) → s.Unsent e x ∨ x.2 = frame := fun hx => by
    have hmem : x ∈ s.routes.frames + (out.taken frame : Frames) := by
      rw [Routes.route_frames hroute]
      exact Multiset.mem_add.2 (.inl hx)
    exact (Multiset.mem_add.1 hmem).imp .inl mem_taken
  rcases hx with hx | ⟨v, d, hv, hd, hx⟩
  · exact hkept (Multiset.mem_add.2 (.inl hx))
  · change (update s.workers w { s.workers w with task := State.accept w out } v).task = _ at hd
    rw [update_apply] at hd
    split_ifs at hd with hvw
    · have hdelivered : State.accept w out = .forwarding d := hd
      refine hkept (Multiset.mem_add.2 (.inr ?_))
      rw [← accept_frames w out, hdelivered]
      exact hx
    · exact .inl (.inr ⟨v, d, hv, hd, hx⟩)

theorem route_routed {frame : Frame} {p : Parsed} {key : FragmentKey} {now : Nat}
    (hs : s.route e w frame p key now = some (ev, s')) : (∀ x ∈ s'.routed, x ∈ s.routed ∨ x.2 = frame) ∧
    s'.decoded = s.decoded ∧ (∀ v, (s'.workers v).inbox = (s.workers v).inbox) ∧ Routing.yields ev = [] := by
  obtain ⟨_, _, _, -, rfl, rfl⟩ := route_eq hs
  exact ⟨fun x hx => (mem_append.1 hx).imp_right mem_taken, rfl, setTask_inbox s w _, rfl⟩

/-! ### Frames in a worker's hands -/

variable (h : Ledger e s)
include h

theorem Ledger.worker_le (hw : w < e.workers) : (s.workers w).frames ≤ (s.routed : Frames) := by
  have hconserved : (s.routed : Frames) = s.inFlight e + (s.decoded : Frames) + (s.lost : Frames) := h.conserved
  have hsum : (s.workers w).frames ≤ ∑ v ∈ Finset.range e.workers, (s.workers v).frames :=
    Finset.single_le_sum (fun _ _ => Multiset.zero_le _) (Finset.mem_range.2 hw)
  rw [hconserved]
  exact hsum.trans ((Multiset.le_add_left _ _).trans ((Multiset.le_add_right _ _).trans (Multiset.le_add_right _ _)))

theorem Ledger.forwarding_le (hw : w < e.workers)
    (htask : (s.workers w).task = .forwarding d) : (d.frames : Frames) ≤ (s.routed : Frames) := by
  refine le_trans ?_ (h.worker_le hw)
  rw [Worker.frames, htask]
  exact Multiset.le_add_left _ _

theorem Ledger.forwarding_nodup (hw : w < e.workers)
    (htask : (s.workers w).task = .forwarding d) : (d.frames.map fun x => x.2.serial).Nodup := by
  have hserials : ((s.routed : Frames).map fun x => x.2.serial).Nodup := h.serials
  exact Multiset.nodup_of_le (Multiset.map_le_map (h.forwarding_le hw htask)) hserials

theorem Ledger.decoded_nodup : (s.decoded.map fun x => x.2.serial).Nodup := by
  have hall := h.nodup
  rw [Multiset.map_add, Multiset.map_add, Multiset.nodup_add, Multiset.nodup_add] at hall
  exact hall.1.2.1

theorem Ledger.forwarding_alone (hw : w < e.workers)
    (htask : (s.workers w).task = .forwarding d) (hx : x ∈ d.frames) : ¬ (s.setTask w .idle).Unsent e x := by
  have hflight : (s.inFlight e).Nodup := by
    have hall := Multiset.Nodup.of_map _ h.nodup
    exact (Multiset.nodup_add.1 (Multiset.nodup_add.1 hall).1).1
  have hworkers := Finset.add_sum_erase (Finset.range e.workers) (fun v => (s.workers v).frames)
    (Finset.mem_range.2 hw)
  unfold State.inFlight flight at hflight
  rw [← hworkers] at hflight
  obtain ⟨-, hnodup, hroutes⟩ := Multiset.nodup_add.1 hflight
  obtain ⟨-, -, hothers⟩ := Multiset.nodup_add.1 hnodup
  have hmine : x ∈ (s.workers w).frames := by
    rw [Worker.frames, htask]
    exact Multiset.mem_add.2 (.inr hx)
  rintro (hx' | ⟨v, d', hv, hd', hx'⟩)
  · exact Multiset.disjoint_left.1 hroutes hx' (Multiset.mem_add.2 (.inl hmine))
  · change (update s.workers w { s.workers w with task := .idle } v).task = _ at hd'
    rw [update_apply] at hd'
    split_ifs at hd' with hvw
    refine Multiset.disjoint_left.1 hothers hmine (Multiset.mem_sum.2 ⟨v, ?_, ?_⟩)
    · exact Finset.mem_erase.2 ⟨hvw, Finset.mem_range.2 hv⟩
    · rw [Worker.frames, hd']
      exact Multiset.mem_add.2 (.inr hx')

omit h

end Pipeline

/-! ## What is sent -/

namespace Routing
variable {A : Type} {e : PipelineEnv A} {s s' : Pipeline.State A}

theorem sent_eq_nil (h : ∀ v, (s'.workers v).inbox.Sublist (s.workers v).inbox) : sent e s s' = [] := by
  unfold sent
  rw [flatMap_eq_nil_iff]
  intro v _
  exact drop_eq_nil_of_le (h v).length_le

theorem flatMap_single {α : Type} (n v : Nat) (m : α) :
    ((List.range n).flatMap fun u => if u = v then [m] else []) = if v < n then [m] else [] := by
  induction n with
  | zero => rfl
  | succ n ih =>
    rw [range_succ, flatMap_append, ih, flatMap_cons, flatMap_nil, append_nil]
    by_cases hv : n = v
    · simp [hv]
    · have : v < n + 1 ↔ v < n := by omega
      simp [hv, this]

theorem sent_send {v : Nat} {m : Pipeline.Forwarded}
    (h : ∀ u, (s'.workers u).inbox = (s.workers u).inbox ++ if u = v then [m] else []) :
    sent e s s' = if v < e.workers then [m] else [] := by
  unfold sent
  simp only [h, drop_left]
  exact flatMap_single _ _ _

end Routing

/-! ## The workers -/

/-- The flow of a packet that `Worker::packet` handles. -/
def Packet.routeKey (t : TransportWire) (p : Packet) (verified : Bool) : Option RouteKey :=
  match p.ip.nextHeader with
  | .tcp => (p.tcpWithChecksum t verified).map fun found => .flow IpProtocol.tcp.number found.1
  | .udp => (p.udpWithChecksum t.udp verified).map fun found => .flow IpProtocol.udp.number found.1
  | _ => none

namespace Worker
variable {env : WorkerEnv} {s s' : Worker env} {w w' : env.World}

def Handled.key : Handled → Option RouteKey
  | .tcp flow => some (.flow IpProtocol.tcp.number flow)
  | .udp flow => some (.flow IpProtocol.udp.number flow)
  | _ => none

/-! ### A worker keeps its number -/

@[simp] theorem unblock_id (id : Ready) (blocked : Bool) : (s.unblock id blocked).id = s.id := by
  unfold unblock
  split_ifs <;> rfl

@[simp] theorem disarm_id (deadline : Option Nat) (generation : Nat) : (s.disarm deadline generation).id = s.id := by
  cases deadline <;> rfl

@[simp] theorem settleUdp_id (id : Ready) (entry : UdpEntry env) (r : UdpProgress × env.Direct × env.World) :
    (s.settleUdp id entry r).1.id = s.id := by
  obtain ⟨progress, _, _⟩ := r
  cases progress <;> rfl

@[simp] theorem settleTcp_id (id : Ready) (entry : TcpEntry env) (r : TcpProgress × env.Connection × env.World) :
    (s.settleTcp id entry r).1.id = s.id := by
  obtain ⟨progress, _, _⟩ := r
  cases progress <;> rfl

@[simp] theorem drive_id (id : Ready) : (s.drive w id).1.id = s.id := by
  unfold drive
  split
  · simp [driveUdp]
  · split
    · simp [driveTcp]
    · rfl

@[simp] theorem retire_id (flow : Flow) : (s.retire w flow).1.id = s.id := by
  unfold retire
  split <;> simp

theorem reuse_id (flow : Flow) (ip : IpRepr) (repr : TcpRepr) : (s.reuse w flow ip repr).2.1.id = s.id := by
  unfold reuse
  split
  · split_ifs
    · dsimp only
      split <;> simp
    · rfl
  · rfl

@[simp] theorem replace_id (flow : Flow) : (s.replace w flow).1.id = s.id := by
  unfold replace
  split
  · split_ifs <;> simp
  · rfl

theorem clearBlocked_id (id : Ready) : (s.clearBlocked id).id = s.id := by
  unfold clearBlocked
  dsimp only
  repeat' split
  all_goals rfl

variable {flow : Flow}

theorem connect_id {sequence : Option Nat} (h : s.connect w flow sequence = .ok (s', w')) : s'.id = s.id := by
  obtain ⟨_, -, h⟩ := except_bind_eq_ok.1 h
  split at h <;> cases h
  rfl

theorem associate_id (h : s.associate w flow = .ok (s', w')) : s'.id = s.id := by
  unfold associate at h
  split at h
  · cases h
    rfl
  · obtain ⟨_, -, h⟩ := except_bind_eq_ok.1 h
    split at h <;> cases h
    rfl

theorem step_id {event : Event env} (hevent : ∀ p frame, event ≠ .packet p frame)
    (h : s.step w event = .ok (s', w')) : s'.id = s.id := by
  cases event with
  | packet p frame => exact absurd rfl (hevent p frame)
  | stopping =>
    obtain rfl := congrArg Prod.fst (Except.ok.inj h)
    split_ifs <;> rfl
  | completed =>
    obtain rfl := congrArg Prod.fst (Except.ok.inj h)
    unfold complete
    split
    · split_ifs <;> rfl
    · rfl
  | transfer =>
    obtain rfl := congrArg Prod.fst (Except.ok.inj h)
    unfold install
    dsimp only
    split
    · split_ifs <;> rfl
    · rfl
  | ready id =>
    obtain rfl := congrArg Prod.fst (Except.ok.inj h)
    exact drive_id id
  | expired =>
    obtain rfl := congrArg Prod.fst (Except.ok.inj h)
    unfold expire
    split
    · rfl
    · split
      · rfl
      · exact drive_id _
  | writable =>
    obtain rfl := congrArg Prod.fst (Except.ok.inj h)
    unfold resume
    split
    · rfl
    · exact (drive_id _).trans (clearBlocked_id _)
  | other =>
    obtain rfl := congrArg Prod.fst (Except.ok.inj h)
    rfl

/-! ### `packet` -/

/-- What `packet` does with the flow that it finds. -/
structure Handles (s : Worker env) (p : Packet) (verified : Bool) (out : Handled) (s' : Worker env) : Prop where
  id : s'.id = s.id
  forward : ∀ {owner}, out = .forward owner →
    ∃ key, p.routeKey env.transport verified = some key ∧ env.owner key = owner ∧ owner ≠ s.id
  key : ∀ {key}, out.key = some key → p.routeKey env.transport verified = some key ∧ env.owner key = s.id

variable {out : Handled} {p : Packet}

theorem Handles.nothing {verified : Bool} (hid : s'.id = s.id)
    (hforward : ∀ {owner}, out ≠ .forward owner) (hkey : out.key = none) : Handles s p verified out s' :=
  ⟨hid, fun h => absurd h hforward, fun h => by cases hkey.symm.trans h⟩

theorem input_spec {repr : TcpRepr} {backing : Option Bytes}
    (h : s.input w flow p repr backing = .ok (out, s', w')) : s'.id = s.id ∧ out = .tcp flow := by
  unfold input at h
  split at h <;> cases h
  exact ⟨rfl, rfl⟩

theorem segment_spec {repr : TcpRepr} {backing : Option Bytes}
    (h : s.segment w flow p repr backing = .ok (out, s', w')) : s'.id = s.id ∧ (out = .rejected ∨ out = .tcp flow) := by
  have hreuse := reuse_id (s := s) (w := w) flow p.ip repr
  unfold segment at h
  generalize s.reuse w flow p.ip repr = r at h hreuse
  obtain ⟨_, _, _⟩ := r
  dsimp only at h hreuse
  split at h
  · exact (input_spec h).imp (·.trans hreuse) .inr
  · split_ifs at h
    · cases h
      exact ⟨hreuse, .inl rfl⟩
    · obtain ⟨⟨_, _⟩, hconnect, h⟩ := except_bind_eq_ok.1 h
      exact (input_spec h).imp (·.trans ((connect_id hconnect).trans hreuse)) .inr

theorem datagram_spec {payload : Bytes} {frame : Option Received}
    (h : s.datagram w flow payload frame = .ok (out, s', w')) : s'.id = s.id ∧ out = .udp flow := by
  have hreplace := replace_id (s := s) (w := w) flow
  unfold datagram at h
  generalize s.replace w flow = r at h hreplace
  obtain ⟨_, _⟩ := r
  obtain ⟨⟨_, _⟩, hassoc, h⟩ := except_bind_eq_ok.1 h
  dsimp only at h hreplace
  split at h
  · cases h
  · obtain ⟨_, -, h⟩ := except_bind_eq_ok.1 h
    obtain ⟨⟨_, _⟩, -, h⟩ := except_bind_eq_ok.1 h
    cases h
    exact ⟨(associate_id hassoc).trans hreplace, rfl⟩

theorem packet_spec {frame : Option Received}
    (h : s.packet w p frame = .ok (out, s', w')) : Handles s p (frame.any Received.checksumVerified) out s' := by
  have hignored : ∀ {r}, (Except.ok (.ignored, s, w) : Except Failure _) = .ok r →
      Handles s p (frame.any Received.checksumVerified) r.1 r.2.1 := fun heq => by
    obtain rfl := Except.ok.inj heq
    exact .nothing rfl nofun rfl
  unfold packet at h
  dsimp only at h
  split at h
  · next hnext =>
    split at h
    · exact hignored h
    · next flow repr hfound =>
      have hkey : p.routeKey env.transport (frame.any Received.checksumVerified) =
          some (.flow IpProtocol.tcp.number flow) := by rw [Packet.routeKey, hnext]; simp only [hfound, Option.map_some]
      split_ifs at h with howner
      · cases h
        exact ⟨rfl, fun heq => by cases heq; exact ⟨_, hkey, rfl, howner⟩, nofun⟩
      · obtain ⟨hid, rfl | rfl⟩ := segment_spec h
        · exact .nothing hid nofun rfl
        · exact ⟨hid, nofun, fun heq => by cases heq; exact ⟨hkey, not_not.1 howner⟩⟩
  · next hnext =>
    split_ifs at h
    · exact hignored h
    · split at h
      · exact hignored h
      · next flow payload hfound =>
        have hkey : p.routeKey env.transport (frame.any Received.checksumVerified) =
            some (.flow IpProtocol.udp.number flow) := by
          rw [Packet.routeKey, hnext]; simp only [hfound, Option.map_some]
        split_ifs at h with howner
        · cases h
          exact ⟨rfl, fun heq => by cases heq; exact ⟨_, hkey, rfl, howner⟩, nofun⟩
        · obtain ⟨hid, rfl⟩ := datagram_spec h
          exact ⟨hid, nofun, fun heq => by cases heq; exact ⟨hkey, not_not.1 howner⟩⟩
  · exact hignored h

end Worker

end Kotoconn.Tun
