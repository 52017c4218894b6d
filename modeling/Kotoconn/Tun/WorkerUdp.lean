import Kotoconn.Tun.WorkerSound

/-! # What an event does to the UDP entries -/

namespace Kotoconn.Tun.Worker
open Lib Relation AList

variable {env : WorkerEnv}

structure View (env : WorkerEnv) where
  generation : Nat
  udp : Table Flow (UdpEntry env)
  world : env.World

def view (s : Worker env) (w : env.World) : View env := ⟨s.generation, s.udp, w⟩

inductive TcpCall (w : env.World) : env.World → Prop
  | beginTurn (c : env.Connection) : TcpCall w (env.beginTurn c w)
  | poll (c : env.Connection) (stopping : Bool) : TcpCall w (env.poll c stopping w).2.2
  | wake (c : env.Connection) : TcpCall w (env.wake c w)
  | connect {flow : Flow} {g : Nat} {sequence : Option Nat} {c : env.Connection} {w' : env.World}
      (h : env.connect flow g sequence w = some (c, w')) : TcpCall w w'
  | input (c : env.Connection) (p : Packet) (repr : TcpRepr) (backing : Option Bytes) :
      TcpCall w (env.inputOwned c p repr backing w).2
  | drop (c : env.Connection) : TcpCall w (env.dropConnection c w)
  | reject (p : Packet) : TcpCall w (env.reject p w)

/-- One call; new entries are for the flows that `F` allows. -/
inductive Touch (F : Flow → Prop) (v : View env) : View env → Prop
  | tcp {w : env.World} (h : TcpCall v.world w) : Touch F v { v with world := w }
  | count : Touch F v { v with generation := v.generation + 1 }
  | flag {flow : Flow} {x : UdpEntry env} (hx : v.udp.lookup flow = some x) (blocked : Bool) :
      Touch F v { v with udp := v.udp.insert flow { x with blocked } }
  | erase {flow : Flow} {x : UdpEntry env} (hx : v.udp.lookup flow = some x) :
      Touch F v { v with udp := v.udp.erase flow, world := env.close x.scope v.world }
  | clear : Touch F v
      { v with udp := ∅, world := v.udp.values.foldl (fun w entry => env.close entry.scope w) v.world }
  | associate {flow : Flow} {scope : env.Scope} {packets : env.Queue} {w : env.World} (hflow : F flow)
      (hvacant : v.udp.lookup flow = none)
      (h : env.associate flow (v.generation + 1) v.world = some (scope, packets, w)) :
      Touch F v
        ⟨v.generation + 1, v.udp.insert flow ⟨some packets, scope, v.generation + 1, none, false⟩, w⟩
  | send {flow : Flow} {x : UdpEntry env} {packets : env.Queue} {payload : Bytes} {backing : Option Bytes} {w : env.World}
      (hx : v.udp.lookup flow = some x) (hdirect : x.direct = none) (hpackets : x.packets = some packets)
      (h : env.trySend packets flow payload backing v.world = some w) : Touch F v { v with world := w }
  | enqueue {flow : Flow} {x : UdpEntry env} {direct : env.Direct} (payload : Bytes) (backing : Option Bytes)
      (hx : v.udp.lookup flow = some x) (hdirect : x.direct = some direct) :
      Touch F v
        { v with
          udp := v.udp.insert flow { x with direct := some (env.enqueue direct flow payload backing v.world).2.1 }
          world := (env.enqueue direct flow payload backing v.world).2.2 }
  | poll {flow : Flow} {x : UdpEntry env} {direct : env.Direct} (hx : v.udp.lookup flow = some x)
      (hdirect : x.direct = some direct) :
      Touch F v
        { v with
          udp := v.udp.insert flow { x with direct := some (env.pollDirect direct v.world).2.1 }
          world := (env.pollDirect direct v.world).2.2 }

variable {F : Flow → Prop}

abbrev Touches (F : Flow → Prop) : View env → View env → Prop :=
  ReflTransGen (Touch F)

variable {s s' : Worker env} {w w' : env.World}

theorem view_eq {s s' : Worker env} {w : env.World} (hgen : s'.generation = s.generation) (hudp : s'.udp = s.udp) :
    s'.view w = s.view w := by
  rw [view, view, hgen, hudp]

theorem unblock_view (s : Worker env) (id : Ready) (blocked : Bool) (w : env.World) :
    (s.unblock id blocked).view w = s.view w := by
  obtain ⟨-, hudp, hgen, -⟩ := unblock_fields s id blocked
  exact view_eq hgen hudp

theorem disarm_view (s : Worker env) (deadline : Option Nat) (g : Nat) (w : env.World) :
    (s.disarm deadline g).view w = s.view w := by
  obtain ⟨-, hudp, hgen, -⟩ := disarm_fields s deadline g
  exact view_eq hgen hudp

/-! ## `drive` -/

theorem erase_insert_self {K V : Type} [DecidableEq K] (t : Table K V) (k : K) (v : V) :
    (t.insert k v).erase k = t.erase k := by
  apply AList.ext
  show List.kerase k (t.insert k v).entries = List.kerase k t.entries
  rw [AList.entries_insert]
  exact List.kerase_cons_eq rfl

section
variable {flow : Flow} {x : UdpEntry env} {g : Nat} {t : Table Flow (UdpEntry env)}

theorem Touch.flag_insert (blocked : Bool) :
    Touch F ⟨g, t.insert flow x, w⟩ ⟨g, t.insert flow { x with blocked }, w⟩ := by
  have h : Touch F ⟨g, t.insert flow x, w⟩ ⟨g, (t.insert flow x).insert flow { x with blocked }, w⟩ :=
    .flag (lookup_insert t) blocked
  rw [AList.insert_insert] at h
  exact h

theorem Touch.erase_insert : Touch F ⟨g, t.insert flow x, w⟩ ⟨g, t.erase flow, env.close x.scope w⟩ := by
  have h : Touch F ⟨g, t.insert flow x, w⟩ ⟨g, (t.insert flow x).erase flow, env.close x.scope w⟩ :=
    .erase (lookup_insert t)
  rw [erase_insert_self] at h
  exact h

end

theorem settleUdp_touches (s : Worker env) (id : Ready) (x : UdpEntry env) (progress : UdpProgress)
    (direct : env.Direct) (w : env.World) :
    Touches F ⟨s.generation, s.udp.insert id.1 { x with direct := some direct }, w⟩
      ((s.settleUdp id x (progress, direct, w)).1.view (s.settleUdp id x (progress, direct, w)).2) := by
  cases progress with
  | idle => exact .single (.flag_insert false)
  | blocked => exact .single (.flag_insert true)
  | closed => exact .single .erase_insert

theorem driveUdp_touches {id : Ready} {x : UdpEntry env} {direct : env.Direct} (hx : s.udp.lookup id.1 = some x)
    (hdirect : x.direct = some direct) (w : env.World) :
    Touches F (s.view w) ((s.driveUdp w id x direct).1.view (s.driveUdp w id x direct).2) := by
  obtain ⟨-, hudp, _, -⟩ := unblock_fields s id x.blocked
  rw [← unblock_view s id x.blocked w, driveUdp]
  rw [← hudp] at hx
  generalize s.unblock id x.blocked = s₁ at hx
  split_ifs
  · exact .single (.erase hx)
  · exact .trans (.single (.poll hx hdirect)) (settleUdp_touches s₁ id x _ _ _)

theorem driveTcp_touches (s : Worker env) (w : env.World) (id : Ready) (x : TcpEntry env) :
    Touches F (s.view w) ((s.driveTcp w id x).1.view (s.driveTcp w id x).2) := by
  have hbegin : Touch F (s.view w) (s.view (env.beginTurn x.connection w)) :=
    .tcp (v := s.view w) (.beginTurn x.connection)
  have hpoll := Touch.tcp (F := F) (v := s.view (env.beginTurn x.connection w))
    (.poll x.connection s.stopping)
  refine (ReflTransGen.single hbegin).trans (.trans (.single hpoll) ?_)
  obtain ⟨-, hudp, hgen, -⟩ := disarm_fields s x.deadline id.2
  obtain ⟨-, hudp', hgen', -⟩ := unblock_fields (s.disarm x.deadline id.2) id x.blocked
  have hview := fun w => view_eq (w := w) (hgen'.trans hgen) (hudp'.trans hudp)
  rw [driveTcp]
  show Touches F (s.view (env.poll x.connection s.stopping (env.beginTurn x.connection w)).2.2) _
  generalize env.poll x.connection s.stopping (env.beginTurn x.connection w) = r
  rw [← hview r.2.2]
  generalize (s.disarm x.deadline id.2).unblock id x.blocked = s₁
  obtain ⟨progress, connection, w⟩ := r
  cases progress with
  | idle => exact .refl
  | again => exact .single (.tcp (v := s₁.view w) (.wake connection))
  | blocked => exact .refl
  | closed => exact .single (.tcp (v := s₁.view w) (.drop connection))

theorem drive_touches (s : Worker env) (w : env.World) (id : Ready) :
    Touches F (s.view w) ((s.drive w id).1.view (s.drive w id).2) := by
  rw [drive]
  split
  · next x direct hof =>
      simp only [directOf, Option.bind_eq_bind, Option.bind_eq_some_iff] at hof
      obtain ⟨_, hy, _, hd, hof⟩ := hof
      split_ifs at hof
      obtain ⟨rfl, rfl⟩ := Prod.mk.inj (Option.some.inj hof)
      exact driveUdp_touches hy hd w
  · split
    · exact driveTcp_touches s w id _
    · exact .refl

/-! ## `packet` -/

theorem retire_touches (s : Worker env) (w : env.World) (flow : Flow) :
    Touches F (s.view w) ((s.retire w flow).1.view (s.retire w flow).2) := by
  rw [retire]
  cases s.tcp.lookup flow with
  | none => exact .refl
  | some x =>
    dsimp only
    rw [unblock_view, disarm_view]
    exact .single (.tcp (v := s.view w) (.drop x.connection))

theorem reuse_touches (s : Worker env) (w : env.World) (flow : Flow) (ip : IpRepr) (repr : TcpRepr) :
    Touches F (s.view w) ((s.reuse w flow ip repr).2.1.view (s.reuse w flow ip repr).2.2) := by
  rw [reuse]
  cases s.tcp.lookup flow with
  | none => exact .refl
  | some x =>
    dsimp only
    split_ifs
    · have hdrive := drive_touches (F := F) s w (flow, x.generation)
      split
      · exact hdrive.trans (retire_touches _ _ _)
      · exact hdrive
    · exact .refl

variable {flow : Flow}

theorem connect_touches {sequence : Option Nat} (hok : s.connect w flow sequence = .ok (s', w')) :
    Touches F (s.view w) (s'.view w') := by
  obtain ⟨_, hconnect, rfl⟩ := connect_eq_ok hok
  exact .trans (.single (.tcp (v := s.view w) (.connect hconnect))) (.single (.count (v := s.view _)))

variable {handled : Handled} {backing : Option Bytes} {p : Packet}

theorem input_touches {repr : TcpRepr}
    (hok : s.input w flow p repr backing = .ok (handled, s', w')) : Touches F (s.view w) (s'.view w') := by
  rw [input] at hok
  split at hok
  · cases hok
  · next x hx =>
      cases hok
      exact .single (.tcp (v := s.view w) (.input x.connection p repr backing))

theorem segment_touches {repr : TcpRepr} (hok : s.segment w flow p repr backing = .ok (handled, s', w')) :
    Touches F (s.view w) (s'.view w') := by
  have hreuse := reuse_touches (F := F) s w flow p.ip repr
  rw [segment] at hok
  generalize s.reuse w flow p.ip repr = r at hok hreuse
  obtain ⟨sequence, s₁, w₁⟩ := r
  refine hreuse.trans ?_
  dsimp only at hok ⊢
  split at hok
  · exact input_touches hok
  · split_ifs at hok
    · cases hok
      exact .single (.tcp (.reject p))
    · cases hconnect : s₁.connect w₁ flow sequence with
      | error => rw [hconnect] at hok; cases hok
      | ok =>
        rw [hconnect] at hok
        exact (connect_touches hconnect).trans (input_touches hok)

theorem replace_touches (s : Worker env) (w : env.World) (flow : Flow) :
    Touches F (s.view w) ((s.replace w flow).1.view (s.replace w flow).2) := by
  rw [replace]
  cases hx : s.udp.lookup flow with
  | none => exact .refl
  | some =>
    dsimp only
    split_ifs
    · rw [unblock_view]
      exact .single (.erase (v := s.view w) hx)
    · exact .refl

theorem associate_touches (hflow : F flow) (hok : s.associate w flow = .ok (s', w')) :
    Touches F (s.view w) (s'.view w') := by
  rcases associate_eq_ok hok with ⟨rfl, rfl⟩ | ⟨hvacant, _, _, hassoc, rfl⟩
  · exact .refl
  · exact .single (.associate (v := s.view w) hflow hvacant hassoc)

theorem sendParts_touches {parts : List Bytes} {g : Nat}
    {t : Table Flow (UdpEntry env)} {x y : UdpEntry env} (hx : t.lookup flow = some x)
    (hok : sendParts flow backing x w parts = .ok (y, w')) : Touches F ⟨g, t, w⟩ ⟨g, t.insert flow y, w'⟩ := by
  induction parts generalizing t x w with
  | nil =>
    cases hok
    exact .single (.flag hx _)
  | cons part _ ih =>
    rw [sendParts] at hok
    split at hok
    · next direct hdirect =>
        have htouch := Touch.enqueue (F := F) (v := ⟨g, t, w⟩) part backing hx hdirect
        have hrest := ih (t := t.insert flow { x with direct := some (env.enqueue direct flow part backing w).2.1 })
          (lookup_insert t) hok
        rw [AList.insert_insert] at hrest
        exact .trans (.single htouch) hrest
    · next hdirect =>
        split at hok
        · cases hok
        · next packets hpackets =>
            split at hok
            · cases hok
              exact .single (.flag hx _)
            · next w₁ hsend =>
                exact .trans (.single (.send (v := ⟨g, t, w⟩) hx hdirect hpackets hsend)) (ih hx hok)

theorem datagram_touches (hflow : F flow) {payload : Bytes} {frame : Option Received}
    (hok : s.datagram w flow payload frame = .ok (handled, s', w')) : Touches F (s.view w) (s'.view w') := by
  have hreplace := replace_touches (F := F) s w flow
  rw [datagram] at hok
  generalize s.replace w flow = r at hok hreplace
  obtain ⟨s₁, w₁⟩ := r
  refine hreplace.trans ?_
  cases hassoc : s₁.associate w₁ flow with
  | error => simp only [hassoc, bind, Except.bind] at hok; cases hok
  | ok r =>
    obtain ⟨_, _⟩ := r
    refine (associate_touches hflow hassoc).trans ?_
    simp only [hassoc, bind, Except.bind] at hok
    split at hok
    · cases hok
    · next x hx =>
        split at hok
        · cases hok
        · next parts hparts =>
            split at hok
            · cases hok
            · next r hsend =>
                cases hok
                exact sendParts_touches hx hsend

def Event.admits : Event env → Flow → Prop
  | .packet p _, flow => flow.source.ip = p.ip.srcAddr ∧ flow.destination.ip = p.ip.dstAddr
  | _, _ => False

theorem udpWithChecksum_admits {u : UdpWire} {verified : Bool} {payload : Bytes}
    (h : p.udpWithChecksum u verified = some (flow, payload)) (frame : Option Received) :
    (Event.packet p frame : Event env).admits flow := by
  unfold Packet.udpWithChecksum at h
  simp only at h
  split_ifs at h
  cases h
  exact ⟨rfl, rfl⟩

theorem packet_touches {frame : Option Received} (hok : s.packet w p frame = .ok (handled, s', w')) :
    Touches (Event.packet p frame : Event env).admits (s.view w) (s'.view w') := by
  rw [packet] at hok
  split at hok
  · split at hok
    · cases hok
      exact .refl
    · split_ifs at hok
      · cases hok
        exact .refl
      · exact segment_touches hok
  · split_ifs at hok
    · cases hok
      exact .refl
    · split at hok
      · cases hok
        exact .refl
      · next flow payload hudp =>
          split_ifs at hok
          · cases hok
            exact .refl
          · exact datagram_touches (udpWithChecksum_admits hudp frame) hok
  · cases hok
    exact .refl

/-! ## `dispatch` -/

theorem wakeAll_touches (entries : List (TcpEntry env)) (v : View env) :
    Touches F v { v with world := entries.foldl (fun w entry => env.wake entry.connection w) v.world } := by
  induction entries generalizing v with
  | nil => exact .refl
  | cons entry _ ih =>
    exact .trans (.single (.tcp (.wake entry.connection))) (ih { v with world := env.wake entry.connection v.world })

theorem stop_touches (s : Worker env) (w : env.World) : Touches F (s.view w) ((s.stop w).1.view (s.stop w).2) :=
  .trans (.single .clear) (wakeAll_touches s.tcp.values ⟨s.generation, ∅, s.closeAll w⟩)

theorem complete_touches (s : Worker env) (w : env.World) (id : Ready) :
    Touches F (s.view w) ((s.complete w id).1.view (s.complete w id).2) := by
  rw [complete]
  cases hx : s.udp.lookup id.1 with
  | none => exact .refl
  | some =>
    dsimp only
    split_ifs
    · exact .single (.erase (v := s.view w) hx)
    · exact .refl

/-- A transfer is installed in the entry it names, if that is open; else nothing happens. -/
theorem install_cases (s : Worker env) (w : env.World) (t : env.Transfer) :
    (∃ x, s.udp.lookup (env.transferId t).1 = some x ∧ x.generation = (env.transferId t).2 ∧ s.install w t =
        ({ s with udp := s.udp.insert (env.transferId t).1 { x with direct := some (env.direct t w).1, packets := none } },
          (env.direct t w).2)) ∨
    s.install w t = (s, w) := by
  unfold install
  dsimp only
  cases hx : s.udp.lookup (env.transferId t).1 with
  | none => exact .inr rfl
  | some x =>
    dsimp only
    split_ifs with hcurrent
    · exact .inl ⟨x, rfl, hcurrent.1, rfl⟩
    · exact .inr rfl

theorem install_stale {t : env.Transfer}
    (h : ∀ x, s.udp.lookup (env.transferId t).1 = some x → x.generation ≠ (env.transferId t).2) :
    s.install w t = (s, w) := by
  rcases install_cases s w t with ⟨x, hx, hg, -⟩ | hsame
  · exact absurd hg (h x hx)
  · exact hsame

theorem expire_touches (s : Worker env) (w : env.World) :
    Touches F (s.view w) ((s.expire w).1.view (s.expire w).2) := by
  rw [expire]
  cases s.timers.keys.min? with
  | none => exact .refl
  | some key =>
    dsimp only
    cases s.timers.lookup key with
    | none => exact .refl
    | some flow => exact drive_touches { s with timers := s.timers.erase key } w (flow, (ofLex key).2)

/-- The second half of `clearBlocked`. -/
def clearUdp (s : Worker env) (id : Ready) : Worker env :=
  match s.udp.lookup id.1 with
  | some x => if x.generation = id.2 then { s with udp := s.udp.insert id.1 { x with blocked := false } } else s
  | none => s

theorem clearBlocked_touches (s : Worker env) (w : env.World) (id : Ready) :
    Touches F (s.view w) ((s.clearBlocked id).view w) := by
  have hudp : ∀ s₁ : Worker env, Touches F (s₁.view w) ((s₁.clearUdp id).view w) := fun s₁ => by
    unfold clearUdp
    split
    · next x hx =>
        split_ifs
        · exact .single (.flag (v := s₁.view w) hx false)
        · exact .refl
    · exact .refl
  rw [clearBlocked]
  cases s.tcp.lookup id.1 with
  | none => exact hudp s
  | some x =>
    by_cases hx : x.generation = id.2
    · simp only [if_pos hx]
      exact hudp { s with tcp := s.tcp.insert id.1 { x with blocked := false } }
    · simp only [if_neg hx]
      exact hudp s

theorem resume_touches (s : Worker env) (w : env.World) :
    Touches F (s.view w) ((s.resume w).1.view (s.resume w).2) := by
  rw [resume]
  split
  · exact .refl
  · next id bytes rest _ =>
      exact (clearBlocked_touches { s with blocked := rest } w id).trans (drive_touches _ w id)

theorem Touches.of_eq {v : View env} {r : Worker env × env.World} (h : Touches F v (r.1.view r.2)) (hr : r = (s', w')) :
    Touches F v (s'.view w') := by
  rw [hr] at h
  exact h

def Event.Own : Event env → Prop
  | .transfer _ | .other _ => False
  | _ => True

theorem step_touches {event : Event env} (hown : event.Own) (hstep : s.step w event = .ok (s', w')) :
    Touches event.admits (s.view w) (s'.view w') := by
  cases event with
  | packet p frame =>
    cases hpacket : s.packet w p frame with
    | error =>
      rw [step, hpacket] at hstep
      cases hstep
    | ok r =>
      obtain ⟨_, _, _⟩ := r
      rw [step, hpacket] at hstep
      cases hstep
      exact packet_touches hpacket
  | stopping =>
    rw [step] at hstep
    split_ifs at hstep
    · exact Touches.of_eq .refl (Except.ok.inj hstep)
    · exact Touches.of_eq (stop_touches s w) (Except.ok.inj hstep)
  | completed id => exact Touches.of_eq (complete_touches s w id) (Except.ok.inj hstep)
  | transfer => exact hown.elim
  | ready id => exact Touches.of_eq (drive_touches s w id) (Except.ok.inj hstep)
  | expired => exact Touches.of_eq (expire_touches s w) (Except.ok.inj hstep)
  | writable => exact Touches.of_eq (resume_touches s w) (Except.ok.inj hstep)
  | other => exact hown.elim

end Kotoconn.Tun.Worker
