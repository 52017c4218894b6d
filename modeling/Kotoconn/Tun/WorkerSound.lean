import Kotoconn.Tun.Udp.Octets
import Kotoconn.Tun.WorkerSchedule

/-!
# The scheduling state is sound in every run

Every event but `stopping` is a chain of changes of one entry each (`Becomes`).
-/

namespace Kotoconn.Tun.Worker
open Lib List Option

variable {env : WorkerEnv} {s s' s'' : Worker env} {w w' : env.World}

/-! ## `drive` -/

variable {flow : Flow}

theorem driveTcp_becomes (h : s.Scheduled) {x : TcpEntry env} (hx : s.tcp.lookup flow = some x)
    (w : env.World) : ∃ new, Becomes x.generation new s (s.driveTcp w (flow, x.generation) x).1 := by
  have hslot := h.slot (live_tcp hx)
  have hcounted : x.generation ≤ s.generation := h.counted (live_tcp hx)
  have q : Quiet x.generation s ((s.disarm x.deadline x.generation).unblock (flow, x.generation) x.blocked) :=
    h.quiet (live_tcp hx)
  rw [driveTcp]
  generalize (s.disarm x.deadline x.generation).unblock (flow, x.generation) x.blocked = s₁ at q
  rw [← q.generation] at hcounted
  obtain ⟨progress, connection, _⟩ := env.poll x.connection s.stopping (env.beginTurn x.connection w)
  cases progress with
  | idle deadline =>
    exact ⟨_, q.insertTcp (y := ⟨connection, x.generation, deadline, false⟩) (b := 0) hslot rfl
      (.inr ⟨x, hx⟩) rfl rfl rfl (append_nil _).symm hcounted
      q.generation.ge⟩
  | again =>
    exact ⟨_, q.insertTcp (y := ⟨connection, x.generation, none, false⟩) (b := 0) hslot rfl
      (.inr ⟨x, hx⟩) rfl rfl rfl (append_nil _).symm hcounted
      q.generation.ge⟩
  | blocked bytes =>
    exact ⟨_, q.insertTcp (y := ⟨connection, x.generation, none, true⟩) (b := bytes) hslot rfl
      (.inr ⟨x, hx⟩) rfl rfl rfl rfl hcounted q.generation.ge⟩
  | closed => exact ⟨_, q.eraseTcp hslot rfl rfl rfl rfl hcounted q.generation.ge⟩

variable {x : UdpEntry env}

theorem driveUdp_becomes (h : s.Scheduled) (hx : s.udp.lookup flow = some x) (w : env.World) (direct : env.Direct) :
    ∃ new, Becomes x.generation new s (s.driveUdp w (flow, x.generation) x direct).1 := by
  have hslot := h.slot (live_udp hx)
  have hcounted : x.generation ≤ s.generation := h.counted (live_udp hx)
  have q : Quiet x.generation s (s.unblock (flow, x.generation) x.blocked) := h.quiet (live_udp hx)
  rw [driveUdp]
  generalize s.unblock (flow, x.generation) x.blocked = s₁ at q
  rw [← q.generation] at hcounted
  obtain ⟨progress, direct', _⟩ :=
    if env.isClosed x.scope w then (UdpProgress.closed, direct, w) else env.pollDirect direct w
  cases progress with
  | idle =>
    exact ⟨_, q.insertUdp (y := { x with direct := some direct', blocked := false }) (b := 0) hslot rfl
      (.inr ⟨x, hx⟩) rfl rfl rfl (append_nil _).symm hcounted
      q.generation.ge⟩
  | blocked bytes =>
    exact ⟨_, q.insertUdp (y := { x with direct := some direct', blocked := true }) (b := bytes) hslot rfl
      (.inr ⟨x, hx⟩) rfl rfl rfl rfl hcounted q.generation.ge⟩
  | closed => exact ⟨_, q.eraseUdp hslot rfl rfl rfl rfl hcounted q.generation.ge⟩

/-- From `s` to `s'` the invariant is kept, and no generation is reused. -/
structure Moves (s s' : Worker env) : Prop where
  scheduled : s'.Scheduled
  keeps : Keeps s s'

theorem Becomes.moves {g : Nat} {new : Option Item} (h : Becomes g new s s') (hs : s.Scheduled) : Moves s s' :=
  ⟨h.scheduled hs, h.keeps⟩

theorem Moves.refl (h : s.Scheduled) : Moves s s := ⟨h, .refl s⟩

theorem Moves.trans (h : Moves s s') (h' : Moves s' s'') : Moves s s'' := ⟨h'.scheduled, h.keeps.trans h'.keeps⟩

variable {id : Ready}

theorem directOf_eq_some {direct : env.Direct} (h : s.directOf id = some (x, direct)) :
    s.udp.lookup id.1 = some x ∧ x.generation = id.2 := by
  simp only [directOf, bind_eq_bind, bind_eq_some_iff] at h
  obtain ⟨_, hy, _, -, h⟩ := h
  split_ifs at h with hg
  obtain ⟨rfl, -⟩ := Prod.mk.inj (some.inj h)
  exact ⟨hy, hg⟩

theorem connectionOf_eq_some {x : TcpEntry env} :
    s.connectionOf id = some x ↔ s.tcp.lookup id.1 = some x ∧ x.generation = id.2 := by
  rw [connectionOf, filter_eq_some_iff, beq_iff_eq]

theorem drive_eq_driveTcp {x : TcpEntry env} (hdirect : s.directOf id = none)
    (hconnection : s.connectionOf id = some x) : s.drive w id = s.driveTcp w id x := by
  rw [drive, hdirect, hconnection]

theorem drive_spec (h : s.Scheduled) (w : env.World) (id : Ready) :
    Moves s (s.drive w id).1 ∧ Only id.2 s (s.drive w id).1 := by
  obtain ⟨_, _⟩ := id
  rw [drive]
  split
  · next entry direct hdirect =>
      obtain ⟨hx, rfl⟩ := directOf_eq_some hdirect
      obtain ⟨new, hbecomes⟩ := driveUdp_becomes h hx w direct
      exact ⟨hbecomes.moves h, hbecomes.only⟩
  · split
    · next entry hentry =>
        obtain ⟨hx, rfl⟩ := connectionOf_eq_some.1 hentry
        obtain ⟨_, hbecomes⟩ := driveTcp_becomes h hx w
        exact ⟨hbecomes.moves h, hbecomes.only⟩
    · exact ⟨.refl h, .refl _ s⟩

/-! ## `packet` -/

theorem retire_moves (h : s.Scheduled) (w : env.World) (flow : Flow) : Moves s (s.retire w flow).1 := by
  rw [retire]
  cases hx : s.tcp.lookup flow with
  | none => exact .refl h
  | some x =>
    have hslot := h.slot (live_tcp hx)
    have hcounted : x.generation ≤ s.generation := h.counted (live_tcp hx)
    have q : Quiet x.generation s ((s.disarm x.deadline x.generation).unblock (flow, x.generation) x.blocked) :=
      h.quiet (live_tcp hx)
    obtain ⟨_, generation, deadline, blocked⟩ := x
    have hbecomes : Becomes generation none s
        (({ s with tcp := s.tcp.erase flow }.disarm deadline generation).unblock (flow, generation) blocked) := by
      cases deadline <;> cases blocked <;> exact q.eraseTcp hslot rfl rfl rfl rfl hcounted le_rfl
    exact hbecomes.moves h

theorem reuse_moves (h : s.Scheduled) (w : env.World) (flow : Flow) (ip : IpRepr) (repr : TcpRepr) :
    Moves s (s.reuse w flow ip repr).2.1 := by
  rw [reuse]
  cases s.tcp.lookup flow with
  | none => exact .refl h
  | some x =>
    dsimp only
    split
    · have hdrive := (drive_spec h w (flow, x.generation)).1
      split
      · exact hdrive.trans (retire_moves hdrive.scheduled _ flow)
      · exact hdrive
    · exact .refl h

theorem nextGeneration_eq_ok {g : Nat} (h : s.nextGeneration = .ok g) : g = s.generation + 1 := by
  rw [nextGeneration] at h
  split_ifs at h
  exact (Except.ok.inj h).symm

theorem connect_eq_ok {sequence : Option Nat} (hok : s.connect w flow sequence = .ok (s', w')) : ∃ connection,
    env.connect flow (s.generation + 1) sequence w = some (connection, w') ∧ s' = { s with
      generation := s.generation + 1, tcp := s.tcp.insert flow ⟨connection, s.generation + 1, none, false⟩ } := by
  obtain ⟨_, hg, hok⟩ := except_bind_eq_ok.1 hok
  obtain rfl := nextGeneration_eq_ok hg
  split at hok
  · cases hok
  · next connection _ hconnect =>
      cases hok
      exact ⟨connection, hconnect, rfl⟩

theorem associate_eq_ok (hok : s.associate w flow = .ok (s', w')) : (s' = s ∧ w' = w) ∨
    s.udp.lookup flow = none ∧ ∃ scope packets,
      env.associate flow (s.generation + 1) w = some (scope, packets, w') ∧ s' = { s with
        generation := s.generation + 1
        udp := s.udp.insert flow ⟨some packets, scope, s.generation + 1, none, false⟩ } := by
  rw [associate] at hok
  split at hok
  · cases hok
    exact .inl ⟨rfl, rfl⟩
  · next hvacant =>
      obtain ⟨_, hg, hok⟩ := except_bind_eq_ok.1 hok
      obtain rfl := nextGeneration_eq_ok hg
      split at hok
      · cases hok
      · next scope packets _ hassoc =>
          cases hok
          exact .inr ⟨hvacant, scope, packets, hassoc, rfl⟩

variable (h : s.Scheduled)
include h

theorem connect_moves (hvacant : s.tcp.lookup flow = none) {sequence : Option Nat}
    (hok : s.connect w flow sequence = .ok (s', w')) : Moves s s' := by
  obtain ⟨connection, -, rfl⟩ := connect_eq_ok hok
  have hslot : s.Slot true flow (s.generation + 1) := h.slot_fresh (lt_add_one _) fun {i} hi htcp hflow => by
    rcases hi with ⟨f, x, hx, rfl⟩ | ⟨f, x, hx, rfl⟩
    · obtain rfl : f = flow := hflow
      cases hx.symm.trans hvacant
    · cases htcp
  have hbecomes : Becomes (s.generation + 1) _ s { s with
      generation := s.generation + 1, tcp := s.tcp.insert flow ⟨connection, s.generation + 1, none, false⟩ } :=
    (h.quiet_fresh (lt_add_one _)).insertTcp (b := 0) (y := ⟨connection, s.generation + 1, none, false⟩)
      hslot rfl (.inl (lt_add_one _)) rfl rfl rfl (append_nil _).symm le_rfl (Nat.le_succ _)
  exact hbecomes.moves h

variable {handled : Handled} {backing : Option Bytes}

theorem input_moves {p : Packet} {repr : TcpRepr}
    (hok : s.input w flow p repr backing = .ok (handled, s', w')) : Moves s s' := by
  rw [input] at hok
  split at hok
  · cases hok
  · next x hx =>
      obtain ⟨-, hs, -⟩ := (Prod.mk.inj (Except.ok.inj hok)).imp_right Prod.mk.inj
      rw [← hs]
      exact (h.becomes_tcp hx _).moves h

theorem segment_moves {p : Packet} {repr : TcpRepr}
    (hok : s.segment w flow p repr backing = .ok (handled, s', w')) : Moves s s' := by
  have hreuse := reuse_moves h w flow p.ip repr
  rw [segment] at hok
  generalize s.reuse w flow p.ip repr = r at hok hreuse
  obtain ⟨sequence, s₁, w₁⟩ := r
  dsimp only at hok hreuse
  split at hok
  · exact hreuse.trans (input_moves hreuse.scheduled hok)
  · next hvacant =>
      split_ifs at hok
      · obtain ⟨-, rfl, -⟩ := (Prod.mk.inj (Except.ok.inj hok)).imp_right Prod.mk.inj
        exact hreuse
      · cases hconnect : s₁.connect w₁ flow sequence with
        | error => rw [hconnect] at hok; cases hok
        | ok r =>
          obtain ⟨_, _⟩ := r
          rw [hconnect] at hok
          have hconnected := hreuse.trans (connect_moves hreuse.scheduled hvacant hconnect)
          exact hconnected.trans (input_moves hconnected.scheduled hok)

theorem eraseUdp_becomes (hx : s.udp.lookup flow = some x) :
    Becomes x.generation none s ({ s with udp := s.udp.erase flow }.unblock (flow, x.generation) x.blocked) := by
  have hslot := h.slot (live_udp hx)
  have hcounted : x.generation ≤ s.generation := h.counted (live_udp hx)
  have q : Quiet x.generation s (s.unblock (flow, x.generation) x.blocked) := h.quiet (live_udp hx)
  obtain ⟨_, _, _, _, blocked⟩ := x
  cases blocked <;> exact q.eraseUdp hslot rfl rfl rfl rfl hcounted le_rfl

theorem replace_moves (w : env.World) (flow : Flow) : Moves s (s.replace w flow).1 := by
  rw [replace]
  cases hx : s.udp.lookup flow with
  | none => exact .refl h
  | some =>
    dsimp only
    split
    · exact (eraseUdp_becomes h hx).moves h
    · exact .refl h

theorem associate_moves (hok : s.associate w flow = .ok (s', w')) : Moves s s' := by
  rcases associate_eq_ok hok with ⟨rfl, -⟩ | ⟨hvacant, scope, packets, -, rfl⟩
  · exact .refl h
  · have hslot : s.Slot false flow (s.generation + 1) := h.slot_fresh (lt_add_one _) fun {i} hi htcp hflow => by
      rcases hi with ⟨f, x, hx, rfl⟩ | ⟨f, x, hx, rfl⟩
      · cases htcp
      · obtain rfl : f = flow := hflow
        cases hx.symm.trans hvacant
    have hbecomes : Becomes (s.generation + 1) _ s { s with
        generation := s.generation + 1
        udp := s.udp.insert flow ⟨some packets, scope, s.generation + 1, none, false⟩ } :=
      (h.quiet_fresh (lt_add_one _)).insertUdp (b := 0)
        (y := ⟨some packets, scope, s.generation + 1, none, false⟩) hslot rfl (.inl (lt_add_one _)) rfl
        rfl rfl (append_nil _).symm le_rfl (Nat.le_succ _)
    exact hbecomes.moves h

omit h

theorem sendParts_keeps {parts : List Bytes} {x y : UdpEntry env}
    (hok : sendParts flow backing x w parts = .ok (y, w')) : y.generation = x.generation ∧ y.blocked = x.blocked := by
  induction parts generalizing x w with
  | nil =>
    obtain ⟨rfl, -⟩ := Prod.mk.inj (Except.ok.inj hok)
    exact ⟨rfl, rfl⟩
  | cons _ _ ih =>
    rw [sendParts] at hok
    split at hok
    · exact ih (x := { x with direct := some _ }) hok
    · split at hok
      · cases hok
      · split at hok
        · obtain ⟨rfl, -⟩ := Prod.mk.inj (Except.ok.inj hok)
          exact ⟨rfl, rfl⟩
        · exact ih hok

theorem datagram_moves (h : s.Scheduled) {payload : Bytes} {frame : Option Received}
    (hok : s.datagram w flow payload frame = .ok (handled, s', w')) : Moves s s' := by
  have hreplace := replace_moves h w flow
  rw [datagram] at hok
  generalize s.replace w flow = r at hok hreplace
  obtain ⟨s₁, w₁⟩ := r
  cases hassoc : s₁.associate w₁ flow with
  | error => simp only [hassoc] at hok; cases hok
  | ok r =>
    obtain ⟨_, w₂⟩ := r
    have hassociated := hreplace.trans (associate_moves hreplace.scheduled hassoc)
    simp only [hassoc] at hok
    dsimp only [bind, Except.bind] at hok
    split at hok
    · cases hok
    · next x hx =>
        split at hok
        · cases hok
        · next parts _ =>
            cases hsend : sendParts flow (frame.map Received.bytes) x w₂ parts with
            | error => rw [hsend] at hok; cases hok
            | ok r =>
              obtain ⟨_, _⟩ := r
              rw [hsend] at hok
              obtain ⟨hgen, hblocked⟩ := sendParts_keeps hsend
              obtain ⟨-, rfl, -⟩ := (Prod.mk.inj (Except.ok.inj hok)).imp_right Prod.mk.inj
              exact hassociated.trans
                ((hassociated.scheduled.becomes_udp hx hgen hblocked).moves hassociated.scheduled)

theorem packet_moves (h : s.Scheduled) {p : Packet} {frame : Option Received}
    (hok : s.packet w p frame = .ok (handled, s', w')) : Moves s s' := by
  have hsame : ∀ {handled' : Handled}, (Except.ok (handled', s, w) : Except Failure _) = .ok (handled, s', w') →
      Moves s s' := fun heq => by
    obtain ⟨-, rfl, -⟩ := (Prod.mk.inj (Except.ok.inj heq)).imp_right Prod.mk.inj
    exact .refl h
  rw [packet] at hok
  split at hok
  · split at hok
    · exact hsame hok
    · split_ifs at hok
      · exact hsame hok
      · exact segment_moves h hok
  · split_ifs at hok
    · exact hsame hok
    · split at hok
      · exact hsame hok
      · split_ifs at hok
        · exact hsame hok
        · exact datagram_moves h hok
  · exact hsame hok

/-! ## The other events -/

theorem stop_moves (h : s.Scheduled) (w : env.World) : Moves s (s.stop w).1 := by
  have hlive : ∀ {i}, (s.stop w).1.Live i → s.Live i := by
    rintro i (⟨flow, x, hx, rfl⟩ | ⟨flow, x, hx, rfl⟩)
    · exact live_tcp hx
    · cases hx
  refine ⟨⟨fun hi hj => h.distinct (hlive hi) (hlive hj), fun hi => h.counted (hlive hi), h.timers, ?_, ?_⟩,
    le_rfl, fun hi _ => ⟨_, hlive hi, rfl, rfl⟩⟩
  · intro id
    have hmem : id ∈ (s.stop w).1.blocked.map Prod.fst ↔ id ∈ s.blocked.map Prod.fst ∧ (s.connectionOf id).isSome := by
      simp only [stop, List.mem_map, mem_filter]
      constructor
      · rintro ⟨waiting, ⟨hwaiting, hsome⟩, rfl⟩
        exact ⟨⟨waiting, hwaiting, rfl⟩, hsome⟩
      · rintro ⟨⟨waiting, hwaiting, rfl⟩, hsome⟩
        exact ⟨waiting, ⟨hwaiting, hsome⟩, rfl⟩
    rw [hmem, h.blocked, isSome_iff_exists]
    constructor
    · rintro ⟨htcp | ⟨_, hy, hyg, -⟩, x, hx⟩
      · exact .inl htcp
      · obtain ⟨hx, hxg⟩ := connectionOf_eq_some.1 hx
        cases h.distinct (live_tcp hx) (live_udp hy) (hxg.trans hyg.symm)
    · rintro (⟨x, hx, hxg, hblocked⟩ | ⟨x, hx, -⟩)
      · exact ⟨.inl ⟨x, hx, hxg, hblocked⟩, x, connectionOf_eq_some.2 ⟨hx, hxg⟩⟩
      · cases hx
  · exact h.once.sublist (filter_sublist.map _)

theorem Scheduled.blocked_of_mem (h : s.Scheduled) {i : Item} (hi : s.Live i)
    (hid : i.ready ∈ s.blocked.map Prod.fst) : i.blocked = true := by
  obtain ⟨_, hj, hready, hblocked⟩ := exists_blocked_iff.1 (h.blocked.1 hid)
  obtain rfl := h.distinct hj hi (congrArg Prod.snd hready)
  exact hblocked

theorem unblock_eq_filter {blocked : Bool} (h : id ∈ s.blocked.map Prod.fst → blocked = true) :
    s.unblock id blocked = { s with blocked := s.blocked.filter fun waiting => waiting.1 != id } := by
  rw [unblock]
  split_ifs with hblocked
  · rfl
  · have hself : (s.blocked.filter fun waiting => waiting.1 != id) = s.blocked :=
      filter_eq_self.2 fun waiting hwaiting => bne_iff_ne.2 fun heq =>
        hblocked (h (heq ▸ List.mem_map_of_mem hwaiting))
    rw [hself]

theorem complete_spec (h : s.Scheduled) (w : env.World) (id : Ready) :
    Moves s (s.complete w id).1 ∧ Only id.2 s (s.complete w id).1 := by
  obtain ⟨flow, g⟩ := id
  rw [complete]
  cases hx : s.udp.lookup flow with
  | none => exact ⟨.refl h, .refl _ s⟩
  | some x =>
    dsimp only
    split
    · next hg =>
        obtain rfl : x.generation = g := hg
        have hbecomes := eraseUdp_becomes h hx
        have hfilter : { s with udp := s.udp.erase flow }.unblock (flow, x.generation) x.blocked = _ :=
          unblock_eq_filter (h.blocked_of_mem (live_udp hx))
        rw [hfilter] at hbecomes
        exact ⟨hbecomes.moves h, hbecomes.only⟩
    · exact ⟨.refl h, .refl _ s⟩

theorem install_spec (h : s.Scheduled) (w : env.World) (transfer : env.Transfer) :
    Moves s (s.install w transfer).1 ∧ Only (env.transferId transfer).2 s (s.install w transfer).1 := by
  rw [install]
  generalize env.transferId transfer = id
  obtain ⟨flow, g⟩ := id
  dsimp only
  cases hx : s.udp.lookup flow with
  | none => exact ⟨.refl h, .refl _ s⟩
  | some x =>
    dsimp only
    split
    · next hg =>
        obtain rfl : x.generation = g := hg.1
        have hbecomes := h.becomes_udp hx (y := { x with direct := some (env.direct transfer w).1, packets := none })
          rfl rfl
        exact ⟨hbecomes.moves h, hbecomes.only⟩
    · exact ⟨.refl h, .refl _ s⟩

theorem erase_erase_self {K V : Type} [DecidableEq K] (t : Table K V) (k : K) : (t.erase k).erase k = t.erase k := by
  apply AList.ext
  exact kerase_of_notMem_keys (AList.mem_keys.not.1 fun hk => (AList.mem_erase.1 hk).1 rfl)

def Event.target (s : Worker env) : Event env → Option Ready
  | completed id => some id
  | transfer t => some (env.transferId t)
  | ready id => some id
  | expired => do
    let key ← s.timers.keys.min?
    let flow ← s.timers.lookup key
    some (flow, (ofLex key).2)
  | writable => s.blocked.head?.map Prod.fst
  | _ => none

variable (h : s.Scheduled)
include h

theorem expire_eq (w : env.World) (hid : Event.target s .expired = some id) :
    s.expire w = s.drive w id := by
  simp only [Event.target, bind_eq_bind, bind_eq_some_iff] at hid
  obtain ⟨key, hkey, flow, hflow, hid⟩ := hid
  obtain rfl := some.inj hid
  obtain ⟨at_, _⟩ := key
  obtain ⟨x, hx, rfl, hdeadline⟩ := h.timers.1 hflow
  have hdirect : s.directOf (flow, x.generation) = none := by
    refine eq_none_iff_forall_not_mem.2 fun ⟨y, direct⟩ hy => ?_
    obtain ⟨hy, hyg⟩ := directOf_eq_some hy
    cases h.distinct (live_tcp hx) (live_udp hy) hyg.symm
  have hconnection : s.connectionOf (flow, x.generation) = some x := connectionOf_eq_some.2 ⟨hx, rfl⟩
  have hdisarm : { s with timers := s.timers.erase (toLex (at_, x.generation)) }.disarm x.deadline x.generation =
      s.disarm x.deadline x.generation := by
    rw [hdeadline]
    simp only [disarm, erase_erase_self]
  have hexpire : s.expire w =
      { s with timers := s.timers.erase (toLex (at_, x.generation)) }.drive w (flow, x.generation) := by
    simp only [expire, hkey, hflow]
    rfl
  have hpopped : { s with timers := s.timers.erase (toLex (at_, x.generation)) }.drive w (flow, x.generation) = _ :=
    drive_eq_driveTcp hdirect hconnection
  have hdrive : s.drive w (flow, x.generation) = _ := drive_eq_driveTcp hdirect hconnection
  rw [hexpire, hpopped, driveTcp, hdisarm]
  exact hdrive.symm

theorem expire_spec (w : env.World) :
    Moves s (s.expire w).1 ∧ ∀ {id}, Event.target s .expired = some id → Only id.2 s (s.expire w).1 := by
  cases hid : Event.target s .expired with
  | none =>
    have hnone : s.expire w = (s, w) := by
      simp only [Event.target, bind_eq_bind, bind_eq_none_iff] at hid
      rw [expire]
      split
      · rfl
      · next key hkey =>
          split
          · rfl
          · next flow hflow => cases hid key hkey flow hflow
    rw [hnone]
    exact ⟨.refl h, nofun⟩
  | some id =>
    rw [expire_eq h w hid]
    obtain ⟨hmoves, honly⟩ := drive_spec h w id
    refine ⟨hmoves, fun heq => ?_⟩
    obtain rfl := some.inj heq
    exact honly


theorem clearBlocked_becomes {bytes : Nat} {rest : List (Ready × Nat)}
    (hblocked : s.blocked = (id, bytes) :: rest) :
    ∃ new, Becomes id.2 new s ({ s with blocked := rest }.clearBlocked id) := by
  have hmem : id ∈ s.blocked.map Prod.fst := by rw [hblocked]; exact mem_cons_self
  have hwait : ∀ {i}, s.Live i → i.ready = id → (rest.map Prod.fst).filter (fun id => id.2 == i.generation) = [] := by
    rintro i hi rfl
    have hold := h.wait_eq hi
    rw [h.blocked_of_mem hi hmem, if_pos rfl, hblocked, map_cons, filter_cons_of_pos
      (p := fun id : Ready => id.2 == i.generation) (beq_self_eq_true i.generation)] at hold
    exact (List.cons.inj hold).2
  have hwaits : (rest.filter fun waiting => waiting.1.2 != id.2) = s.blocked.filter fun waiting => waiting.1.2 != id.2 := by
    rw [hblocked, filter_cons_of_neg (by simp)]
  obtain ⟨flow, g⟩ := id
  rcases h.blocked.1 hmem with ⟨x, hx, hg, -⟩ | ⟨x, hx, hg, -⟩
  · obtain rfl : x.generation = g := hg
    have hudp : ∀ y, s.udp.lookup flow = some y → y.generation ≠ x.generation := fun y hy heq => by
      cases h.distinct (live_tcp hx) (live_udp hy) heq.symm
    have hclear : { s with blocked := rest }.clearBlocked (flow, x.generation) =
        { s with blocked := rest, tcp := s.tcp.insert flow { x with blocked := false } } := by
      simp only [clearBlocked]
      rw [show s.tcp.lookup flow = some x from hx]
      simp only [if_true]
      split
      · next y hy => rw [if_neg (hudp y hy)]
      · rfl
    have hslot := h.slot (live_tcp hx)
    rw [hclear]
    refine ⟨_, h.becomes (j := .ofTcp flow { x with blocked := false }) (live_tcp hx) rfl rfl rfl ?_ (fun _ => Iff.rfl)
      (hslot.live_insertTcp rfl rfl rfl) rfl (hwait (live_tcp hx) rfl) hwaits rfl⟩
    exact lookup_insert_only (n := TcpEntry.generation) rfl hslot.old_tcp
  · obtain rfl : x.generation = g := hg
    have htcp : ∀ y, s.tcp.lookup flow = some y → y.generation ≠ x.generation := fun y hy heq => by
      cases h.distinct (live_tcp hy) (live_udp hx) heq
    have hclear : { s with blocked := rest }.clearBlocked (flow, x.generation) =
        { s with blocked := rest, udp := s.udp.insert flow { x with blocked := false } } := by
      simp only [clearBlocked]
      cases hy : s.tcp.lookup flow with
      | none =>
        simp only
        rw [show s.udp.lookup flow = some x from hx]
        simp only [if_true]
      | some y =>
        simp only [if_neg (htcp y hy)]
        rw [show s.udp.lookup flow = some x from hx]
        simp only [if_true]
    have hslot := h.slot (live_udp hx)
    rw [hclear]
    refine ⟨_, h.becomes (j := .ofUdp flow { x with blocked := false }) (live_udp hx) rfl rfl rfl (fun _ => Iff.rfl) ?_
      (hslot.live_insertUdp rfl rfl rfl) rfl (hwait (live_udp hx) rfl) hwaits rfl⟩
    exact lookup_insert_only (n := UdpEntry.generation) rfl hslot.old_udp

theorem resume_spec (w : env.World) :
    Moves s (s.resume w).1 ∧ ∀ {id}, Event.target s .writable = some id → Only id.2 s (s.resume w).1 := by
  rw [resume, Event.target]
  cases hblocked : s.blocked with
  | nil => exact ⟨.refl h, nofun⟩
  | cons waiting =>
    obtain ⟨id, _⟩ := waiting
    obtain ⟨_, hclear⟩ := clearBlocked_becomes h hblocked
    obtain ⟨hmoves, honly⟩ := drive_spec (hclear.scheduled h) w id
    refine ⟨(hclear.moves h).trans hmoves, fun heq => ?_⟩
    obtain rfl := some.inj heq
    exact hclear.only.trans honly

/-! ## Runs -/

theorem step_moves {event : Event env} (hstep : s.step w event = .ok (s', w')) : Moves s s' := by
  cases event with
  | packet p frame =>
    cases hpacket : s.packet w p frame with
    | error =>
      rw [step, hpacket] at hstep
      cases hstep
    | ok r =>
      rw [step, hpacket] at hstep
      obtain ⟨_, r⟩ := r
      obtain rfl : r = (s', w') := Except.ok.inj hstep
      exact packet_moves h hpacket
  | stopping =>
    obtain rfl := congrArg Prod.fst (Except.ok.inj hstep)
    split
    · exact .refl h
    · exact stop_moves h w
  | completed id =>
    obtain rfl := congrArg Prod.fst (Except.ok.inj hstep)
    exact (complete_spec h w id).1
  | transfer t =>
    obtain rfl := congrArg Prod.fst (Except.ok.inj hstep)
    exact (install_spec h w t).1
  | ready id =>
    obtain rfl := congrArg Prod.fst (Except.ok.inj hstep)
    exact (drive_spec h w id).1
  | expired =>
    obtain rfl := congrArg Prod.fst (Except.ok.inj hstep)
    exact (expire_spec h w).1
  | writable =>
    obtain rfl := congrArg Prod.fst (Except.ok.inj hstep)
    exact (resume_spec h w).1
  | other =>
    obtain rfl := congrArg Prod.fst (Except.ok.inj hstep)
    exact .refl h

theorem step_only {event : Event env} (hstep : s.step w event = .ok (s', w'))
    (hid : event.target s = some id) : Only id.2 s s' := by
  cases event with
  | completed id' =>
    obtain rfl := some.inj hid
    obtain rfl := congrArg Prod.fst (Except.ok.inj hstep)
    exact (complete_spec h w id').2
  | transfer t =>
    obtain rfl := some.inj hid
    obtain rfl := congrArg Prod.fst (Except.ok.inj hstep)
    exact (install_spec h w t).2
  | ready id' =>
    obtain rfl := some.inj hid
    obtain rfl := congrArg Prod.fst (Except.ok.inj hstep)
    exact (drive_spec h w id').2
  | expired =>
    obtain rfl := congrArg Prod.fst (Except.ok.inj hstep)
    exact (expire_spec h w).2 hid
  | writable =>
    obtain rfl := congrArg Prod.fst (Except.ok.inj hstep)
    exact (resume_spec h w).2 hid
  | packet => cases hid
  | stopping => cases hid
  | other => cases hid

theorem Run.moves (hrun : Run s w s' w') : Moves s s' := by
  induction hrun with
  | refl => exact .refl h
  | step _ hstep ih => exact ih.trans (step_moves ih.scheduled hstep)

omit h

theorem Run.trans {w'' : env.World} (h : Run s w s' w') (h' : Run s' w' s'' w'') : Run s w s'' w'' := by
  induction h' with
  | refl => exact h
  | step _ hstep ih => exact ih.step hstep

theorem Run.of_events (events : List (Event env))
    (h : events.foldlM (fun r event => r.1.step r.2 event) (s, w) = .ok (s', w')) : Run s w s' w' := by
  induction events generalizing s w with
  | nil =>
    obtain ⟨rfl, rfl⟩ := Prod.mk.inj (Except.ok.inj h)
    exact .refl
  | cons event _ ih =>
    rw [foldlM_cons] at h
    cases hstep : s.step w event with
    | error =>
      rw [hstep] at h
      cases h
    | ok =>
      rw [hstep] at h
      exact (Run.refl.step hstep).trans (ih h)

theorem scheduled_new (env : WorkerEnv) (id : Nat) : (Worker.new env id).Scheduled := by
  have hlive : ∀ {i}, ¬ (Worker.new env id).Live i := by
    rintro i (⟨flow, x, hx, -⟩ | ⟨flow, x, hx, -⟩) <;> cases hx
  refine ⟨fun hi => absurd hi hlive, fun hi => absurd hi hlive, fun {at_ g flow} => ?_, fun {id} => ?_, nodup_nil⟩
  · rw [exists_deadline_iff]
    exact ⟨nofun, fun ⟨i, hi, _⟩ => absurd hi hlive⟩
  · rw [exists_blocked_iff]
    exact ⟨nofun, fun ⟨i, hi, _⟩ => absurd hi hlive⟩

/-- **The scheduling state never refers to a dead or newer entry**: in every reachable state the timers and the blocked
list are those of live entries and generations are distinct. Entries that a later state has under a generation drawn
before were there before, and an event that names a generation changes nothing of another one. -/
theorem scheduling_sound {id : Nat} (h : Run (Worker.new env id) w s w') : s.Scheduled ∧
    (∀ {s'' w''}, Run s w' s'' w'' → Keeps s s'') ∧
    ∀ {event s'' w'' target}, s.step w' event = .ok (s'', w'') → event.target s = some target → Only target.2 s s'' := by
  have hs := (h.moves (scheduled_new env id)).scheduled
  exact ⟨hs, fun hrun => (hrun.moves hs).keeps, fun hstep htarget => step_only hs hstep htarget⟩

def scriptedEnv : WorkerEnv where
  transport := ⟨udpOctets, fun _ => true, fun _ _ _ _ => some ⟨4000, 80, .syn, none⟩⟩
  owner _ := 0
  World := Unit
  Connection := Nat
  beginTurn _ w := w
  poll turn _ w := (match turn with | 0 => .idle (some 7) | 1 => .blocked 100 | _ => .closed, turn + 1, w)
  wake _ w := w
  isTimeWait _ := false
  reuseSequence _ _ _ _ := none
  connect _ _ _ w := some (0, w)
  inputOwned connection _ _ _ w := (connection, w)
  dropConnection _ w := w
  reject _ w := w
  Scope := Unit
  isClosed _ _ := false
  close _ w := w
  Queue := Unit
  associate _ _ w := some ((), (), w)
  trySend _ _ _ _ w := some w
  Direct := Unit
  pollDirect direct w := (.idle, direct, w)
  enqueue direct _ _ _ w := (true, direct, w)
  Transfer := Ready
  transferId transfer := transfer
  direct _ w := ((), w)

/-- A SYN, a turn that sets a deadline, and the deadline: the entry waits for room, and its timer is gone. -/
theorem scheduling_sound_expired : ∃ s : Worker scriptedEnv, Run (Worker.new scriptedEnv 0) () s () ∧
    s.timers.lookup (toLex (7, 1)) = none ∧ s.blocked.map Prod.snd = [100] ∧ s.Scheduled := by
  have hrun := Run.of_events (s := Worker.new scriptedEnv 0) (w := ())
    [.packet ⟨.ipv4 ⟨0x0a000001, 0x0a000002, .tcp, 0, 64⟩, []⟩ none,
      .ready (⟨⟨.ipv4 0x0a000001, 4000⟩, ⟨.ipv4 0x0a000002, 80⟩⟩, 1), .expired] rfl
  exact ⟨_, hrun, rfl, rfl, (scheduling_sound hrun).1⟩

end Kotoconn.Tun.Worker
