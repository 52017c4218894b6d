import Kotoconn.Tun.Endpoint
import Kotoconn.Tun.Udp.Encoder

/-!
# `worker.rs`: the worker and its tables

`WorkerEnv`: what the worker calls. Its `World` is everything that is not in the worker's tables: the output queue,
the storage, the clock, the scopes and what connections share with their applications.

An error ends `dispatch`. Statistics are left out, and so is the guard that an entry holds on its session. The arms for
fragments and for memory pressure do not touch the tables (see `Fragments.Pipeline`).
-/

namespace Kotoconn.Tun
open Lib

inductive TcpControl where
  | none
  | psh
  | syn
  | fin
  | rst
  deriving DecidableEq

structure TcpRepr where
  srcPort : Nat
  dstPort : Nat
  control : TcpControl
  ackNumber : Option Nat
  deriving DecidableEq

/-- `tcp::Progress` -/
inductive TcpProgress where
  | idle (deadline : Option Nat)
  | again
  | blocked (bytes : Nat)
  | closed

/-- `udp_direct::Progress` -/
inductive UdpProgress where
  | idle
  | blocked (bytes : Nat)
  | closed

abbrev Ready := Flow × Nat

structure TransportWire where
  udp : UdpWire
  /-- `TcpPacket::new_checked` succeeds -/
  tcpChecked : Bytes → Bool
  /-- `TcpRepr::parse`; `verified` turns its checksum test off -/
  tcpParse : (data : Bytes) → (src dst : IpAddress) → (verified : Bool) → Option TcpRepr

def Packet.flow (p : Packet) (source destination : Nat) : Option Flow :=
  if destination ≠ 0 then some ⟨⟨p.ip.srcAddr, source⟩, ⟨p.ip.dstAddr, destination⟩⟩ else none

def Packet.tcpWithChecksum (t : TransportWire) (p : Packet) (verified : Bool) : Option (Flow × TcpRepr) :=
  if t.tcpChecked p.payload then do
    let repr ← t.tcpParse p.payload p.ip.srcAddr p.ip.dstAddr verified
    let flow ← p.flow repr.srcPort repr.dstPort
    some (flow, repr)
  else none

structure WorkerEnv where
  transport : TransportWire
  /-- `Shared::owner` -/
  owner : RouteKey → Nat
  World : Type
  /-- `tcp::Connection` -/
  Connection : Type
  beginTurn : Connection → World → World
  poll : Connection → (stopping : Bool) → World → TcpProgress × Connection × World
  wake : Connection → World → World
  isTimeWait : Connection → Bool
  reuseSequence : Connection → IpRepr → TcpRepr → World → Option Nat
  /-- A connection with its session, and `set_initial_sequence` if there is one. -/
  connect : Flow → (generation : Nat) → (sequence : Option Nat) → World → Option (Connection × World)
  inputOwned : Connection → Packet → TcpRepr → (backing : Option Bytes) → World → Connection × World
  dropConnection : Connection → World → World
  /-- `Rejector::reject` -/
  reject : Packet → World → World
  Scope : Type
  isClosed : Scope → World → Bool
  close : Scope → World → World
  Queue : Type
  associate : Flow → (generation : Nat) → World → Option (Scope × Queue × World)
  /-- `try_reserve` and `send` -/
  trySend : Queue → Flow → (payload : Bytes) → (backing : Option Bytes) → World → Option World
  /-- `udp_direct::Direct` -/
  Direct : Type
  pollDirect : Direct → World → UdpProgress × Direct × World
  enqueue : Direct → Flow → (payload : Bytes) → (backing : Option Bytes) → World → Bool × Direct × World
  /-- `udp_direct::Transfer` -/
  Transfer : Type
  transferId : Transfer → Ready
  /-- `Direct::new` -/
  direct : Transfer → World → Direct × World

structure TcpEntry (env : WorkerEnv) where
  connection : env.Connection
  generation : Nat
  deadline : Option Nat
  blocked : Bool

structure UdpEntry (env : WorkerEnv) where
  packets : Option env.Queue
  scope : env.Scope
  generation : Nat
  direct : Option env.Direct
  blocked : Bool

structure Worker (env : WorkerEnv) where
  id : Nat
  tcp : Table Flow (TcpEntry env)
  udp : Table Flow (UdpEntry env)
  timers : Table (Nat ×ₗ Nat) Flow
  blocked : List (Ready × Nat)
  generation : Nat
  stopping : Bool

namespace Worker

/-- Why `dispatch` ends. -/
inductive Failure where
  | error
  | panic
  deriving DecidableEq

/-- What `packet` did. -/
inductive Handled where
  | ignored
  | forward (owner : Nat)
  | rejected
  | tcp (flow : Flow)
  | udp (flow : Flow)
  deriving DecidableEq

variable {env : WorkerEnv}

def new (env : WorkerEnv) (id : Nat) : Worker env := ⟨id, ∅, ∅, ∅, [], 0, false⟩

/-! ## `drive` -/

/-- `self.blocked.retain(|(waiting, _)| *waiting != id)`, if the entry is blocked. -/
def unblock (s : Worker env) (id : Ready) (blocked : Bool) : Worker env :=
  if blocked then { s with blocked := s.blocked.filter fun waiting => waiting.1 != id } else s

def disarm (s : Worker env) (deadline : Option Nat) (generation : Nat) : Worker env :=
  match deadline with
  | some at_ => { s with timers := s.timers.erase (toLex (at_, generation)) }
  | none => s

def directOf (s : Worker env) (id : Ready) : Option (UdpEntry env × env.Direct) := do
  let entry ← s.udp.lookup id.1
  let direct ← entry.direct
  if entry.generation = id.2 then some (entry, direct) else none

def connectionOf (s : Worker env) (id : Ready) : Option (TcpEntry env) :=
  (s.tcp.lookup id.1).filter fun entry => entry.generation == id.2

/-- What `drive` does with the progress of a native transfer. -/
def settleUdp (s : Worker env) (id : Ready) (entry : UdpEntry env) :
    UdpProgress × env.Direct × env.World → Worker env × env.World
  | (.idle, direct, w) => ({ s with udp := s.udp.insert id.1 { entry with direct := some direct, blocked := false } }, w)
  | (.blocked bytes, direct, w) => ({ s with
      udp := s.udp.insert id.1 { entry with direct := some direct, blocked := true }
      blocked := s.blocked ++ [(id, bytes)] }, w)
  | (.closed, _, w) => ({ s with udp := s.udp.erase id.1 }, env.close entry.scope w)

def driveUdp (s : Worker env) (w : env.World) (id : Ready) (entry : UdpEntry env) (direct : env.Direct) :
    Worker env × env.World :=
  (s.unblock id entry.blocked).settleUdp id entry
    (if env.isClosed entry.scope w then (.closed, direct, w) else env.pollDirect direct w)

/-- What `drive` does with the progress of a connection. -/
def settleTcp (s : Worker env) (id : Ready) (entry : TcpEntry env) :
    TcpProgress × env.Connection × env.World → Worker env × env.World
  | (.idle deadline, connection, w) => ({ s with
      tcp := s.tcp.insert id.1 ⟨connection, entry.generation, deadline, false⟩
      timers := match deadline with
        | some at_ => s.timers.insert (toLex (at_, id.2)) id.1
        | none => s.timers }, w)
  | (.again, connection, w) =>
    ({ s with tcp := s.tcp.insert id.1 ⟨connection, entry.generation, none, false⟩ }, env.wake connection w)
  | (.blocked bytes, connection, w) => ({ s with
      tcp := s.tcp.insert id.1 ⟨connection, entry.generation, none, true⟩
      blocked := s.blocked ++ [(id, bytes)] }, w)
  | (.closed, connection, w) => ({ s with tcp := s.tcp.erase id.1 }, env.dropConnection connection w)

def driveTcp (s : Worker env) (w : env.World) (id : Ready) (entry : TcpEntry env) : Worker env × env.World :=
  ((s.disarm entry.deadline id.2).unblock id entry.blocked).settleTcp id entry
    (env.poll entry.connection s.stopping (env.beginTurn entry.connection w))

def drive (s : Worker env) (w : env.World) (id : Ready) : Worker env × env.World :=
  match s.directOf id with
  | some (entry, direct) => s.driveUdp w id entry direct
  | none =>
    match s.connectionOf id with
    | some entry => s.driveTcp w id entry
    | none => (s, w)

/-! ## `packet` -/

/-- `self.generation.checked_add(1)` -/
def nextGeneration (s : Worker env) : Except Failure Nat :=
  if s.generation = 2 ^ 64 - 1 then .error .panic else .ok (s.generation + 1)

def retire (s : Worker env) (w : env.World) (flow : Flow) : Worker env × env.World :=
  match s.tcp.lookup flow with
  | some entry =>
    let s := { s with tcp := s.tcp.erase flow }
    ((s.disarm entry.deadline entry.generation).unblock (flow, entry.generation) entry.blocked,
      env.dropConnection entry.connection w)
  | none => (s, w)

def reuse (s : Worker env) (w : env.World) (flow : Flow) (ip : IpRepr) (repr : TcpRepr) :
    Option Nat × Worker env × env.World :=
  match s.tcp.lookup flow with
  | some entry =>
    if !s.stopping && repr.control == .syn && repr.ackNumber.isNone && env.isTimeWait entry.connection then
      let (s, w) := s.drive w (flow, entry.generation)
      match (s.tcp.lookup flow).bind fun entry => env.reuseSequence entry.connection ip repr w with
      | some sequence => (some sequence, s.retire w flow)
      | none => (none, s, w)
    else (none, s, w)
  | none => (none, s, w)

def connect (s : Worker env) (w : env.World) (flow : Flow) (sequence : Option Nat) :
    Except Failure (Worker env × env.World) := do
  let generation ← s.nextGeneration
  match env.connect flow generation sequence w with
  | none => .error .error
  | some (connection, w) =>
    .ok ({ s with generation, tcp := s.tcp.insert flow ⟨connection, generation, none, false⟩ }, w)

/-- `input_owned` on an admitted flow. -/
def input (s : Worker env) (w : env.World) (flow : Flow) (packet : Packet) (repr : TcpRepr) (backing : Option Bytes) :
    Except Failure (Handled × Worker env × env.World) :=
  match s.tcp.lookup flow with
  | none => .error .panic
  | some entry =>
    let (connection, w) := env.inputOwned entry.connection packet repr backing w
    .ok (.tcp flow, { s with tcp := s.tcp.insert flow { entry with connection } }, w)

def segment (s : Worker env) (w : env.World) (flow : Flow) (packet : Packet) (repr : TcpRepr) (backing : Option Bytes) :
    Except Failure (Handled × Worker env × env.World) :=
  let (sequence, s, w) := s.reuse w flow packet.ip repr
  match s.tcp.lookup flow with
  | some _ => s.input w flow packet repr backing
  | none =>
    if repr.control != .syn || repr.ackNumber.isSome || s.stopping then .ok (.rejected, s, env.reject packet w)
    else do
      let (s, w) ← s.connect w flow sequence
      s.input w flow packet repr backing

def replace (s : Worker env) (w : env.World) (flow : Flow) : Worker env × env.World :=
  match s.udp.lookup flow with
  | some entry =>
    if env.isClosed entry.scope w then
      ({ s with udp := s.udp.erase flow }.unblock (flow, entry.generation) entry.blocked, env.close entry.scope w)
    else (s, w)
  | none => (s, w)

def associate (s : Worker env) (w : env.World) (flow : Flow) : Except Failure (Worker env × env.World) :=
  match s.udp.lookup flow with
  | some _ => .ok (s, w)
  | none => do
    let generation ← s.nextGeneration
    match env.associate flow generation w with
    | none => .error .error
    | some (scope, packets, w) =>
      .ok ({ s with generation, udp := s.udp.insert flow ⟨some packets, scope, generation, none, false⟩ }, w)

/-- `payload.chunks(segment)`; an empty payload is one part. -/
def parts (payload : Bytes) (segment : Nat) : Except Failure (List Bytes) :=
  if segment = 0 then .error .panic
  else .ok (if payload = [] then [[]] else payload.toChunks segment)

def sendParts (flow : Flow) (backing : Option Bytes) (entry : UdpEntry env) (w : env.World) :
    List Bytes → Except Failure (UdpEntry env × env.World)
  | [] => .ok (entry, w)
  | part :: parts =>
    match entry.direct with
    | some direct =>
      let (_, direct, w) := env.enqueue direct flow part backing w
      sendParts flow backing { entry with direct := some direct } w parts
    | none =>
      match entry.packets with
      | none => .error .panic
      | some packets =>
        match env.trySend packets flow part backing w with
        | none => .ok (entry, w)
        | some w => sendParts flow backing entry w parts

def datagram (s : Worker env) (w : env.World) (flow : Flow) (payload : Bytes) (frame : Option Received) :
    Except Failure (Handled × Worker env × env.World) := do
  let (s, w) := s.replace w flow
  let (s, w) ← s.associate w flow
  match s.udp.lookup flow with
  | none => .error .panic
  | some entry =>
    let parts ← parts payload ((frame.bind Received.udpSegmentSize).getD (max payload.length 1))
    let (entry, w) ← sendParts flow (frame.map Received.bytes) entry w parts
    .ok (.udp flow, { s with udp := s.udp.insert flow entry }, w)

/-- `Worker::packet`; `forward` is left to `forward_packet`. -/
def packet (s : Worker env) (w : env.World) (p : Packet) (frame : Option Received) :
    Except Failure (Handled × Worker env × env.World) :=
  let verified := frame.any Received.checksumVerified
  match p.ip.nextHeader with
  | .tcp =>
    match p.tcpWithChecksum env.transport verified with
    | none => .ok (.ignored, s, w)
    | some (flow, repr) =>
      if env.owner (.flow IpProtocol.tcp.number flow) ≠ s.id then
        .ok (.forward (env.owner (.flow IpProtocol.tcp.number flow)), s, w)
      else s.segment w flow p repr (frame.map Received.bytes)
  | .udp =>
    if s.stopping then .ok (.ignored, s, w)
    else
      match p.udpWithChecksum env.transport.udp verified with
      | none => .ok (.ignored, s, w)
      | some (flow, payload) =>
        if env.owner (.flow IpProtocol.udp.number flow) ≠ s.id then
          .ok (.forward (env.owner (.flow IpProtocol.udp.number flow)), s, w)
        else s.datagram w flow payload frame
  | _ => .ok (.ignored, s, w)

/-! ## `dispatch` -/

inductive Event (env : WorkerEnv) where
  | packet (packet : Packet) (frame : Option Received)
  | stopping
  | completed (id : Ready)
  | transfer (transfer : env.Transfer)
  | ready (id : Ready)
  | expired
  | writable
  | other (world : env.World)

/-- `worker.udp.clear()` -/
def closeAll (s : Worker env) (w : env.World) : env.World :=
  s.udp.values.foldl (fun w entry => env.close entry.scope w) w

def stop (s : Worker env) (w : env.World) : Worker env × env.World :=
  let blocked := s.blocked.filter fun waiting => (s.connectionOf waiting.1).isSome
  ({ s with stopping := true, udp := ∅, blocked },
    s.tcp.values.foldl (fun w entry => env.wake entry.connection w) (s.closeAll w))

def complete (s : Worker env) (w : env.World) (id : Ready) : Worker env × env.World :=
  match s.udp.lookup id.1 with
  | some entry =>
    if entry.generation = id.2 then
      ({ s with udp := s.udp.erase id.1, blocked := s.blocked.filter fun waiting => waiting.1 != id },
        env.close entry.scope w)
    else (s, w)
  | none => (s, w)

def install (s : Worker env) (w : env.World) (transfer : env.Transfer) : Worker env × env.World :=
  let id := env.transferId transfer
  match s.udp.lookup id.1 with
  | some entry =>
    if entry.generation = id.2 ∧ env.isClosed entry.scope w = false then
      let (direct, w) := env.direct transfer w
      ({ s with udp := s.udp.insert id.1 { entry with direct := some direct, packets := none } }, w)
    else (s, w)
  | none => (s, w)

/-- `worker.timers.pop_first()`, then `drive` -/
def expire (s : Worker env) (w : env.World) : Worker env × env.World :=
  match s.timers.keys.min? with
  | none => (s, w)
  | some key =>
    match s.timers.lookup key with
    | none => (s, w)
    | some flow => { s with timers := s.timers.erase key }.drive w (flow, (ofLex key).2)

def clearBlocked (s : Worker env) (id : Ready) : Worker env :=
  let s := match s.tcp.lookup id.1 with
    | some entry =>
      if entry.generation = id.2 then { s with tcp := s.tcp.insert id.1 { entry with blocked := false } } else s
    | none => s
  match s.udp.lookup id.1 with
  | some entry =>
    if entry.generation = id.2 then { s with udp := s.udp.insert id.1 { entry with blocked := false } } else s
  | none => s

/-- `worker.blocked.pop_front()`, then `drive` -/
def resume (s : Worker env) (w : env.World) : Worker env × env.World :=
  match s.blocked with
  | [] => (s, w)
  | (id, _) :: blocked => ({ s with blocked }.clearBlocked id).drive w id

def step (s : Worker env) (w : env.World) : Event env → Except Failure (Worker env × env.World)
  | .packet p frame => (s.packet w p frame).map Prod.snd
  | .stopping => .ok (if s.stopping then (s, w) else s.stop w)
  | .completed id => .ok (s.complete w id)
  | .transfer transfer => .ok (s.install w transfer)
  | .ready id => .ok (s.drive w id)
  | .expired => .ok (s.expire w)
  | .writable => .ok (s.resume w)
  | .other world => .ok (s, world)

inductive Run (s : Worker env) (w : env.World) : Worker env → env.World → Prop where
  | refl : Run s w s w
  | step {s' s'' : Worker env} {w' w'' : env.World} {event : Event env} :
      Run s w s' w' → s'.step w' event = .ok (s'', w'') → Run s w s'' w''

end Worker

end Kotoconn.Tun
