import Kotoconn.Outbounds.NativeUdp
import Kotoconn.Tun.UdpDirect
import Kotoconn.Tun.WorkerUdp

/-!
# An association moves to its worker

A session that rejects its flow, answers it itself or has a transport without a hand-off is one that fails here.
-/

namespace Kotoconn.Tun
open Lib Outbounds Protocol.PacketIo

/-- The reply of the connected transport of a flow (`native_udp.rs`). -/
def reply (flow : Flow) (payload : Bytes) : RoutedPacket := ⟨.ip flow.destination, payload⟩

inductive Stage where
  | sniffing (sniffed : List RoutedPacket)
  | routing (putBack : List RoutedPacket)
  | driving (putBack : List RoutedPacket) (driver : Driver RoutedPacket) (asked : Bool)
  | granted (putBack : List RoutedPacket) (replies : List RoutedPacket)
  | sent
  | moved
  | ended

/-- `before` and `after` are the replies that the transport gave, to the driver and to the worker. -/
structure Log where
  admitted : List RoutedPacket
  taken : List RoutedPacket
  before : List (RoutedPacket × Bool)
  after : List RoutedPacket
  output : List Emitted

structure Association where
  flow : Flow
  stage : Stage
  queue : List RoutedPacket
  closed : Bool
  /-- ghost -/
  log : Log

namespace Association

def new (flow : Flow) : Association := ⟨flow, .sniffing [], [], false, ⟨[], [], [], [], []⟩⟩

def close (a : Association) : Association :=
  { a with closed := true, stage := match a.stage with | .moved => .ended | stage => stage }

def discard (a : Association) : Association :=
  { a with stage := match a.stage with | .sent => .ended | stage => stage }

def isEnded (a : Association) : Bool := match a.stage with | .ended => true | _ => false

def push (a : Association) (packet : RoutedPacket) : Association :=
  { a with queue := a.queue ++ [packet], log := { a.log with admitted := a.log.admitted ++ [packet] } }

/-- `Direct::enqueue` has accepted or refused a packet. -/
def enqueued (a : Association) (packet : RoutedPacket) (ok : Bool) (offers : List Offer) : Association :=
  { a with
    log := { a.log with
      admitted := a.log.admitted ++ (if ok then [packet] else [])
      taken := a.log.taken ++ taken offers } }

/-- `Direct::poll` has returned, after the transport has `given` some replies. -/
def polled (a : Association) (given : List RoutedPacket) (effects : Effects) : Association :=
  { a with
    log := { a.log with
      taken := a.log.taken ++ taken effects.offers
      after := a.log.after ++ given
      output := a.log.output ++ effects.output } }

/-- `Direct::new` has drained the queue. -/
def move (a : Association) : Association := { a with stage := .moved, queue := [] }

inductive Step (g : Nat) (a : Association) : Association → List Transfer → Prop
  | sniff {sniffed rest : List RoutedPacket} {packet : RoutedPacket} (hstage : a.stage = .sniffing sniffed)
      (hqueue : a.queue = packet :: rest) :
      Step g a { a with stage := .sniffing (sniffed ++ [packet]), queue := rest } []
  /-- `prepend` -/
  | putBack {sniffed : List RoutedPacket} (hstage : a.stage = .sniffing sniffed) :
      Step g a { a with stage := .routing sniffed } []
  /-- `udp_native_scoped` -/
  | native {putBack : List RoutedPacket} (hstage : a.stage = .routing putBack) :
      Step g a { a with stage := .sent } [⟨(a.flow, g), ⟨none⟩, putBack⟩]
  /-- `udp_scoped` -/
  | connect {putBack : List RoutedPacket} (hstage : a.stage = .routing putBack) :
      Step g a { a with stage := .driving putBack .new false } []
  | ask {putBack : List RoutedPacket} {driver : Driver RoutedPacket} (hstage : a.stage = .driving putBack driver false) :
      Step g a { a with stage := .driving putBack driver true } []
  | drive {putBack : List RoutedPacket} {driver driver' : Driver RoutedPacket} {asked : Bool} {request : Request}
      {count : Nat} {closed : Bool} {send : List RoutedPacket → Sent} {received : Protocol.PacketIo.Received (Bytes × Bool)}
      (hstage : a.stage = .driving putBack driver asked) (hasked : request = .asked → asked = true)
      (hpoll : driver.poll request count closed send (received.map fun r => (reply a.flow r.1, r.2)) =
        (.again, driver')) :
      Step g a { a with
        stage := .driving putBack driver' asked
        log := { a.log with
          taken := driver'.taken
          before := a.log.before ++ (received.map fun r => (reply a.flow r.1, r.2)).packets } } []
  | grant {putBack : List RoutedPacket} {driver driver' : Driver RoutedPacket} {count : Nat} {closed : Bool}
      {send : List RoutedPacket → Sent} {received : Protocol.PacketIo.Received (RoutedPacket × Bool)}
      (hstage : a.stage = .driving putBack driver true)
      (hpoll : driver.poll .asked count closed send received = (.handoff, driver')) :
      Step g a { a with stage := .granted putBack driver'.replies } []
  /-- `take_native` returns -/
  | take {putBack replies : List RoutedPacket} (hstage : a.stage = .granted putBack replies) :
      Step g a { a with stage := .sent } [⟨(a.flow, g), ⟨some replies⟩, putBack⟩]
  | fail (hstage : a.stage ≠ .sent ∧ a.stage ≠ .moved) : Step g a { a with stage := .ended } []
  | close : Step g a { a with closed := true } []

end Association

structure Net where
  calls : Nat
  associations : Nat → Option Association
  transfers : List Transfer

namespace Net

def new : Net := ⟨0, fun _ => none, []⟩

def tick (net : Net) : Net := { net with calls := net.calls + 1 }

def put (net : Net) (g : Nat) (a : Association) : Net :=
  { net with associations := Function.update net.associations g (some a) }

def update (net : Net) (g : Nat) (f : Association → Association) : Net :=
  { net with associations := Function.update net.associations g ((net.associations g).map f) }

theorem update_eq {net : Net} {g g' : Nat} {f : Association → Association} (h : g' = g) :
    (net.update g' f).associations g = (net.associations g).map f := by
  subst h
  exact Function.update_self ..

theorem update_ne {net : Net} {g g' : Nat} {f : Association → Association} (h : g' ≠ g) :
    (net.update g' f).associations g = net.associations g := Function.update_of_ne (Ne.symm h) ..

end Net

def IoAnswers.connected (answers : IoAnswers) (flow : Flow) : IoAnswers :=
  { answers with recv := answers.recv.map fun packet => reply flow packet.payload }

/-- The answers that the worker gets at each call, and `size_of::<p::Packet>()`. -/
structure Outside where
  size : Nat
  answers : Nat → IoAnswers
  /-- `try_reserve` succeeds on a queue whose receiver lives -/
  room : Nat → Bool
  /-- `scope.spawn` succeeds -/
  spawns : Nat → Bool

def movingEnv (base : WorkerEnv) (o : Outside) : WorkerEnv where
  transport := base.transport
  owner := base.owner
  World := base.World × Net
  Connection := base.Connection
  beginTurn c w := (base.beginTurn c w.1, w.2)
  poll c stopping w := match base.poll c stopping w.1 with | (progress, c, w₁) => (progress, c, w₁, w.2)
  wake c w := (base.wake c w.1, w.2)
  isTimeWait := base.isTimeWait
  reuseSequence c ip repr w := base.reuseSequence c ip repr w.1
  connect flow g sequence w := (base.connect flow g sequence w.1).map fun r => (r.1, r.2, w.2)
  inputOwned c p repr backing w := match base.inputOwned c p repr backing w.1 with | (c, w₁) => (c, w₁, w.2)
  dropConnection c w := (base.dropConnection c w.1, w.2)
  reject p w := (base.reject p w.1, w.2)
  Scope := Nat
  isClosed g w := (w.2.associations g).any Association.closed
  close g w := (w.1, w.2.update g Association.close)
  Queue := Nat
  associate flow g w := if o.spawns w.2.calls then some (g, g, w.1, (w.2.put g (.new flow)).tick) else none
  trySend g flow payload _ w :=
    if o.room w.2.calls && !(w.2.associations g).any Association.isEnded then
      some (w.1, (w.2.update g (·.push ⟨.ip flow.destination, payload⟩)).tick)
    else none
  Direct := Direct
  pollDirect d w := match d.poll o.size ((o.answers w.2.calls).connected d.id.1) with
    | (progress, effects, d') => (progress, d', w.1, (w.2.update d.id.2
      (·.polled (d.given ((o.answers w.2.calls).connected d.id.1)) effects)).tick)
  enqueue d flow payload _ w :=
    match d.enqueue o.size ⟨.ip flow.destination, payload⟩ (o.answers w.2.calls).send (o.answers w.2.calls).now with
    | (ok, offers, d') => (ok, d', w.1, (w.2.update d.id.2 (·.enqueued ⟨.ip flow.destination, payload⟩ ok offers)).tick)
  Transfer := Transfer
  transferId := Transfer.id
  direct t w :=
    (Direct.new o.size t ((w.2.associations t.id.2).elim [] Association.queue) (o.answers w.2.calls).now,
      w.1, (w.2.update t.id.2 Association.move).tick)

structure Move (base : WorkerEnv) (o : Outside) where
  worker : Worker (movingEnv base o)
  world : base.World
  net : Net

namespace Move
variable {base : WorkerEnv} {o : Outside}

/-- An event of the worker alone. The parser drops packets to other addresses (`parse_eq_ok`). -/
def Alone (event : Worker.Event (movingEnv base o)) : Prop :=
  event.Own ∧ ∀ p frame, event = .packet p frame → unicast p.ip.dstAddr = true

inductive Step (m : Move base o) : Move base o → Prop
  | worker {event : Worker.Event (movingEnv base o)} {s : Worker (movingEnv base o)} {w : base.World} {net : Net}
      (hevent : Alone event) (hstep : m.worker.step (m.world, m.net) event = .ok (s, w, net)) : Step m ⟨s, w, net⟩
  | transfer {t : Transfer} {rest : List Transfer} {s : Worker (movingEnv base o)} {w : base.World} {net : Net}
      (hhead : m.net.transfers = t :: rest)
      (hstep : m.worker.step (m.world, { m.net with transfers := rest }) (.transfer t) = .ok (s, w, net)) :
      Step m ⟨s, w, net.update t.id.2 Association.discard⟩
  | session {g : Nat} {a a' : Association} {sent : List Transfer} (ha : m.net.associations g = some a)
      (hstep : a.Step g a' sent) :
      Step m { m with net := { m.net.put g a' with transfers := m.net.transfers ++ sent } }
  | world (w : base.World) : Step m { m with world := w }

inductive Reachable : Move base o → Prop
  | new (id : Nat) (w : base.World) : Reachable ⟨.new _ id, w, .new⟩
  | step {m m' : Move base o} (h : Reachable m) (hstep : Step m m') : Reachable m'

def direct (m : Move base o) (flow : Flow) : Option Direct := (m.worker.udp.lookup flow).bind UdpEntry.direct

def transfer (m : Move base o) (g : Nat) : Option Transfer := m.net.transfers.find? fun t => t.id.2 == g

def requests (m : Move base o) (g : Nat) (a : Association) : List RoutedPacket :=
  match a.stage with
  | .sniffing packets | .routing packets | .driving packets _ _ | .granted packets _ => packets ++ a.queue
  | .sent => (m.transfer g).elim [] fun t => t.putBack ++ a.queue
  | .moved => (m.direct a.flow).elim [] Direct.pending
  | .ended => []

def replies (m : Move base o) (g : Nat) (a : Association) : List RoutedPacket :=
  match a.stage with
  | .driving _ driver _ => driver.replies
  | .granted _ replies => replies
  | .sent => (m.transfer g).elim [] fun t => t.io.held
  | .moved => (m.direct a.flow).elim [] Direct.held
  | _ => []

end Move

end Kotoconn.Tun
