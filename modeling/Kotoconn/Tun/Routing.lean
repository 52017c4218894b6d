import Kotoconn.Tun.Fragments.Pipeline
import Kotoconn.Tun.Offload.Marked
import Kotoconn.Tun.Worker

/-!
# `worker.rs`: from a frame to the worker that handles its packet

The fragment pipeline and the tables of the workers, put together:

`Routing.Step`: a frame of the device, any other step of the pipeline, a call of `Worker::packet`, a lost call, or
another event of one worker. Calls may be made in any order, and what `forward_packet` sends may be dropped.

An error of `Worker::packet` ends `dispatch`: the call is lost, and no event of that worker follows.
-/

namespace Kotoconn.Tun

open Lib

variable {A : Type}

structure RoutingEnv (A : Type) where
  pipeline : PipelineEnv A
  worker : WorkerEnv
  device : OffloadWire
  owner_eq : worker.owner = pipeline.owner
  ip_eq : device.ip = pipeline.wire

/-- Metadata comes from the receiver of `offload.rs` only. -/
def RoutingEnv.FromDevice (e : RoutingEnv A) (received : Received) : Prop :=
  ¬ received.Marked ∨ ∃ offload frame, e.device.pollFrame offload frame = .ok received

namespace Routing

inductive Hop where
  /-- `forward_raw` -/
  | raw
  | batch
  /-- `forward_packet` -/
  | reassembled
  deriving DecidableEq

inductive Origin where
  | whole
  | completed
  /-- a `Reassembled` message -/
  | reassembled
  deriving DecidableEq

/-- The arguments of `Worker::packet`; for a reassembled packet, `frame` is a ghost that names the completing one. -/
structure Call where
  origin : Origin
  frame : Frame
  packet : Packet

def Call.received (c : Call) : Option Received :=
  match c.origin with
  | .whole => some c.frame.received
  | _ => none

structure State (e : RoutingEnv A) where
  pipeline : Pipeline.State A
  tables : Nat → Worker e.worker
  world : e.worker.World
  /-- the calls of `Worker::packet` to come, each with its worker -/
  calls : List (Nat × Call)
  /-- ghost: the frames read, each at its serial number -/
  frames : List Received
  /-- ghost: what was put into an inbox -/
  hops : List (Frame × Hop)
  /-- ghost: the calls made -/
  handled : List (Nat × Call × Worker.Handled)

def yields : Pipeline.Event A → List (Nat × Call)
  | .plain w frame reply => reply.packet.toList.map fun packet => (w, ⟨.whole, frame, packet⟩)
  | .decoded w _ frame reply => reply.packet.toList.map fun packet => (w, ⟨.completed, frame, packet⟩)
  | _ => []

def sent (e : PipelineEnv A) (s s' : Pipeline.State A) : List Pipeline.Forwarded :=
  (List.range e.workers).flatMap fun v => (s'.workers v).inbox.drop (s.workers v).inbox.length

def hopsOf : Pipeline.Forwarded → List (Frame × Hop)
  | .frame frame => [(frame, .raw)]
  | .fragments d => d.frames.map fun x => (x.2, .batch)

namespace State
variable {e : RoutingEnv A}

def new (e : RoutingEnv A) (now : Nat) (world : e.worker.World) : State e where
  pipeline := .new e.pipeline now
  tables := Worker.new e.worker
  world := world
  calls := []
  frames := []
  hops := []
  handled := []

def advance (s : State e) (ev : Pipeline.Event A) (pipeline : Pipeline.State A) : State e :=
  { s with
    pipeline
    calls := s.calls ++ yields ev
    hops := s.hops ++ (sent e.pipeline s.pipeline pipeline).flatMap hopsOf }

/-- What `forward_packet` sends; `accepted` says whether the inbox has room. -/
def forwardPacket (c : Call) (accepted : Bool) : Worker.Handled → List (Nat × Call)
  | .forward owner => if accepted then [(owner, { c with origin := .reassembled })] else []
  | _ => []

/-- After a call of `Worker::packet`, with the calls that are left. -/
def handle (s : State e) (calls : List (Nat × Call)) (w : Nat) (c : Call) (accepted : Bool) (out : Worker.Handled)
    (table : Worker e.worker) (world : e.worker.World) : State e :=
  { s with
    tables := Function.update s.tables w table
    world
    calls := calls ++ forwardPacket c accepted out
    hops := s.hops ++ (forwardPacket c accepted out).map fun _ => (c.frame, .reassembled)
    handled := s.handled ++ [(w, c, out)] }

/-- How often the frame with this serial number, or the datagram that it completed, went to another worker. -/
def forwards (s : State e) (serial : Nat) : Nat := (s.hops.filter fun h => h.1.serial = serial).length

end State

inductive Step (e : RoutingEnv A) (s : State e) : State e → Prop where
  | receive {w now : Nat} {received : Received} {accepted : Bool} {ev : Pipeline.Event A} {p : Pipeline.State A} :
      w < e.pipeline.workers → (s.pipeline.workers w).task = .idle → e.FromDevice received →
      s.pipeline.frame e.pipeline w received accepted now = some (ev, p) →
      Step e s { s.advance ev p with frames := s.frames ++ [received] }
  | advance {ev : Pipeline.Event A} {p : Pipeline.State A} :
      Pipeline.Step e.pipeline s.pipeline ev p → p.reads = s.pipeline.reads → Step e s (s.advance ev p)
  | packet {w : Nat} {c : Call} {before after : List (Nat × Call)} {accepted : Bool} {out : Worker.Handled}
      {table : Worker e.worker} {world : e.worker.World} :
      s.calls = before ++ (w, c) :: after →
      (s.tables w).packet s.world c.packet c.received = .ok (out, table, world) →
      Step e s (s.handle (before ++ after) w c accepted out table world)
  | drop {call : Nat × Call} {before after : List (Nat × Call)} :
      s.calls = before ++ call :: after → Step e s { s with calls := before ++ after }
  | event {w : Nat} {event : Worker.Event e.worker} {table : Worker e.worker} {world : e.worker.World} :
      (∀ packet frame, event ≠ .packet packet frame) → (s.tables w).step s.world event = .ok (table, world) →
      Step e s { s with tables := Function.update s.tables w table, world }

inductive Reachable (e : RoutingEnv A) : State e → Prop where
  | new (now : Nat) (world : e.worker.World) : Reachable e (.new e now world)
  | step {s s' : State e} : Reachable e s → Step e s s' → Reachable e s'

end Routing

end Kotoconn.Tun
