import Kotoconn.Tun.Fragments.Routes

/-!
# `worker.rs`: the fragment pipeline

Workers share the `Routes` and the budget; each has a decoder and an inbox. One `Step` is one critical section or one
call on a worker's own state, so that between the calls of one worker any other may act.

`Worker::packet` takes what the decoder yields and does not touch this state, except that it may put a reassembled
packet into another inbox, which is left out. Ghost fields record what was routed, decoded and lost.
-/

namespace Kotoconn.Tun

open Lib

variable {A : Type}

structure PipelineEnv (A : Type) where
  wire : IpWire
  /-- `TcpPacket::new_checked` succeeds -/
  tcpChecked : Bytes → Bool
  assembler : Assembler A
  /-- `ASSEMBLY_METADATA` -/
  metadata : Nat
  /-- The capacity of a vector grown to a length by `reserve_exact`. -/
  allocate : Nat → Nat
  routes : RoutesEnv
  workers : Nat
  workers_pos : 0 < workers
  /-- `hash_one` of the shared hasher -/
  hash : RouteKey → Nat

namespace PipelineEnv

def owner (e : PipelineEnv A) (key : RouteKey) : Nat := e.hash key % e.workers

def shardOf (e : PipelineEnv A) (key : FragmentKey) : Nat := e.owner (.fragment key)

def decoder (e : PipelineEnv A) : DecoderEnv Limits A :=
  ⟨e.wire, e.tcpChecked, e.assembler, Limits.leases, e.metadata, e.allocate⟩

end PipelineEnv

/-! ## Frames in their places -/

def Entry.frames (x : Entry) : List (Binding × Frame) :=
  match x.pending with
  | some pending => pending.frames.map (x.binding, ·)
  | none => []

def Delivery.frames (d : Delivery) : List (Binding × Frame) :=
  (match d.pending with
    | some pending => pending.frames.map (d.binding, ·)
    | none => []) ++ [(d.binding, d.frame)]

def Routed.taken (frame : Frame) : Routed → List (Binding × Frame)
  | unadmitted => []
  | unbuffered binding => [(binding, frame)]
  | overflow entry => [(entry.binding, frame)]
  | retained binding => [(binding, frame)]
  | delivery d => [(d.binding, frame)]

/-- The frames that `route` lost with a removed entry. -/
def Routed.lost (frame : Frame) : Routed → List (Binding × Frame)
  | overflow entry => entry.frames ++ [(entry.binding, frame)]
  | _ => []

namespace Pipeline

/-! ## The state -/

/-- `ForwardedPacket` without reassembled packets. -/
inductive Forwarded where
  | frame (frame : Frame)
  | fragments (delivery : Delivery)

inductive Task where
  | idle
  /-- `route` returned a delivery for another worker -/
  | forwarding (delivery : Delivery)
  /-- in `Worker::fragments`, with what is left of the delivery -/
  | fragments (delivery : Delivery)
  /-- `finish` is the next call, then the rest of a delivery -/
  | finishing (binding : Binding) (rest : Option Delivery)

def Task.resume : Option Delivery → Task
  | some delivery => fragments delivery
  | none => idle

structure Worker (A : Type) where
  decoder : Decoder A
  inbox : List Forwarded
  task : Task

structure State (A : Type) where
  routes : Routes
  limits : Limits
  workers : Nat → Worker A
  /-- ghost: the latest time a step has used -/
  clock : Nat
  /-- ghost: the number of frames read -/
  reads : Nat
  /-- ghost: every delivery that `route` returned -/
  deliveries : List Delivery
  /-- ghost: the frames routed, decoded and lost, each with its binding -/
  routed : List (Binding × Frame)
  decoded : List (Binding × Frame)
  lost : List (Binding × Frame)

inductive Event (A : Type) where
  | quiet
  | routed (worker : Nat) (frame : Frame) (outcome : Routed)
  | dropped (delivery : Delivery)
  /-- a call of `decode_fragment` -/
  | decoded (worker : Nat) (binding : Binding) (frame : Frame) (reply : Reply A)
  /-- a call of `decode` -/
  | plain (worker : Nat) (frame : Frame) (reply : Reply A)
  | finished (worker : Nat) (binding : Binding)

/-! ## The steps -/

namespace State

def new (e : PipelineEnv A) (now : Nat) : State A where
  routes := Routes.new e.workers
  limits := Limits.byDefault now
  workers := fun _ => ⟨Decoder.new, [], .idle⟩
  clock := now
  reads := 0
  deliveries := []
  routed := []
  decoded := []
  lost := []

def setWorker (s : State A) (w : Nat) (worker : Worker A) : State A :=
  { s with workers := Function.update s.workers w worker }

def setTask (s : State A) (w : Nat) (task : Task) : State A := s.setWorker w { s.workers w with task }

/-- `entry.send` on another worker's inbox. -/
def send (s : State A) (w : Nat) (forwarded : Forwarded) : State A :=
  s.setWorker w { s.workers w with inbox := (s.workers w).inbox ++ [forwarded] }

def tick (s : State A) (now : Nat) : State A := { s with clock := max s.clock now }

/-- What `Worker::frame` does with the result of `route`. -/
def accept (w : Nat) : Routed → Task
  | .delivery d => if d.owner = w then .fragments d else .forwarding d
  | _ => .idle

/-- `Worker::frame` on a fragment, up to the result of `route`. -/
def route (e : PipelineEnv A) (s : State A) (w : Nat) (frame : Frame) (p : Parsed) (key : FragmentKey) (now : Nat) :
    Option (Event A × State A) := do
  let (out, routes, limits) ← s.routes.route e.routes s.limits (e.owner (.fragment key)) key (p.firstRoute.map e.owner)
    frame now
  some (.routed w frame out, { s.setTask w (accept w out) with
    routes, limits
    deliveries := s.deliveries ++ out.result.toList
    routed := s.routed ++ out.taken frame
    lost := s.lost ++ ((s.routes.shards (e.owner (.fragment key))).overdue now).flatMap Entry.frames ++ out.lost frame })

/-- `decode` on a worker's own decoder. -/
def decode (e : PipelineEnv A) (s : State A) (w : Nat) (frame : Frame) (now : Nat) : Option (Event A × State A) := do
  let (reply, decoder, limits) ← (s.workers w).decoder.decode e.decoder s.limits frame.received.bytes now
  some (.plain w frame reply, { s.setWorker w { s.workers w with decoder } with limits })

/-- `Worker::frame`; `accepted` says whether the owner's inbox has room for a raw frame. -/
def frame (e : PipelineEnv A) (s : State A) (w : Nat) (received : Received) (accepted : Bool) (now : Nat) :
    Option (Event A × State A) :=
  let frame : Frame := ⟨received, s.reads⟩
  let s := { s.tick now with reads := s.reads + 1 }
  match (parse e.wire received.bytes).result with
  | .panic => none
  | .reject => some (.quiet, s)
  | .ok p =>
    match p.route with
    | none => some (.quiet, s)
    | some (.fragment key) => s.route e w frame p key now
    | some (.flow protocol flow) =>
      if e.owner (.flow protocol flow) = w then s.decode e w frame now
      else some (.quiet, if accepted then s.send (e.owner (.flow protocol flow)) (.frame frame) else s)

def releaseBatch (l : Limits) (d : Delivery) : Option Limits :=
  match d.pending with
  | some pending => l.drop pending.held
  | none => some l

/-- `try_reserve` and `send` of a delivery to its owner. -/
def forward (s : State A) (w : Nat) (accepted : Bool) : Option (Event A × State A) :=
  match (s.workers w).task with
  | .forwarding d =>
    if accepted then some (.quiet, (s.setTask w .idle).send d.owner (.fragments d))
    else do
      let limits ← releaseBatch s.limits d
      some (.dropped d, { s.setTask w .idle with limits, lost := s.lost ++ d.frames })
  | _ => none

def take (e : PipelineEnv A) (s : State A) (w : Nat) (now : Nat) : Option (Event A × State A) :=
  match (s.workers w).inbox with
  | [] => none
  | .fragments d :: inbox =>
    if d.owner = w then some (.quiet, s.setWorker w ⟨(s.workers w).decoder, inbox, .fragments d⟩) else none
  | .frame frame :: inbox => ((s.tick now).setWorker w { s.workers w with inbox }).decode e w frame now

def next (d : Delivery) : Option (Frame × Option Delivery) :=
  match d.pending with
  | none => some (d.frame, none)
  | some pending =>
    match pending.frames with
    | [] => none
    | frame :: frames => some (frame, some { d with pending := some { pending with frames } })

/-- `drop(delivery.pending)` -/
def releasePending (s : State A) (w : Nat) : Option (State A) :=
  match (s.workers w).task with
  | .fragments d =>
    match d.pending with
    | some pending =>
      if pending.frames.isEmpty then do
        let limits ← s.limits.drop pending.held
        some { s.setTask w (.fragments { d with pending := none }) with limits }
      else none
    | none => none
  | _ => none

/-- `decode_fragment` and `retains` in `Worker::fragment`. -/
def fragment (e : PipelineEnv A) (s : State A) (w : Nat) (now : Nat) : Option (Event A × State A) :=
  match (s.workers w).task with
  | .fragments d => do
      let (frame, rest) ← next d
      let (reply, decoder, limits) ← (s.workers w).decoder.decodeFragment e.decoder s.limits frame.received.bytes now
        d.binding (s.routes.active d.binding.id)
      let task := if decoder.retains d.binding then Task.resume rest else .finishing d.binding rest
      some (.decoded w d.binding frame reply, { (s.tick now).setWorker w ⟨decoder, (s.workers w).inbox, task⟩ with
        limits, decoded := s.decoded ++ [(d.binding, frame)] })
  | _ => none

/-- `finish` in `Worker::fragment` and in the pressure handler. -/
def finish (s : State A) (w : Nat) : Option (Event A × State A) :=
  match (s.workers w).task with
  | .finishing binding rest => do
      let (routes, limits) ← s.routes.finish s.limits binding
      some (.finished w binding, { s.setTask w (Task.resume rest) with routes, limits })
  | _ => none

/-- `Worker::packet` fails and the rest of the delivery is dropped. -/
def abandon (s : State A) (w : Nat) : Option (Event A × State A) :=
  match (s.workers w).task with
  | .fragments d => do
      let limits ← releaseBatch s.limits d
      some (.dropped d, { s.setTask w .idle with limits, lost := s.lost ++ d.frames })
  | _ => none

def expireRoutes (s : State A) (shard now : Nat) : Option (State A) := do
  let (routes, limits) ← s.routes.expire s.limits shard now
  some { s.tick now with
    routes, limits, lost := s.lost ++ ((s.routes.shards shard).overdue now).flatMap Entry.frames }

def expireDecoder (e : PipelineEnv A) (s : State A) (w now : Nat) : Option (State A) := do
  let (decoder, limits) ← (s.workers w).decoder.expire e.decoder s.limits now
  some { (s.tick now).setWorker w { s.workers w with decoder } with limits }

/-- Remove an entry that `discard_oldest_pending` picked. -/
def discardPending (s : State A) (shard : Nat) (key : FragmentKey) : Option (State A) := do
  let (routes, limits) ← s.routes.remove s.limits shard key
  some { s with
    routes, limits
    lost := s.lost ++ ((s.routes.shards shard).entries.lookup key).elim [] Entry.frames }

/-- Remove an assembly that `discard_oldest` picked; its binding is finished next. -/
def discardOldest (e : PipelineEnv A) (s : State A) (w : Nat) (key : FragmentKey) : Option (State A) := do
  let a ← (s.workers w).decoder.fragments.lookup key
  let (decoder, limits) ← (s.workers w).decoder.remove e.decoder s.limits key
  let task := match a.binding with
    | some binding => Task.finishing binding none
    | none => .idle
  some { s.setWorker w ⟨decoder, (s.workers w).inbox, task⟩ with limits }

end State

inductive Step (e : PipelineEnv A) (s : State A) : Event A → State A → Prop where
  | frame {w now : Nat} {received : Received} {accepted : Bool} {ev : Event A} {s' : State A} :
      w < e.workers → (s.workers w).task = .idle → s.frame e w received accepted now = some (ev, s') → Step e s ev s'
  | forward {w : Nat} {accepted : Bool} {ev : Event A} {s' : State A} :
      w < e.workers → s.forward w accepted = some (ev, s') → Step e s ev s'
  | take {w now : Nat} {ev : Event A} {s' : State A} :
      w < e.workers → (s.workers w).task = .idle → s.take e w now = some (ev, s') → Step e s ev s'
  | releasePending {w : Nat} {s' : State A} :
      w < e.workers → s.releasePending w = some s' → Step e s .quiet s'
  | fragment {w now : Nat} {ev : Event A} {s' : State A} :
      w < e.workers → s.fragment e w now = some (ev, s') → Step e s ev s'
  | finish {w : Nat} {ev : Event A} {s' : State A} : w < e.workers → s.finish w = some (ev, s') → Step e s ev s'
  | abandon {w : Nat} {ev : Event A} {s' : State A} : w < e.workers → s.abandon w = some (ev, s') → Step e s ev s'
  | dropQueued {w : Nat} {before after : List Forwarded} {d : Delivery} {limits : Limits} :
      w < e.workers → (s.workers w).inbox = before ++ .fragments d :: after →
      State.releaseBatch s.limits d = some limits →
      Step e s (.dropped d) { s.setWorker w { s.workers w with inbox := before ++ after } with
        limits, lost := s.lost ++ d.frames }
  | expireRoutes {shard now : Nat} {s' : State A} : s.expireRoutes shard now = some s' → Step e s .quiet s'
  | expireDecoder {w now : Nat} {s' : State A} :
      w < e.workers → s.expireDecoder e w now = some s' → Step e s .quiet s'
  | discardPending {shard : Nat} {key : FragmentKey} {s' : State A} :
      (s.routes.shards shard).OldestPending key → s.discardPending shard key = some s' → Step e s .quiet s'
  | discardOldest {w : Nat} {key : FragmentKey} {s' : State A} :
      w < e.workers → (s.workers w).task = .idle → (s.workers w).decoder.Oldest key →
      s.discardOldest e w key = some s' → Step e s .quiet s'
  /-- `needs_headroom` -/
  | headroom {now : Nat} :
      Step e s .quiet { s.tick now with limits := (s.limits.needsHeadroom now).2 }
  | releaseBinding {limits : Limits} :
      s.limits.drop e.routes.entryBytes = some limits → Step e s .quiet { s with limits }

inductive Run (e : PipelineEnv A) (s : State A) : List (Event A) → State A → Prop where
  | refl : Run e s [] s
  | step {evs : List (Event A)} {ev : Event A} {s' s'' : State A} :
      Run e s evs s' → Step e s' ev s'' → Run e s (evs ++ [ev]) s''

def Reachable (e : PipelineEnv A) (s : State A) : Prop := ∃ now evs, Run e (State.new e now) evs s

end Pipeline

end Kotoconn.Tun
