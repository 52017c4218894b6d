import Kotoconn.Lib.Table
import Kotoconn.Protocol.Packet

/-!
# `shadowsocks2022/server.rs`: the UDP task of a server

* `Filter`: `PacketWindowFilter`, outside the repository; `Filter.Lawful` is what it promises;
* `Reachable`: the runs of the task. The network may delay, reorder and repeat what the client sent.

Wall clock and `Instant`s are nanoseconds of one clock.
-/

namespace Kotoconn.Shadowsocks2022
open Lib Protocol

def second : Nat := 1000000000

def packetLimit : Nat := 2 ^ 64 - 1 - 2 ^ 13

/-- A `SocketAddr`. -/
abbrev Peer := IpAddr × UInt16

/-! ## The crates underneath -/

/-- `PacketWindowFilter`. -/
structure Filter where
  Window : Type
  new : Window
  validatePacketId : Window → (id limit : Nat) → Bool × Window

namespace Filter
variable (f : Filter)

/-- The filter after it was asked about `ids`. -/
def after (w : f.Window) : List Nat → f.Window
  | [] => w
  | id :: ids => after (f.validatePacketId w id packetLimit).2 ids

/-- Those of `ids` that it accepted. -/
def accepted (w : f.Window) : List Nat → List Nat
  | [] => []
  | id :: ids =>
    let r := f.validatePacketId w id packetLimit
    if r.1 then id :: accepted r.2 ids else accepted r.2 ids

/-- A filter accepts an id at most once during its life, and a new one accepts its first. -/
structure Lawful : Prop where
  once : ∀ ids, (f.accepted f.new ids).Nodup
  fresh : ∀ id < packetLimit, (f.validatePacketId f.new id packetLimit).1 = true

end Filter

structure ClientPacket where
  clientSessionId : Nat
  packetId : Nat
  timestamp : Nat
  packet : Packet
  deriving DecidableEq

def ClientPacket.identity (p : ClientPacket) : Nat × Nat := (p.clientSessionId, p.packetId)

inductive Datagram where
  | packet (p : ClientPacket)
  | invalid
  deriving DecidableEq

/-- `decrypt_client_payload` of the library at the time `wall`: a timestamp may be off by 30 seconds. -/
def decrypt (wall : Nat) : Datagram → Option ClientPacket
  | .packet p => if p.timestamp ≤ wall / second + 30 ∧ wall / second ≤ p.timestamp + 30 then some p else none
  | .invalid => none

/-! ## The task -/

/-- `Association`; its queue and scope belong to the handler. -/
structure Association (f : Filter) where
  peer : Peer
  server : Nat
  packet : Nat
  window : f.Window
  active : Nat

inductive Output where
  | forward (p : ClientPacket)
  | reply (peer : Peer) (client server number : Nat) (packet : Packet)
  deriving DecidableEq

/-- The task with all that it handed out. `clock` is the time of the last event, `exhausted` tells that an association
ended because its packet numbers were used up. -/
structure Server (f : Filter) where
  associations : Table Nat (Association f)
  outputs : List Output
  clock : Nat
  exhausted : Bool

/-- What wakes the task. A datagram is opened at `wall`, its association made at `created` and used at `now`; `server`
is the random session of a new association. `fits` tells whether a sealed reply is at most 65507 bytes long. -/
inductive Event where
  | expired (now : Nat)
  | received (peer : Peer) (datagram : Datagram) (wall created now : Nat) (server : Nat)
  | replied (id : Nat) (packet : Packet) (fits : Bool) (now : Nat)
  deriving DecidableEq

namespace Server
variable {f : Filter}

def empty (clock : Nat) : Server f := ⟨∅, [], clock, false⟩

def retention (udpIdleTimeout : Nat) : Nat := max udpIdleTimeout (60 * second)

/-- `associations.retain` at `now`. -/
def expire (s : Server f) (timeout now : Nat) : Server f :=
  { s with associations := s.associations.retain fun a => now < a.active + retention timeout }

def associate (s : Server f) (id : Nat) (peer : Peer) (server created : Nat) : Option (Association f) :=
  match s.associations.lookup id with
  | some a => some a
  | none => if 4096 ≤ s.associations.keys.length then none else some ⟨peer, server, 0, f.new, created⟩

def packet (s : Server f) (p : ClientPacket) (peer : Peer) (server created now : Nat) : Server f :=
  match s.associate p.clientSessionId peer server created with
  | none => s
  | some a =>
    let r := f.validatePacketId a.window p.packetId packetLimit
    if r.1 then
      { s with
        associations := s.associations.insert p.clientSessionId { a with window := r.2, peer := peer, active := now }
        outputs := s.outputs ++ [.forward p] }
    else { s with associations := s.associations.insert p.clientSessionId { a with window := r.2 } }

def reply (s : Server f) (id : Nat) (packet : Packet) (fits : Bool) (now : Nat) : Server f :=
  match s.associations.lookup id with
  | none => s
  | some a =>
    if packetLimit ≤ a.packet + 1 then { s with associations := s.associations.erase id, exhausted := true }
    else
      { s with
        associations := s.associations.insert id { a with packet := a.packet + 1, active := now }
        outputs := if fits then s.outputs ++ [.reply a.peer id a.server (a.packet + 1) packet] else s.outputs }

def turn (timeout : Nat) (s : Server f) : Event → Server f
  | .expired now => { s.expire timeout now with clock := now }
  | .received peer datagram wall created now server =>
    { (match decrypt wall datagram with
      | none => s
      | some p => s.packet p peer server created now) with clock := now }
  | .replied id packet fits now => { s.reply id packet fits now with clock := now }

/-- When an event can come: time goes on, the sleep ends when an association is due, and a datagram that opens is one
that the client sent. -/
def Enabled (timeout : Nat) (sent : List ClientPacket) (s : Server f) : Event → Prop
  | .expired now => s.clock ≤ now ∧ ∃ a ∈ s.associations.values, a.active + retention timeout ≤ now
  | .received _ datagram wall created now _ =>
    s.clock ≤ wall ∧ wall ≤ created ∧ created ≤ now ∧ ∀ p, datagram = .packet p → p ∈ sent
  | .replied _ _ _ now => s.clock ≤ now

def forwarded (s : Server f) : List ClientPacket :=
  s.outputs.filterMap fun
    | .forward p => some p
    | .reply .. => none

end Server

def SentOnce (sent : List ClientPacket) : Prop :=
  ∀ p ∈ sent, ∀ q ∈ sent, p.identity = q.identity → p = q

inductive Reachable (f : Filter) (timeout : Nat) (sent : List ClientPacket) : Server f → Prop
  | empty (clock : Nat) : Reachable f timeout sent (.empty clock)
  | turn {s : Server f} (event : Event) : Reachable f timeout sent s → s.Enabled timeout sent event →
      Reachable f timeout sent (s.turn timeout event)

end Kotoconn.Shadowsocks2022
