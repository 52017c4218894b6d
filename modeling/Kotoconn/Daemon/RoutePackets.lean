import Kotoconn.Protocol.Packet
import Kotoconn.Protocol.Sessions

/-! # `network/udp.rs`: routing the packets of an association -/

namespace Kotoconn.Daemon
open Lib Protocol

structure RoutePackets where
  sessions : Sessions Target Packet
  batch : List Packet
  /-- `some` once the loop returned -/
  result : Option (Except String Unit)

namespace RoutePackets

def new : RoutePackets := ⟨.empty, [], none⟩

def packet (r : RoutePackets) (p : Packet) (rest : List Packet) (spawned : Except String Unit) (taken : Bool) :
    RoutePackets :=
  match r.sessions.packet 1024 "UDP session generation exhausted" p.target p spawned taken with
  | (.ok (), sessions) => { r with sessions, batch := rest }
  | (.error e, sessions) => ⟨sessions, [], some (.error e)⟩

theorem packet_sessions (r : RoutePackets) (p : Packet) (rest : List Packet) (spawned : Except String Unit)
    (taken : Bool) : (r.packet p rest spawned taken).sessions =
      (r.sessions.packet 1024 "UDP session generation exhausted" p.target p spawned taken).2 := by
  unfold packet
  split
  · next heq => rw [heq]
  · next heq => rw [heq]

inductive Step : RoutePackets → Sessions.Event Target Packet → RoutePackets → Prop
  | other {r : RoutePackets} {sessions : Sessions Target Packet} (h : Sessions.Other r.sessions sessions) :
      Step r .other { r with sessions }
  | ended {r : RoutePackets} (hrunning : r.result = none) (hbatch : r.batch = []) :
      Step r .other { r with sessions := r.sessions.drop, result := some (.ok ()) }
  | completion {r : RoutePackets} {target : Target} {generation : Nat} {rest : List (Target × Nat)}
      (hrunning : r.result = none) (hbatch : r.batch = []) (hnext : r.sessions.completions = (target, generation) :: rest) :
      Step r (.completion target generation)
        { r with sessions := { r.sessions with completions := rest }.complete target generation }
  | received {r : RoutePackets} {packets : List Packet} (hrunning : r.result = none) (hbatch : r.batch = [])
      (hcount : 0 < packets.length ∧ packets.length ≤ 32) : Step r .other { r with batch := packets }
  | packet {r : RoutePackets} {p : Packet} {rest : List Packet} (hrunning : r.result = none)
      (hbatch : r.batch = p :: rest) (spawned : Except String Unit) (taken : Bool) :
      Step r (.packet p.target p) (r.packet p rest spawned taken)

inductive Reachable : RoutePackets → Prop
  | new : Reachable new
  | step {r r' : RoutePackets} {event : Sessions.Event Target Packet} (h : Reachable r) (hstep : Step r event r') :
      Reachable r'

variable {r r' : RoutePackets} {event : Sessions.Event Target Packet}

theorem Step.inv (hstep : Step r event r') (h : r.sessions.Inv 1024) : r'.sessions.Inv 1024 := by
  cases hstep with
  | other hother => exact hother.inv h
  | ended => exact h.drop
  | completion _ _ hnext => exact (h.received_completion hnext).complete _ _
  | received => exact h
  | @packet _ _ _ _ spawned taken =>
    rw [packet_sessions]
    exact h.packet _ _ _ spawned taken

theorem Reachable.inv (h : Reachable r) : r.sessions.Inv 1024 := by
  induction h with
  | new => exact Sessions.inv_empty 1024
  | step _ hstep ih => exact hstep.inv ih

theorem Step.change (hstep : Step r event r') (h : r.sessions.Inv 1024) : r.sessions.Change event r'.sessions := by
  cases hstep with
  | other hother => exact hother.change
  | ended => exact .other rfl
  | completion _ _ hnext => exact h.change_complete hnext
  | received => exact .other rfl
  | packet _ _ spawned taken =>
    rw [packet_sessions]
    exact .ofPacket _ spawned taken

end RoutePackets

end Kotoconn.Daemon
