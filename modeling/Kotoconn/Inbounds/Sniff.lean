import Kotoconn.Protocol.Packet
import Kotoconn.Protocol.Queue
import Kotoconn.Protocol.Relay

/-!
# `sniff.rs`: inspection before routing

`Inspector`: the recognisers, which may answer anything.
-/

namespace Kotoconn.Inbounds.Sniff
open Lib Protocol

def maxBytes : Nat := 64 * 1024

def maxPackets : Nat := 32

/-- `Outcome`, over any type of results -/
inductive Outcome (ρ : Type) where
  | needMore
  | unknown
  | found (result : ρ)

/-- `tls::records` with its acceptor, `http`, and `quic::Inspector` -/
structure Inspector (σ κ ρ : Type) where
  acceptor : σ
  records : σ → Bytes → Outcome ρ × σ
  http : Bytes → Outcome ρ
  quic : κ
  inspect : κ → Bytes → Outcome ρ × κ

variable {σ κ ρ ω : Type}

/-! ## TCP -/

/-- The state of `inspecting`; `reading` tells that it waits for the stream. -/
structure Tcp (σ : Type) where
  bytes : Bytes
  fed : Nat
  acceptor : σ
  reading : Bool

namespace Tcp
variable (env : Inspector σ κ ρ) (stream : Stream ω)

def new : Tcp σ := ⟨[], 0, env.acceptor, false⟩

abbrev Polled (σ ρ ω : Type) := Poll (Except ErrorKind (Option ρ)) × Tcp σ × ω

def outcome (t : Tcp σ) : Outcome ρ × σ :=
  if t.bytes.head? = some 22 then env.records t.acceptor (t.bytes.drop t.fed) else (env.http t.bytes, t.acceptor)

def look (t : Tcp σ) (w : ω) : Turn (Tcp σ × ω) (Polled σ ρ ω) :=
  if t.bytes.length < t.fed then .fail
  else
    let looked := { t with fed := t.bytes.length, acceptor := (t.outcome env).2 }
    match (t.outcome env).1 with
    | .found result => .done (.ready (.ok (some result)), looked, w)
    | .unknown => .done (.ready (.ok none), looked, w)
    | .needMore =>
      if t.bytes.length = maxBytes then .done (.ready (.ok none), looked, w)
      else .again ({ looked with reading := true }, w)

def read (t : Tcp σ) (w : ω) : Turn (Tcp σ × ω) (Polled σ ρ ω) :=
  if maxBytes < t.bytes.length then .fail
  else
    match stream.pollRead w (min (maxBytes - t.bytes.length) 4096) with
    | (.pending, w) => .done (.pending, t, w)
    | (.ready (.error e), w) => .done (.ready (.error e), t, w)
    | (.ready (.ok data), w) =>
      if data = [] then .done (.ready (.ok none), t, w)
      else .again ({ t with bytes := t.bytes ++ data, reading := false }, w)

def turn (s : Tcp σ × ω) : Turn (Tcp σ × ω) (Polled σ ρ ω) :=
  if s.1.reading then s.1.read stream s.2 else s.1.look env s.2

/-- A poll of the biased `select!`. -/
def poll (interrupted expired : Bool) (t : Tcp σ) (w : ω) : Option (Polled σ ρ ω) :=
  if interrupted || expired then some (.ready (.ok none), t, w)
  else loop (turn env stream) (2 * maxBytes + 2) (t, w)

end Tcp

/-! ## UDP -/

/-- The state of `inspecting` -/
structure Udp (κ : Type) where
  packets : List Packet
  bytes : Nat
  quic : κ

namespace Udp
variable (env : Inspector σ κ ρ)

def new : Udp κ := ⟨[], 0, env.quic⟩

def More (u : Udp κ) : Prop := u.packets.length < maxPackets ∧ u.bytes < maxBytes

instance (u : Udp κ) : Decidable u.More := inferInstanceAs (Decidable (_ ∧ _))

def take (u : Udp κ) (packet : Packet) : Outcome ρ × Udp κ :=
  let bytes := u.bytes + packet.payload.length
  let (outcome, quic) := if bytes ≤ maxBytes then env.inspect u.quic packet.payload else (.unknown, u.quic)
  (outcome, ⟨u.packets ++ [packet], bytes, quic⟩)

/-- `sniffing`, or ended with its result. -/
inductive Phase (κ ρ : Type) where
  | sniffing (u : Udp κ)
  | ended (result : Option ρ)

def after : Outcome ρ × Udp κ → Option (Option ρ)
  | (.found result, _) => some (some result)
  | (.unknown, _) => some none
  | (.needMore, _) => none

def polled (q : Queue.State Packet) : Queue.State Packet :=
  { q with receiver := (q.receiver.next q.shared).1, shared := (q.receiver.next q.shared).2.1 }

def finish (q : Queue.State Packet) (u : Udp κ) : Queue.State Packet :=
  { q with receiver := q.receiver.prepend u.packets }

/-- One step, with the packets that the later receiver got. `recv` and the rest of the queue proceed in steps of
their own; the inspection can be ended wherever it waits. -/
inductive Step (size : Nat) : Queue.State Packet → Phase κ ρ → List Packet → Queue.State Packet → Phase κ ρ → Prop
  | others {q q' : Queue.State Packet} {p : Phase κ ρ} (h : q.Step size none q') (hreceiver : q'.receiver = q.receiver) :
      Step size q p [] q' p
  | recv {q : Queue.State Packet} {u : Udp κ} (hmore : u.More) (hidle : q.receiver.rx = .idle) :
      Step size q (.sniffing u) [] { q with receiver := { q.receiver with rx := .first 1 } } (.sniffing u)
  | polling {q : Queue.State Packet} {u : Udp κ} (hbusy : q.receiver.rx ≠ .idle)
      (hnone : (q.receiver.next q.shared).2.2 = none) : Step size q (.sniffing u) [] (polled q) (.sniffing u)
  | taken {q : Queue.State Packet} {u : Udp κ} {packet : Packet}
      (hsome : (q.receiver.next q.shared).2.2 = some (some packet)) (hafter : after (u.take env packet) = none) :
      Step size q (.sniffing u) [] (polled q) (.sniffing (u.take env packet).2)
  | decided {q : Queue.State Packet} {u : Udp κ} {packet : Packet} {result : Option ρ}
      (hsome : (q.receiver.next q.shared).2.2 = some (some packet)) (hafter : after (u.take env packet) = some result) :
      Step size q (.sniffing u) [] (finish (polled q) (u.take env packet).2) (.ended result)
  | ended {q : Queue.State Packet} {u : Udp κ} (hend : (q.receiver.next q.shared).2.2 = some none) :
      Step size q (.sniffing u) [] (finish (polled q) u) (.ended none)
  | limit {q : Queue.State Packet} {u : Udp κ} (hmore : ¬ u.More) (hidle : q.receiver.rx = .idle) :
      Step size q (.sniffing u) [] (finish q u) (.ended none)
  | stopped {q : Queue.State Packet} {u : Udp κ} (hidle : q.receiver.rx = .idle) :
      Step size q (.sniffing u) [] (finish q u) (.ended none)
  | receive {q q' : Queue.State Packet} {result : Option ρ} {out : Option (Option Packet)} (h : q.Step size out q')
      (hprepend : ∀ items, items ≠ [] → q' ≠ { q with receiver := q.receiver.prepend items })
      (hdrop : q'.receiver.rx ≠ .closing) :
      Step size q (.ended result) (Queue.delivered out) q' (.ended result)

/-- Inspection from `q₀` on, and what was received after it. -/
inductive Run (size : Nat) (q₀ : Queue.State Packet) : Queue.State Packet → Phase κ ρ → List Packet → Prop
  | new : Run size q₀ q₀ (.sniffing (new env)) []
  | step {q q' : Queue.State Packet} {p p' : Phase κ ρ} {yielded out : List Packet} (h : Run size q₀ q p yielded)
      (hstep : Step env size q p out q' p') : Run size q₀ q' p' (yielded ++ out)

end Udp

end Kotoconn.Inbounds.Sniff
