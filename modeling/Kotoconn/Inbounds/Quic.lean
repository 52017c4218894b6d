import Kotoconn.Inbounds.Sniff
import Kotoconn.Lib.Exec

/-!
# `quic.rs`: the inspection of QUIC Initial packets

* `Inspector.frames`, `Inspector.initial`. A call that fails keeps what it has written so far;
* `Protection`: the keys of a connection, header protection and packet protection, which may do anything.
-/

namespace Kotoconn.Inbounds.Quic
open Lib Sniff

/-! ## Cursors -/

/-- `Cursor`: the bytes that are left. -/
abbrev Cursor := StateT Bytes Exec

namespace Cursor

def take (count : Nat) : Cursor Bytes := fun b =>
  if count ≤ b.length then pure (b.take count, b.drop count) else .reject

def byte : Cursor UInt8 := fun b =>
  match b with
  | [] => .reject
  | first :: rest => pure (first, rest)

/-- The loop of `varint`. -/
def digits : UInt64 → Bytes → Exec UInt64
  | value, [] => pure value
  | value, byte :: rest => do
      Exec.tick
      digits (value <<< 8 ||| byte.toUInt64) rest

def varint : Cursor UInt64 := fun b =>
  match b with
  | [] => .reject
  | first :: _ => do
      let (bytes, rest) ← take (2 ^ (first >>> 6).toNat) b
      let value ← digits (first &&& 0x3f).toUInt64 (bytes.drop 1)
      pure (value, rest)

def size : Cursor Nat := do return (← varint).toNat

/-- Go on only if `b`. -/
def guard (b : Bool) : Cursor Unit := fun rest => do
  Exec.guard b
  pure ((), rest)

/-- A loop of `n` turns. -/
def times (n : Nat) (turn : Cursor Unit) : Cursor Unit :=
  match n with
  | 0 => pure ()
  | n + 1 => do
      Exec.tick
      turn
      times n turn

inductive Frame where
  | skip
  | crypto (offset : Nat) (fragment : Bytes)

def ack : Cursor Unit := do
  let _ ← varint
  let _ ← varint
  let ranges ← size
  let _ ← varint
  guard (ranges ≤ (← get).length / 2)
  times ranges do
    let _ ← varint
    let _ ← varint

def content (type : UInt64) : Cursor Frame :=
  if type = 0 ∨ type = 1 then pure .skip
  else if type = 2 then do
    ack
    return .skip
  else if type = 3 then do
    ack
    times 3 do let _ ← varint
    return .skip
  else if type = 6 then do
    let offset ← size
    let length ← size
    let fragment ← take length
    guard (offset + length < 2 ^ 64)
    return .crypto offset fragment
  else fun _ => .reject

/-- A turn of the loop of `frames`, up to the buffers. -/
def frame : Cursor Frame := do
  Exec.tick
  content (← varint)

end Cursor

/-! ## Packet numbers -/

/-- An addition of `u64`, which must not overflow. -/
def add64 (a b : Nat) : Option Nat := if a + b < 2 ^ 64 then some (a + b) else none

def nearest (expected window candidate : Nat) : Option Nat := do
  let half := window / 2
  let forward ← if (← add64 candidate half) ≤ expected then (add64 candidate window).map (decide <| · < 2 ^ 62)
    else some false
  if forward then add64 candidate window
  else
    let ahead ← add64 expected half
    some (if ahead < candidate ∧ window ≤ candidate then candidate - window else candidate)

def packetNumber (truncated length : Nat) (largest : Option Nat) : Option Nat := do
  let expected ← largest.elim (some 0) (add64 · 1)
  let window ← if length * 8 < 64 then some (2 ^ (length * 8)) else none
  nearest expected window (expected &&& (2 ^ 64 - 1 - (window - 1)) ||| truncated)

/-! ## The inspector -/

structure Inspector where
  connection : Option (Nat × Bytes)
  largestPacket : Option Nat
  crypto : Bytes
  received : List Bool
  contiguous : Nat

abbrev Call := Exec Unit × Inspector

/-- `?`, and the turns up to here. -/
def Call.andThen (x : Call) (f : Inspector → Call) : Call :=
  match x.1.result with
  | .ok () => (⟨(f x.2).1.result, x.1.work + (f x.2).1.work⟩, (f x.2).2)
  | _ => x

def resize {α : Type} (l : List α) (n : Nat) (x : α) : List α := l.take n ++ List.replicate (n - l.length) x

def run : List Bool → Nat
  | true :: rest => run rest + 1
  | _ => 0

namespace Inspector

def new : Inspector := ⟨none, none, [], [], 0⟩

def copy : Nat → Bytes → Inspector → Call
  | _, [], s => (pure (), s)
  | position, byte :: rest, s =>
    match s.received[position]?, s.crypto[position]? with
    | some got, some old =>
      if got ∧ old ≠ byte then (⟨.reject, 1⟩, s)
      else Call.andThen (Exec.tick, { s with
        crypto := s.crypto.set position byte, received := s.received.set position true }) (copy (position + 1) rest)
    | _, _ => (⟨.panic, 1⟩, s)

/-- The loop that moves `contiguous`. -/
def advance (s : Inspector) : Call :=
  let turns := run (s.received.drop s.contiguous)
  let s := { s with contiguous := s.contiguous + turns }
  if s.contiguous ≤ s.crypto.length then (⟨.ok (), turns⟩, s) else (⟨.panic, turns⟩, s)

def store (s : Inspector) (offset : Nat) (fragment : Bytes) : Call :=
  let stop := offset + fragment.length
  if maxBytes < stop then (.reject, s)
  else
    let s := if s.crypto.length < stop then { s with
      crypto := resize s.crypto stop 0, received := resize s.received stop false } else s
    if s.crypto.length = s.received.length then (copy offset fragment s).andThen advance
    else (.panic, s)

def put (s : Inspector) : Cursor.Frame → Call
  | .skip => (pure (), s)
  | .crypto offset fragment => s.store offset fragment

/-- At most `n` turns of the loop of `frames`. -/
def framesWithin : Nat → Inspector → Bytes → Call
  | _, s, [] => (pure (), s)
  | 0, s, _ :: _ => (.panic, s)
  | n + 1, s, first :: tail =>
    let next := Cursor.frame (first :: tail)
    match next.result with
    | .ok (f, rest) => Call.andThen (⟨.ok (), next.work⟩, s) fun s =>
        (s.put f).andThen fun s => framesWithin n s rest
    | .reject => (⟨.reject, next.work⟩, s)
    | .panic => (⟨.panic, next.work⟩, s)

def frames (s : Inspector) (bytes : Bytes) : Call := framesWithin bytes.length s bytes

end Inspector

/-! ## Packets -/

inductive Version where
  | v1
  | v2
  | v1Draft

structure Protection (κ : Type) where
  keys : Version → Bytes → Option κ
  sampleLen : κ → Nat
  /-- `header.decrypt_in_place`: the first byte and the bytes of the packet number -/
  unmask : κ → (sample : Bytes) → UInt8 → Bytes → Option (UInt8 × Bytes)
  /-- `packet.decrypt_in_place` -/
  decrypt : κ → (number : Nat) → (header payload : Bytes) → Option Bytes

structure Header where
  version : Nat
  tlsVersion : Version
  dcid : Bytes
  pnOffset : Nat
  payloadLen : Nat

/-- `version`, and the type of its Initial packets -/
def tlsVersion (version : Nat) : Option (Version × UInt8) :=
  if version = 1 then some (.v1, 0)
  else if version = 0x6b3343cf then some (.v2, 1)
  else if 0xff00001d ≤ version ∧ version ≤ 0xff000020 then some (.v1Draft, 0)
  else none

/-- `initial`, up to the end of the packet. -/
def header (datagram : Bytes) : Exec (Header × Bytes) := StateT.run (s := datagram) do
  let first ← Cursor.byte
  Cursor.guard (first &&& 0xc0 = 0xc0)
  let version := bigEndian (← Cursor.take 4)
  let (tls, initialType) ← StateT.lift (Exec.ofOption (tlsVersion version))
  Cursor.guard ((first >>> 4) &&& 3 = initialType)
  let dcidLen ← Cursor.byte
  Cursor.guard (dcidLen ≤ 20)
  let dcid ← Cursor.take dcidLen.toNat
  let scidLen ← Cursor.byte
  Cursor.guard (scidLen ≤ 20)
  let _ ← Cursor.take scidLen.toNat
  let _ ← Cursor.take (← Cursor.size)
  let payloadLen ← Cursor.size
  let pnOffset := datagram.length - (← get).length
  let _ ← Cursor.take payloadLen
  return ⟨version, tls, dcid, pnOffset, payloadLen⟩

structure Unmasked where
  length : Nat
  truncated : Nat
  header : Bytes
  payload : Bytes

variable {κ ρ : Type} (p : Protection κ)

/-- `initial`, up to the packet number: `packet` is the datagram up to the end of the packet. -/
def unmask (key : κ) (packet : Bytes) (pnOffset : Nat) : Option Unmasked :=
  if packet.length < pnOffset + 4 + p.sampleLen key then none
  else
    match packet with
    | [] => none
    | first :: rest => do
      let sample := slice packet (pnOffset + 4) (pnOffset + 4 + p.sampleLen key)
      let (first, pn) ← p.unmask key sample first (slice packet pnOffset (pnOffset + 4))
      if first &&& 0x0c ≠ 0 then none
      else
        let length := (first &&& 3).toNat + 1
        let packet := first :: rest.take (pnOffset - 1) ++ pn ++ packet.drop (pnOffset + 4)
        some ⟨length, bigEndian (slice packet pnOffset (pnOffset + length)), packet.take (pnOffset + length),
          packet.drop (pnOffset + length)⟩

namespace Inspector

/-- The end of `initial`: the packet is decrypted under a number. -/
def decrypted (s : Inspector) (key : κ) (h : Header) (u : Unmasked) (number : Nat) : Call :=
  match p.decrypt key number u.header u.payload with
  | none => (.reject, s)
  | some plaintext => frames { s with
      connection := some (h.version, h.dcid)
      largestPacket := some (s.largestPacket.elim number (max · number)) } plaintext

/-- `initial`, with what is left of the datagram. -/
def initial (s : Inspector) (datagram : Bytes) : Call × Bytes :=
  match (header datagram).result with
  | .ok (h, rest) =>
    if s.connection.any (· ≠ (h.version, h.dcid)) then ((.reject, s), rest)
    else
      match p.keys h.tlsVersion h.dcid with
      | none => ((.reject, s), rest)
      | some key =>
        match unmask p key (datagram.take (h.pnOffset + h.payloadLen)) h.pnOffset with
        | none => ((.reject, s), rest)
        | some u =>
          match packetNumber u.truncated u.length s.largestPacket with
          | none => ((.panic, s), rest)
          | some number => (s.decrypted p key h u number, rest)
  | .reject => ((.reject, s), [])
  | .panic => ((.panic, s), [])

/-- The bytes that `tls::handshake` is given. -/
def handshake (s : Inspector) : Bytes := s.crypto.take s.contiguous

end Inspector

end Kotoconn.Inbounds.Quic
