import Kotoconn.Hysteria2.Wire
import Kotoconn.Lib.Loop
import Kotoconn.Lib.Slots
import Kotoconn.Lib.Totals

/-!
# `wire::Reassembly`

The incomplete packets of one connection: a table of packets, the order in which they were begun and the bytes they
hold. `receive` takes one fragment. `none` is a panic, a failed debug assertion or a loop that does not end. Times are
nanoseconds.
-/

namespace Kotoconn.Hysteria2

open Lib Protocol

def maxPending : Nat := 64
def maxBuffered : Nat := 256 * 1024

def fragmentRetention : Nat := 10000000000

abbrev Key := UInt32 × UInt16

def Fragment.key (part : Fragment) : Key := (part.session, part.packet)

/-- The contents of `n` slots after the fragments `parts`. -/
abbrev slotsOf (n : Nat) (parts : List Fragment) : List (Option Bytes) :=
  firstAt (fun f : Fragment => f.index.toNat) Fragment.payload n parts

structure Pending where
  target : Target
  fragments : List (Option Bytes)
  bytes : Nat
  received : Nat
  created : Nat

structure Reassembly where
  pending : Table Key Pending
  order : List Key
  bytes : Nat

/-- What `receive` returns. -/
abbrev Outcome := Except Error (Option (UInt32 × Packet))

def Pending.new (part : Fragment) (now : Nat) : Pending :=
  ⟨part.target, List.replicate part.count.toNat none, 0, 0, now⟩

def Pending.fill (p : Pending) (part : Fragment) : Pending :=
  { p with
    bytes := p.bytes + part.payload.length
    received := p.received + 1
    fragments := p.fragments.set part.index.toNat (some part.payload) }

namespace Reassembly

/-- `Reassembly::default` -/
def empty : Reassembly := ⟨∅, [], 0⟩

def remove (s : Reassembly) (key : Key) : Option (Option Pending × Reassembly) :=
  match s.pending.lookup key with
  | none => some (none, s)
  | some p =>
    if s.bytes < p.bytes then none
    else some (some p, ⟨s.pending.erase key, s.order.filter (· ≠ key), s.bytes - p.bytes⟩)

def removeOldest (s : Reassembly) (key : Key) : Turn Reassembly Reassembly :=
  match s.remove key with
  | none => .fail
  | some (_, s) => .again s

def expireTurn (now : Nat) (s : Reassembly) : Turn Reassembly Reassembly :=
  match s.order.head? with
  | none => .done s
  | some key =>
    if (s.pending.lookup key).any fun p => now - p.created < fragmentRetention then .done s else s.removeOldest key

def expire (s : Reassembly) (now : Nat) : Option Reassembly := loop (expireTurn now) (s.order.length + 1) s

def evictTurn (part : Fragment) (s : Reassembly) : Turn Reassembly Reassembly :=
  if maxBuffered < s.bytes + part.payload.length ∨
      ((s.pending.lookup part.key).isNone ∧ maxPending ≤ s.pending.keys.length) then
    match s.order.head? with
    | none => .done s
    | some oldest => s.removeOldest oldest
  else .done s

def evict (s : Reassembly) (part : Fragment) : Option Reassembly := loop (evictTurn part) (s.order.length + 1) s

def entry (s : Reassembly) (part : Fragment) (now : Nat) : Pending × List Key :=
  match s.pending.lookup part.key with
  | some p => (p, s.order)
  | none => (Pending.new part now, s.order ++ [part.key])

def complete (s : Reassembly) (key : Key) : Option (Outcome × Reassembly) :=
  match s.remove key with
  | some (some p, s) =>
    match allFilled p.fragments with
    | none => none
    | some parts => some (.ok (some (key.1, ⟨p.target, parts.flatten⟩)), s)
  | _ => none

def settle (s : Reassembly) (key : Key) (p : Pending) : Option (Outcome × Reassembly) :=
  if maxPayload < p.bytes then
    (s.remove key).map fun r => (failed "oversized reassembled Hysteria datagram", r.2)
  else if p.received ≠ p.fragments.length then some (.ok none, s)
  else s.complete key

def store (s : Reassembly) (part : Fragment) (now : Nat) : Option (Outcome × Reassembly) :=
  let p := (s.entry part now).1
  let order := (s.entry part now).2
  match p.fragments[part.index.toNat]? with
  | none => none
  | some (some _) => some (.ok none, ⟨s.pending.insert part.key p, order, s.bytes⟩)
  | some none =>
    settle ⟨s.pending.insert part.key (p.fill part), order, s.bytes + part.payload.length⟩ part.key (p.fill part)

def conflicts (s : Reassembly) (part : Fragment) : Bool :=
  (s.pending.lookup part.key).any fun p => p.target ≠ part.target ∨ p.fragments.length ≠ part.count.toNat

/-- `receive` after the expiry, for a packet of several fragments. -/
def accept (s : Reassembly) (part : Fragment) (now : Nat) : Option (Outcome × Reassembly) :=
  if s.conflicts part then (s.remove part.key).map fun r => (failed "inconsistent Hysteria fragments", r.2)
  else
    match s.evict part with
    | none => none
    | some s => s.store part now

def receive (s : Reassembly) (now : Nat) (part : Fragment) : Option (Outcome × Reassembly) :=
  match s.expire now with
  | none => none
  | some s =>
    if part.count = 1 then some (.ok (some (part.session, ⟨part.target, part.payload⟩)), s) else s.accept part now

end Reassembly

end Kotoconn.Hysteria2
