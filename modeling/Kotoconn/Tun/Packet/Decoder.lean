import Kotoconn.Lib.Table
import Kotoconn.Tun.Packet.Assembler
import Kotoconn.Tun.Packet.Parse
import Kotoconn.Tun.Reassembly

/-!
# `packet.rs`: the reassembling decoder

* `Assembly`, `Decoder`: the state. `Assembly.copied` is a ghost: the fragments copied since the assembly was inserted;
* `Decoder.reassemble`: one fragment. Where the code returns `None`, `Outcome` says why.

`none` is a panic or a failed debug assertion. Everything is over a budget `L`, an assembler `A` and a `DecoderEnv`.
-/

namespace Kotoconn.Tun

open Lib

/-- `REASSEMBLY_LIFETIME`, 60 s in nanoseconds. -/
def reassemblyLifetime : Nat := 60000000000

structure Binding where
  id : Nat
  key : FragmentKey
  expires : Nat
  shard : Nat
  deriving DecidableEq

def Binding.ptrEq (a b : Binding) : Bool := a.id == b.id

structure Copied where
  key : FragmentKey
  protocol : IpProtocol
  offset : Nat
  more : Bool
  prefixLen : Nat
  data : Bytes
  arrived : Nat
  binding : Option Binding

def Copied.deadline (c : Copied) : Nat :=
  match c.binding with
  | some binding => binding.expires
  | none => c.arrived + reassemblyLifetime

structure Assembly (A : Type) where
  binding : Option Binding
  held : Nat
  expires : Nat
  ranges : A
  data : Bytes
  capacity : Nat
  protocol : IpProtocol
  prefixLen : Nat
  total : Option Nat
  poisoned : Bool
  /-- ghost -/
  copied : List Copied

structure Decoder (A : Type) where
  fragments : Table FragmentKey (Assembly A)
  nextExpiry : Option Nat

structure Packet where
  ip : IpRepr
  payload : Bytes

structure DecoderEnv (L A : Type) where
  wire : IpWire
  /-- `TcpPacket::new_checked` succeeds -/
  tcpChecked : Bytes → Bool
  assembler : Assembler A
  leases : Leases L
  /-- `ASSEMBLY_METADATA` -/
  metadata : Nat
  /-- The capacity of a vector grown to a length by `reserve_exact`. -/
  allocate : Nat → Nat

/-- How `reassemble` ends. -/
inductive Outcome (A : Type) where
  | refused
  | ignored
  | poisons
  | dropped
  | waiting
  | complete (assembly : Assembly A)

variable {L A : Type}

/-! ## One assembly -/

/-- RFC 7112: the first IPv6 fragment must contain the complete transport header. -/
def completeTransportHeader (e : DecoderEnv L A) (protocol : IpProtocol) (data : Bytes) : Bool :=
  match protocol with
  | .tcp => e.tcpChecked data
  | .udp | .icmpv6 => 8 ≤ data.length
  | _ => false

namespace Assembly

def new (e : DecoderEnv L A) (c : Copied) : Assembly A where
  binding := c.binding
  held := e.metadata
  expires := c.deadline
  ranges := e.assembler.new
  data := []
  capacity := 0
  protocol := c.protocol
  prefixLen := c.prefixLen
  total := none
  poisoned := false
  copied := []

def poison (e : DecoderEnv L A) (a : Assembly A) (l : L) (now : Nat) : Option (Assembly A × L) := do
  let (resized, l) ← e.leases.resize l a.held e.metadata now
  some ({ a with
    ranges := e.assembler.new, data := [], capacity := 0, poisoned := true
    held := if resized then e.metadata else a.held }, l)

def raisePrefix (a : Assembly A) (c : Copied) : Assembly A :=
  if c.key.ipv4Protocol.isSome then { a with prefixLen := max a.prefixLen c.prefixLen } else a

/-- The checks on a fragment, after `raisePrefix`. -/
def conflicts (e : DecoderEnv L A) (a : Assembly A) (c : Copied) : Bool :=
  let stop := c.offset + c.data.length
  let ipv4 := c.key.ipv4Protocol.isSome
  let prefixLen := if ipv4 then a.prefixLen else c.prefixLen
  c.data.isEmpty
    || stop > 65535 - prefixLen
    || prefixLen != a.prefixLen
    || (!ipv4 && c.offset == 0 && !completeTransportHeader e c.protocol c.data)
    || c.protocol != a.protocol
    || (c.more && c.data.length % 8 != 0)
    || a.total.any (fun total => stop > total || (!c.more && stop != total))
    || (!c.more && a.data.length > stop)
    || (!ipv4 && (e.assembler.iterData a.ranges).any fun r => r.1 < stop && r.2 > c.offset)
    || a.data.length > 65535 - prefixLen

/-- The buffer zeroed up to `stop`. -/
def extend (a : Assembly A) (stop capacity held : Nat) : Assembly A :=
  { a with data := a.data ++ List.replicate (max a.data.length stop - a.data.length) 0, capacity, held }

/-- Charge and zero the buffer up to the fragment's end; `none` inside is a refusal, with the lease dropped. -/
def grow (e : DecoderEnv L A) (a : Assembly A) (l : L) (stop now : Nat) : Option (Option (Assembly A) × L) := do
  let length := max a.data.length stop
  let required := max a.capacity length
  let (resized, l) ← e.leases.resize l a.held (e.metadata + required) now
  if resized then
    let capacity := if length ≤ a.capacity then a.capacity else e.allocate length
    let (resized, l) ← e.leases.resize l (e.metadata + required) (e.metadata + capacity) now
    if resized then
      some (some (a.extend stop capacity (e.metadata + capacity)), l)
    else do
      let l ← e.leases.drop l (e.metadata + required)
      some (none, l)
  else do
    let l ← e.leases.drop l a.held
    some (none, l)

def store (a : Assembly A) (ranges : A) (c : Copied) : Assembly A :=
  { a with
    ranges
    total := if c.more then a.total else some (c.offset + c.data.length)
    data := writeAt a.data c.offset c.data
    copied := a.copied ++ [c] }

end Assembly

/-! ## The table of assemblies -/

namespace Decoder

def new : Decoder A := ⟨∅, none⟩

def dropAll (e : DecoderEnv L A) (l : L) (removed : List (Assembly A)) : Option L :=
  removed.foldlM (fun l a => e.leases.drop l a.held) l

def expire (e : DecoderEnv L A) (d : Decoder A) (l : L) (now : Nat) : Option (Decoder A × L) :=
  if d.nextExpiry.any (· ≤ now) then do
    let kept := d.fragments.retain fun a => now < a.expires
    let l ← dropAll e l (d.fragments.retain fun a => !(now < a.expires)).values
    some (⟨kept, (kept.values.map Assembly.expires).min?⟩, l)
  else some (d, l)

def remove (e : DecoderEnv L A) (d : Decoder A) (l : L) (key : FragmentKey) : Option (Decoder A × L) :=
  match d.fragments.lookup key with
  | none => some (d, l)
  | some a => do
      let l ← e.leases.drop l a.held
      some ({ d with fragments := d.fragments.erase key }, l)

/-- `discard_oldest` picks any assembly that is not poisoned and expires first. -/
def Oldest (d : Decoder A) (key : FragmentKey) : Prop :=
  ∃ a, d.fragments.lookup key = some a ∧ a.poisoned = false ∧
    ∀ k b, d.fragments.lookup k = some b → b.poisoned = false → a.expires ≤ b.expires

def insertNew (e : DecoderEnv L A) (d : Decoder A) (c : Copied) : Decoder A where
  fragments := d.fragments.insert c.key (Assembly.new e c)
  nextExpiry := some (match d.nextExpiry with
    | some t => min t c.deadline
    | none => c.deadline)

/-- Find or insert the assembly of the fragment; `none` inside is a refusal. -/
def enter (e : DecoderEnv L A) (d : Decoder A) (l : L) (c : Copied) : Option (Option (Assembly A) × Decoder A × L) :=
  match d.fragments.lookup c.key with
  | some a => some (some a, d, l)
  | none => do
      let (reserved, l) ← e.leases.resize l 0 e.metadata c.arrived
      if reserved then some (some (Assembly.new e c), d.insertNew e c, l)
      else some (none, d, l)

def merge (e : DecoderEnv L A) (d : Decoder A) (l : L) (a : Assembly A) (c : Copied) :
    Option (Outcome A × Decoder A × L) := do
  let a := a.raisePrefix c
  if a.conflicts e c then
    let (a, l) ← a.poison e l c.arrived
    some (.poisons, { d with fragments := d.fragments.insert c.key a }, l)
  else
    let (grown, l) ← a.grow e l (c.offset + c.data.length) c.arrived
    match grown with
    | none => some (.dropped, { d with fragments := d.fragments.erase c.key }, l)
    | some a =>
      match e.assembler.add a.ranges c.offset c.data.length with
      | none =>
        let (a, l) ← a.poison e l c.arrived
        some (.poisons, { d with fragments := d.fragments.insert c.key a }, l)
      | some ranges =>
        let a := a.store ranges c
        if a.total ≠ some (e.assembler.peekFront ranges) then
          some (.waiting, { d with fragments := d.fragments.insert c.key a }, l)
        else
          let l ← e.leases.drop (e.leases.complete l a.held c.arrived) a.held
          some (.complete a, { d with fragments := d.fragments.erase c.key }, l)

def reassemble (e : DecoderEnv L A) (d : Decoder A) (l : L) (key : FragmentKey) (protocol : IpProtocol)
    (fragment : Fragment) (data : Bytes) (now : Nat) (binding : Option Binding) :
    Option (Outcome A × Decoder A × L) :=
  if fragment.prefixLen ≤ 65535 ∧ fragment.offset ≤ 0xfff8 ∧ fragment.offset % 8 = 0 then do
    let c : Copied := ⟨key, protocol, fragment.offset, fragment.more, fragment.prefixLen, data, now, binding⟩
    let (d, l) ← d.expire e l now
    let (found, d, l) ← d.enter e l c
    match found with
    | none => some (.refused, d, l)
    | some a => if a.poisoned then some (.ignored, d, l) else d.merge e l a c
  else none

end Decoder

/-! ## The calls -/

/-- The answer of a decode call, with the reason for a `None`. -/
inductive Reply (A : Type) where
  /-- `parse` returns `None` -/
  | filtered
  | inactive
  | whole (packet : Packet)
  | fragment (key : FragmentKey) (ip : IpRepr) (outcome : Outcome A)

def Reply.packet : Reply A → Option Packet
  | whole packet => some packet
  | fragment _ ip (.complete a) => some ⟨ip.setPayloadLen a.data.length, a.data⟩
  | _ => none

def Parsed.decodeWith (e : DecoderEnv L A) (p : Parsed) (d : Decoder A) (l : L) (now : Nat)
    (binding : Option Binding) : Option (Reply A × Decoder A × L) :=
  match p.fragment, p.fragmentKey with
  | some fragment, some key => do
      let (outcome, d, l) ← d.reassemble e l key p.ip.nextHeader fragment p.payload now binding
      some (.fragment key p.ip outcome, d, l)
  | _, _ => some (.whole ⟨p.ip.setPayloadLen p.payload.length, p.payload⟩, d, l)

namespace Decoder

def decode (e : DecoderEnv L A) (d : Decoder A) (l : L) (data : Bytes) (now : Nat) :
    Option (Reply A × Decoder A × L) :=
  match (parse e.wire data).result with
  | .panic => none
  | .reject => some (.filtered, d, l)
  | .ok p => p.decodeWith e d l now none

/-- The assembly of `binding.key` belongs to another binding, or to none. -/
def foreign (d : Decoder A) (binding : Binding) : Bool :=
  (d.fragments.lookup binding.key).any fun a => a.binding.all fun old => !old.ptrEq binding

def evictForeign (e : DecoderEnv L A) (d : Decoder A) (l : L) (binding : Binding) : Option (Decoder A × L) :=
  if d.foreign binding then d.remove e l binding.key else some (d, l)

/-- `active` is the flag of the binding. -/
def decodeFragment (e : DecoderEnv L A) (d : Decoder A) (l : L) (data : Bytes) (now : Nat) (binding : Binding)
    (active : Bool) : Option (Reply A × Decoder A × L) :=
  if now < binding.expires ∧ active then
    match (parse e.wire data).result with
    | .panic => none
    | .reject => some (.filtered, d, l)
    | .ok p =>
      if p.fragmentKey = some binding.key then do
        let (d, l) ← d.evictForeign e l binding
        p.decodeWith e d l now (some binding)
      else none
  else some (.inactive, d, l)

def retains (d : Decoder A) (binding : Binding) : Bool :=
  (d.fragments.lookup binding.key).any fun a => a.binding.any fun current => current.ptrEq binding

end Decoder

end Kotoconn.Tun
