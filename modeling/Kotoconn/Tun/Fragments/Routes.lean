import Kotoconn.Tun.Endpoint
import Kotoconn.Tun.Packet.Decoder

/-!
# `fragments.rs`: binding datagrams to their workers

* `Pending`, `Entry`, `Shard`, `Routes`: the routing state. `Routes.bindings` holds every `Binding` ever allocated, at
  its identity, and `Routes.active` the flags of these;
* `Routes.route`: one fragment. Where the code returns `None`, `Routed` says why.

Each call holds one shard's lock. `none` is a panic or a failed debug assertion. The lease of a `Binding` is given back
when the last reference is gone, so it is not part of a call; the wake-up of the supervisor is left out.
-/

namespace Kotoconn.Tun

open Lib Function

structure Frame where
  received : Received
  serial : Nat

structure RoutesEnv where
  /-- `ENTRY_BYTES` -/
  entryBytes : Nat
  /-- `size_of::<Received>()` -/
  receivedBytes : Nat
  /-- The capacity of a vector of frames grown to a length by `reserve_exact`. -/
  allocate : Nat → Nat

structure Pending where
  frames : List Frame
  capacity : Nat
  retained : Nat
  held : Nat

structure Delivery where
  owner : Nat
  binding : Binding
  frame : Frame
  pending : Option Pending

structure Entry where
  binding : Binding
  owner : Option Nat
  pending : Option Pending

structure Shard where
  entries : Table FragmentKey Entry
  nextExpiry : Option Nat

structure Routes where
  count : Nat
  shards : Nat → Shard
  bindings : List Binding
  /-- `Binding::active`, by identity -/
  active : Nat → Bool

/-- What `route` did with a frame. -/
inductive Routed where
  | unadmitted
  | unbuffered (binding : Binding)
  | overflow (entry : Entry)
  | retained (binding : Binding)
  | delivery (delivery : Delivery)

def Routed.result : Routed → Option Delivery
  | delivery d => some d
  | _ => none

/-! ## Batches and entries -/

namespace Pending

def empty : Pending := ⟨[], 0, 0, 0⟩

def push (e : RoutesEnv) (p : Pending) (l : Limits) (frame : Frame) (now : Nat) : Option (Bool × Pending × Limits) :=
  if frame.received.bytes.length ≤ frame.received.allocationSize then do
    let retained := p.retained + frame.received.allocationSize
    let charged := retained + max p.capacity (p.frames.length + 1) * e.receivedBytes
    let (resized, l) ← l.resize p.held charged now
    if resized then
      let capacity := if p.frames.length + 1 ≤ p.capacity then p.capacity else e.allocate (p.frames.length + 1)
      let (resized, l) ← l.resize charged (retained + capacity * e.receivedBytes) now
      if resized then
        some (true, ⟨p.frames ++ [frame], capacity, retained, retained + capacity * e.receivedBytes⟩, l)
      else some (false, { p with capacity, held := charged }, l)
    else some (false, p, l)
  else none

end Pending

def Entry.dropAll (l : Limits) (gone : List Entry) : Option Limits :=
  gone.foldlM (fun l entry => match entry.pending with
    | some pending => l.drop pending.held
    | none => some l) l

namespace Shard

def new : Shard := ⟨∅, none⟩

def expire (s : Shard) (now : Nat) : Shard :=
  if s.nextExpiry.any (· ≤ now) then
    let kept := s.entries.retain fun entry => now < entry.binding.expires
    ⟨kept, (kept.values.map fun entry => entry.binding.expires).min?⟩
  else s

/-- The entries that `expire` removes. -/
def overdue (s : Shard) (now : Nat) : List Entry :=
  if s.nextExpiry.any (· ≤ now) then (s.entries.retain fun entry => !(now < entry.binding.expires)).values else []

/-- `discard_oldest_pending` picks any entry with a batch that expires first. -/
def OldestPending (s : Shard) (key : FragmentKey) : Prop :=
  ∃ entry, s.entries.lookup key = some entry ∧ entry.pending.isSome = true ∧
    ∀ k other, s.entries.lookup k = some other → other.pending.isSome = true →
      entry.binding.expires ≤ other.binding.expires

end Shard

/-! ## The calls -/

namespace Routes

def new (count : Nat) : Routes := ⟨count, fun _ => Shard.new, [], fun _ => false⟩

def lock (r : Routes) (shard : Nat) : Option Shard := if shard < r.count then some (r.shards shard) else none

/-- Write a shard back without the entries in `gone`; `Drop for Entry` clears their flags. -/
def put (r : Routes) (shard : Nat) (s : Shard) (gone : List Entry) : Routes :=
  { r with
    shards := update r.shards shard s
    active := fun id => r.active id && gone.all fun entry => entry.binding.id != id }

def expire (r : Routes) (l : Limits) (shard now : Nat) : Option (Routes × Limits) := do
  let s ← r.lock shard
  let l ← Entry.dropAll l (s.overdue now)
  some (r.put shard (s.expire now) (s.overdue now), l)

def bind (r : Routes) (shard : Nat) (key : FragmentKey) (now : Nat) : Binding :=
  ⟨r.bindings.length, key, now + reassemblyLifetime, shard⟩

def insertNew (r : Routes) (shard : Nat) (key : FragmentKey) (now : Nat) : Routes :=
  let s := r.shards shard
  let binding := r.bind shard key now
  { r with
    shards := update r.shards shard ⟨s.entries.insert key ⟨binding, none, none⟩,
      if s.nextExpiry.all (binding.expires < ·) then some binding.expires else s.nextExpiry⟩
    bindings := r.bindings ++ [binding]
    active := update r.active binding.id true }

/-- Find or insert the entry of a key; `none` inside is a refusal. -/
def enter (e : RoutesEnv) (r : Routes) (l : Limits) (shard : Nat) (key : FragmentKey) (now : Nat) :
    Option (Option Entry × Routes × Limits) :=
  match (r.shards shard).entries.lookup key with
  | some entry => some (some entry, r, l)
  | none => do
      let (reserved, l) ← l.resize 0 e.entryBytes now
      if reserved then some (some ⟨r.bind shard key now, none, none⟩, r.insertNew shard key now, l)
      else some (none, r, l)

def set (r : Routes) (shard : Nat) (key : FragmentKey) (entry : Entry) : Routes :=
  let s := r.shards shard
  { r with shards := update r.shards shard ⟨s.entries.insert key entry, s.nextExpiry⟩ }

def erase (r : Routes) (shard : Nat) (key : FragmentKey) (entry : Entry) : Routes :=
  let s := r.shards shard
  r.put shard ⟨s.entries.erase key, s.nextExpiry⟩ [entry]

def retain (e : RoutesEnv) (r : Routes) (l : Limits) (shard : Nat) (key : FragmentKey) (entry : Entry) (frame : Frame)
    (now : Nat) : Option (Routed × Routes × Limits) := do
  let (batch, l) ← match entry.pending with
    | some pending => some (some pending, l)
    | none => do
        let (reserved, l) ← l.resize 0 0 now
        some (if reserved then some Pending.empty else none, l)
  match batch with
  | none => some (.unbuffered entry.binding, r, l)
  | some pending =>
    let (pushed, pending, l) ← pending.push e l frame now
    if pushed then some (.retained entry.binding, r.set shard key { entry with pending := some pending }, l)
    else do
      let l ← l.drop pending.held
      some (.overflow { entry with pending := some pending }, r.erase shard key entry, l)

def route (e : RoutesEnv) (r : Routes) (l : Limits) (shard : Nat) (key : FragmentKey) (firstOwner : Option Nat)
    (frame : Frame) (now : Nat) : Option (Routed × Routes × Limits) := do
  let (r, l) ← r.expire l shard now
  let (found, r, l) ← r.enter e l shard key now
  match found with
  | none => some (.unadmitted, r, l)
  | some entry =>
    match entry.owner.or firstOwner with
    | some owner =>
      some (.delivery ⟨owner, entry.binding, frame, entry.pending⟩,
        r.set shard key ⟨entry.binding, some owner, none⟩, l)
    | none => r.retain e l shard key entry frame now

def remove (r : Routes) (l : Limits) (shard : Nat) (key : FragmentKey) : Option (Routes × Limits) := do
  let s ← r.lock shard
  match s.entries.lookup key with
  | none => some (r, l)
  | some entry => do
      let l ← Entry.dropAll l [entry]
      some (r.erase shard key entry, l)

def finish (r : Routes) (l : Limits) (binding : Binding) : Option (Routes × Limits) := do
  let s ← r.lock binding.shard
  if (s.entries.lookup binding.key).any (fun entry => entry.binding.ptrEq binding) then
    r.remove l binding.shard binding.key
  else some (r, l)

end Routes

end Kotoconn.Tun
