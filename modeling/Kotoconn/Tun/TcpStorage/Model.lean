import Kotoconn.Lib.Bytes
import Kotoconn.Lib.Loop
import Kotoconn.Lib.Sparse

/-!
# `tcp_storage::Storage`

The byte storage of one direction of a TUN TCP connection: immutable blocks under absolute stream offsets, the
published prefix `head .. head + length`, and the counters it shares with the application's stream.

`none` is a panic or a failed debug assertion. Pool blocks and views into receive frames only decide where
bytes live, so a block is its bytes.
-/

namespace Kotoconn.Tun.TcpStorage
open Lib Lib.Sparse

/-- `AtomicUsize::fetch_sub`: the cell wraps below zero. -/
def fetchSub (cell n : Nat) : Nat := if n ≤ cell then cell - n else cell + 2 ^ 64 - n

/-- Sparse blocks and the published prefix. `target`, `outstanding` and `released` are the cells shared with
the stream. -/
structure Storage where
  blocks : OrdMap Bytes
  head : Nat
  length : Nat
  target : Nat
  outstanding : Nat
  released : Nat
  tx : Bool
  scratch : Bytes

namespace Storage

def new (target : Nat) (tx : Bool) (outstanding released : Nat) : Storage where
  blocks := .empty
  head := 0
  length := 0
  target := target
  outstanding := outstanding
  released := released
  tx := tx
  scratch := []

/-! ## Blocks -/

def push (s : Storage) (bytes : Bytes) : Nat × Storage :=
  if bytes.length ≠ 0 then
    (bytes.length, { s with blocks := s.blocks.insert (s.head + s.length) bytes, length := s.length + bytes.length })
  else (0, s)

def take (s : Storage) : Option (Option Bytes × Storage) :=
  if s.length = 0 then some (none, s)
  else
    match s.blocks.first? with
    | none => none
    | some (start, bytes) =>
      if start ≠ s.head then none
      else
        let count := min bytes.length s.length
        let blocks := s.blocks.erase start
        let blocks := if count < bytes.length then blocks.insert (start + count) (bytes.drop count) else blocks
        some (some (bytes.take count),
          { s with blocks := blocks, head := s.head + count, length := s.length - count })

/-- Cut the block that begins before `start` and reaches into `start .. stop`. -/
def splitLeft (blocks : OrdMap Bytes) (start stop : Nat) : OrdMap Bytes :=
  match blocks.lastBelow start with
  | none => blocks
  | some (key, old) =>
    if key + old.length > start then
      (keepTail (blocks.erase key) key old stop).insert key (old.take (start - key))
    else blocks

/-- One turn of the loop that removes the blocks beginning inside `start .. stop`. -/
def swallow (start stop : Nat) (blocks : OrdMap Bytes) : Turn (OrdMap Bytes) (OrdMap Bytes) :=
  match blocks.firstIn start stop with
  | none => .done blocks
  | some (key, old) => .again (keepTail (blocks.erase key) key old stop)

/-- `Storage::insert`: the new block replaces whatever it overlaps. -/
def insert (s : Storage) (start : Nat) (bytes : Bytes) : Option Storage :=
  let stop := start + bytes.length
  let blocks := splitLeft s.blocks start stop
  match loop (swallow start stop) (blocks.size + 1) blocks with
  | none => none
  | some blocks => some { s with blocks := blocks.insert start bytes }

/-! ## `impl Buffer for Storage` -/

/-- The published bytes from `offset`, to the end of their block at most. -/
def getAllocated (s : Storage) (offset size : Nat) : Option Bytes :=
  if s.length ≤ offset then some []
  else
    let pos := s.head + offset
    match s.blocks.lastAtMost pos with
    | none => none
    | some (start, bytes) =>
      let at_ := pos - start
      if at_ < bytes.length then
        some (slice bytes at_ (min bytes.length (at_ + min size (s.length - offset))))
      else none

def gather (s : Storage) (offset wanted : Nat) (out : Bytes) : Turn Bytes Bytes :=
  if out.length < wanted then
    match s.getAllocated (offset + out.length) (wanted - out.length) with
    | none => .fail
    | some [] => .fail
    | some part => .again (out ++ part)
  else .done out

def getSegment (s : Storage) (offset size : Nat) : Option (Bytes × Storage) :=
  let wanted := min size (s.length - offset)
  match s.getAllocated offset wanted with
  | none => none
  | some part =>
    if part.length = wanted then some (part, s)
    else
      match loop (s.gather offset wanted) (wanted + 1) [] with
      | none => none
      | some out => some (out, { s with scratch := out })

/-- One turn of copying into a buffer of `size` bytes. -/
def readTurn (s : Storage) (offset size : Nat) (out : Bytes) : Turn Bytes Bytes :=
  if out.length < size then
    match s.getAllocated (offset + out.length) (size - out.length) with
    | none => .fail
    | some [] => .done out
    | some part => .again (out ++ part)
  else .done out

/-- What `read_allocated` copies into a buffer of `size` bytes. -/
def readAllocated (s : Storage) (offset size : Nat) : Option Bytes :=
  loop (s.readTurn offset size) (size + 1) []

def writeUnallocated (s : Storage) (offset : Nat) (data : Bytes) : Option Storage :=
  if data.length ≠ 0 then s.insert (s.head + s.length + offset) data else some s

/-- Publish `count` more positions. -/
def enqueueUnallocated (s : Storage) (count : Nat) : Storage := { s with length := s.length + count }

/-- One turn of dropping the blocks that begin before `stop`. -/
def dropTurn (stop : Nat) (blocks : OrdMap Bytes) : Turn (OrdMap Bytes) (OrdMap Bytes) :=
  match blocks.first? with
  | none => .done blocks
  | some (start, bytes) =>
    if start ≥ stop then .done blocks else .again (keepTail (blocks.erase start) start bytes stop)

/-- Drop the first `count` published positions; on transmit their credit returns. That `outstanding`, which the stream
changes too, covers them is not asserted here. -/
def dequeueAllocated (s : Storage) (count : Nat) : Option Storage :=
  if count > s.length then none
  else
    let stop := s.head + count
    match loop (dropTurn stop) (s.blocks.size + 1) s.blocks with
    | none => none
    | some blocks =>
      some { s with
        blocks := blocks
        head := stop
        length := s.length - count
        scratch := if s.length - count = 0 then [] else s.scratch
        outstanding := if s.tx ∧ count ≠ 0 then fetchSub s.outstanding count else s.outstanding
        released := if s.tx ∧ count ≠ 0 then s.released + count else s.released }

def dequeueSlice (s : Storage) (size : Nat) : Option (Bytes × Storage) :=
  match s.readAllocated 0 size with
  | none => none
  | some out => (s.dequeueAllocated out.length).map (fun s' => (out, s'))

def clear (s : Storage) : Option Storage :=
  match if s.tx then s.dequeueAllocated s.length else some s with
  | none => none
  | some s => some { s with blocks := .empty, head := 0, length := 0 }

/-! ## Scattered output -/

/-- One turn of collecting the views of `position .. stop`. -/
def segmentTurn (s : Storage) (stop : Nat) (st : Nat × List Bytes) : Turn (Nat × List Bytes) (List Bytes) :=
  if st.1 < stop then
    match s.blocks.lastAtMost st.1 with
    | none => .fail
    | some (start, bytes) =>
      let count := min (stop - st.1) (start + bytes.length - st.1)
      if count = 0 then .fail
      else .again (st.1 + count, st.2 ++ [slice bytes (st.1 - start) (st.1 - start + count)])
  else .done st.2

/-- The block views that make up the published range `lo .. hi`. -/
def segments (s : Storage) (lo hi : Nat) : Option (List Bytes) :=
  loop (s.segmentTurn (s.head + hi)) (hi - lo + 1) (s.head + lo, [])

end Storage

end Kotoconn.Tun.TcpStorage
