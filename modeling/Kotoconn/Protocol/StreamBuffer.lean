import Kotoconn.Lib.Loop
import Kotoconn.Protocol.Capacity
import Kotoconn.Protocol.Stream

/-! # `stream_buffer.rs`: a duplex byte stream -/

namespace Kotoconn.Protocol.StreamBuffer
open Lib

/-- `CHUNK` -/
def chunkSize : Nat := 16 * 1024

/-- A `Vec` with its spare room. -/
structure Chunk where
  data : Bytes
  capacity : Nat
  deriving DecidableEq

def Chunk.room (c : Chunk) : Nat := c.capacity - c.data.length

/-- `State` -/
structure Pipe where
  chunks : List Chunk
  offset : Nat
  bytes : Nat
  capacity : Capacity
  writerClosed : Bool
  readerClosed : Bool
  deriving DecidableEq

namespace Pipe

def new (initial now : Nat) : Pipe := ⟨[], 0, 0, .new initial now, false, false⟩

/-! ## Reads -/

/-- `count` bytes of the front chunk were copied. -/
def advance (p : Pipe) (length count : Nat) : Pipe :=
  if p.offset + count = length then { p with chunks := p.chunks.tail, offset := 0, bytes := p.bytes - count }
  else { p with offset := p.offset + count, bytes := p.bytes - count }

/-- One turn of the loop of `read_inner`, with the bytes that `out` has so far. -/
def copyTurn (remaining : Nat) (s : Bytes × Pipe) : Turn (Bytes × Pipe) (Bytes × Pipe) :=
  if remaining - s.1.length = 0 then .done s
  else
    match s.2.chunks with
    | [] => .done s
    | chunk :: _ =>
      if chunk.data.length < s.2.offset then .fail
      else
        let count := min (remaining - s.1.length) (chunk.data.length - s.2.offset)
        if s.2.bytes < count then .fail
        else .again (s.1 ++ slice chunk.data s.2.offset (s.2.offset + count), s.2.advance chunk.data.length count)

/-- The loop; every turn takes a chunk off or fills `out`. -/
def copy (p : Pipe) (remaining : Nat) : Option (Bytes × Pipe) :=
  loop (copyTurn remaining) (p.chunks.length + remaining + 1) ([], p)

def readInner (p : Pipe) (remaining now : Nat) : Option (Poll Bytes × Pipe) :=
  if remaining = 0 then some (.ready [], p)
  else do
    let (out, p) ← p.copy remaining
    if 0 < out.length then some (.ready out, { p with capacity := p.capacity.complete out.length now })
    else if p.writerClosed then some (.ready [], p)
    else some (.pending, p)

/-! ## Writes -/

/-- A new chunk; `allocated` is the room that `Vec::with_capacity` got. -/
def pushChunk (p : Pipe) (data : Bytes) (count allocated : Nat) : Poll (Except ErrorKind Nat) × Pipe :=
  (.ready (.ok count),
    { p with chunks := p.chunks ++ [⟨data.take count, allocated⟩], bytes := p.bytes + count })

def append (p : Pipe) (data : Bytes) (count allocated : Nat) : Poll (Except ErrorKind Nat) × Pipe :=
  match p.chunks.getLast? with
  | none => p.pushChunk data count allocated
  | some last =>
    if 0 < last.room then
      let count := min count last.room
      (.ready (.ok count),
        { p with
          chunks := p.chunks.dropLast ++ [{ last with data := last.data ++ data.take count }]
          bytes := p.bytes + count })
    else p.pushChunk data count allocated

def writeInner (p : Pipe) (data : Bytes) (now allocated : Nat) : Poll (Except ErrorKind Nat) × Pipe :=
  if data = [] then (.ready (.ok 0), p)
  else if p.readerClosed || p.writerClosed then (.ready (.error .brokenPipe), p)
  else
    let space := (p.capacity.target now).1 - p.bytes
    let p := { p with capacity := (p.capacity.target now).2 }
    if space = 0 then (.pending, p)
    else p.append data (min (min space data.length) chunkSize) allocated

/-! ## Closing -/

/-- `poll_shutdown`, and the first half of `Drop` -/
def close (p : Pipe) : Pipe := { p with writerClosed := true }

/-- The second half of `Drop` -/
def leave (p : Pipe) : Pipe := { p with readerClosed := true, chunks := [], bytes := 0 }

end Pipe

/-! ## Both ends -/

inductive Side where
  | left
  | right
  deriving DecidableEq

def Side.other : Side → Side
  | left => right
  | right => left

/-- `pipes side` is the pipe that `side` writes to and the other side reads. -/
structure Duplex where
  pipes : Side → Pipe
  alive : Side → Bool

/-- A call on an end; `proceed` is the answer of the cooperative scheduler. -/
inductive Op where
  | read (proceed : Bool) (remaining now : Nat)
  | write (proceed : Bool) (data : Bytes) (now allocated : Nat)
  | shutdown
  | drop
  deriving DecidableEq

inductive Outcome where
  | read (r : Poll Bytes)
  | wrote (r : Poll (Except ErrorKind Nat))
  | closed
  deriving DecidableEq

namespace Duplex

/-- `duplex_with_capacity` -/
def withCapacity (initial now : Nat) : Option Duplex :=
  if 0 < initial then some ⟨fun _ => .new initial now, fun _ => true⟩ else none

def setPipe (d : Duplex) (side : Side) (p : Pipe) : Duplex := { d with pipes := Function.update d.pipes side p }

def step (d : Duplex) (side : Side) : Op → Option (Outcome × Duplex)
  | .read true remaining now => do
    let (r, p) ← (d.pipes side.other).readInner remaining now
    some (.read r, d.setPipe side.other p)
  | .read false _ _ => some (.read .pending, d)
  | .write true data now allocated =>
    some (.wrote ((d.pipes side).writeInner data now allocated).1,
      d.setPipe side ((d.pipes side).writeInner data now allocated).2)
  | .write false _ _ _ => some (.wrote .pending, d)
  | .shutdown => some (.closed, d.setPipe side (d.pipes side).close)
  | .drop =>
    let d := d.setPipe side (d.pipes side).close
    some (.closed, { d.setPipe side.other (d.pipes side.other).leave with alive := Function.update d.alive side false })

end Duplex

structure Event where
  side : Side
  op : Op
  outcome : Outcome
  deriving DecidableEq

inductive Reachable (initial start : Nat) : List Event → Duplex → Prop
  | new {d : Duplex} (h : Duplex.withCapacity initial start = some d) : Reachable initial start [] d
  | step {events : List Event} {d d' : Duplex} {outcome : Outcome} (side : Side) (op : Op)
      (h : Reachable initial start events d) (halive : d.alive side = true)
      (hstep : d.step side op = some (outcome, d')) : Reachable initial start (events ++ [⟨side, op, outcome⟩]) d'

/-- The bytes that a call of `side` gave away. -/
def Event.accepted (side : Side) (e : Event) : Bytes :=
  match e with
  | ⟨s, .write _ data _ _, .wrote (.ready (.ok n))⟩ => if s = side then data.take n else []
  | _ => []

def Event.received (side : Side) (e : Event) : Bytes :=
  match e with
  | ⟨s, .read _ _ _, .read (.ready data)⟩ => if s = side then data else []
  | _ => []

def accepted (side : Side) (events : List Event) : Bytes := events.flatMap (Event.accepted side)

def received (side : Side) (events : List Event) : Bytes := events.flatMap (Event.received side)

end Kotoconn.Protocol.StreamBuffer
