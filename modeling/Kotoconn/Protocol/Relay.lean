import Kotoconn.Lib.Loop
import Kotoconn.Protocol.Stream

/-!
# `chunk.rs`: replayed bytes and the relay

`Direction.poll`: one direction of the relay, at most 32 chunks a poll.
-/

namespace Kotoconn.Protocol
open Lib

variable {ω : Type}

/-! ## Replayed bytes -/

/-- `Prefix` without its inner stream -/
structure Prefix where
  bytes : Bytes
  prefixRead : Bool
  deriving DecidableEq

/-- `prefix`. Without bytes the source returns the inner stream, which such a `Prefix` acts like. -/
def Prefix.new (bytes : Bytes) : Prefix := ⟨bytes, false⟩

namespace Stream

def lift (α : Type) (s : Stream ω) : Stream (ω × α) where
  pollRead w n := ((s.pollRead w.1 n).1, (s.pollRead w.1 n).2, w.2)
  pollReadChunk w := ((s.pollReadChunk w.1).1, (s.pollReadChunk w.1).2, w.2)
  pollWriteChunk w chunk :=
    ((s.pollWriteChunk w.1 chunk).1, (s.pollWriteChunk w.1 chunk).2.1, (s.pollWriteChunk w.1 chunk).2.2, w.2)
  pollFlush w := ((s.pollFlush w.1).1, (s.pollFlush w.1).2, w.2)
  pollShutdown w := ((s.pollShutdown w.1).1, (s.pollShutdown w.1).2, w.2)
  consumeChunk w n := (s.consumeChunk w.1 n, w.2)

/-- `impl Stream for Prefix` -/
def prefixed (inner : Stream ω) : Stream (ω × Prefix) where
  pollRead w remaining :=
    if w.2.bytes ≠ [] then
      let n := min remaining w.2.bytes.length
      (.ready (.ok (w.2.bytes.take n)), w.1, { w.2 with bytes := w.2.bytes.drop n })
    else (inner.lift Prefix).pollRead w remaining
  pollReadChunk w :=
    if w.2.bytes ≠ [] then (.ready (.ok w.2.bytes), w.1, ⟨[], true⟩)
    else (inner.lift Prefix).pollReadChunk (w.1, { w.2 with prefixRead := false })
  pollWriteChunk := (inner.lift Prefix).pollWriteChunk
  pollFlush := (inner.lift Prefix).pollFlush
  pollShutdown := (inner.lift Prefix).pollShutdown
  consumeChunk w n := if w.2.prefixRead then w else (inner.lift Prefix).consumeChunk w n

end Stream

/-! ## One direction -/

/-- `transferred` is the count of a `u64` below `2 ^ 64`. -/
structure Direction where
  bytes : Bytes
  transferred : Nat
  eof : Bool
  done : Bool
  deriving DecidableEq

namespace Direction

def new : Direction := ⟨[], 0, false, false⟩

variable (reader writer : Stream ω)

abbrev Polled (ω : Type) := Poll (Except ErrorKind Unit) × Direction × ω

def forward (d : Direction) (w : ω) : Turn (Direction × ω) (Polled ω) :=
  if d.eof then
    match writer.pollShutdown w with
    | (.ready (.ok ()), w) => .done (.ready (.ok ()), { d with done := true }, w)
    | (r, w) => .done (r, d, w)
  else
    match writer.pollWriteChunk w d.bytes with
    | (.ready (.ok n), bytes, w) =>
      -- the debug assertion on the length of the rest
      if bytes.length + n ≠ d.bytes.length then .fail
      else if n = 0 then .done (.ready (.error .writeZero), { d with bytes := bytes }, w)
      else .again ({ d with bytes := bytes, transferred := d.transferred + n }, reader.consumeChunk w n)
    | (.ready (.error e), bytes, w) => .done (.ready (.error e), { d with bytes := bytes }, w)
    | (.pending, bytes, w) => .done (.pending, { d with bytes := bytes }, w)

def turn (d : Direction) (w : ω) : Turn (Direction × ω) (Polled ω) :=
  if d.bytes = [] ∧ d.eof = false then
    match reader.pollReadChunk w with
    | (.ready (.ok chunk), w) => forward reader writer { d with bytes := chunk, eof := chunk.isEmpty } w
    | (.ready (.error e), w) => .done (.ready (.error e), d, w)
    | (.pending, w) =>
      match writer.pollFlush w with
      | (.ready (.error e), w) => .done (.ready (.error e), d, w)
      | (_, w) => .done (.pending, d, w)
  else forward reader writer d w

/-- At most `n` turns; the task then wakes itself. -/
def turns : Nat → Direction → ω → Option (Polled ω)
  | 0, d, w => some (.pending, d, w)
  | n + 1, d, w =>
    match turn reader writer d w with
    | .again (d, w) => turns n d w
    | .done r => some r
    | .fail => none

def poll (d : Direction) (w : ω) : Option (Polled ω) :=
  if d.done then some (.ready (.ok ()), d, w) else turns reader writer 32 d w

end Direction

/-! ## Both directions -/

/-- The state of `copy_bidirectional`. -/
structure Copy where
  upload : Direction
  download : Direction
  deriving DecidableEq

namespace Copy

def new : Copy := ⟨.new, .new⟩

def result (first second : Poll (Except ErrorKind Unit)) (upload download : Direction) :
    Poll (Except ErrorKind (Nat × Nat)) :=
  match first, second with
  | .ready _, .ready _ => .ready (.ok (upload.transferred, download.transferred))
  | _, _ => .pending

/-- The poll function of `copy_bidirectional`; an error of either direction ends it. -/
def poll (a b : Stream ω) (c : Copy) (w : ω) : Option (Poll (Except ErrorKind (Nat × Nat)) × Copy × ω) :=
  match c.upload.poll a b w with
  | none => none
  | some (.ready (.error e), upload, w) => some (.ready (.error e), { c with upload := upload }, w)
  | some (first, upload, w) =>
    match c.download.poll b a w with
    | none => none
    | some (.ready (.error e), download, w) => some (.ready (.error e), ⟨upload, download⟩, w)
    | some (second, download, w) => some (result first second upload download, ⟨upload, download⟩, w)

end Copy

end Kotoconn.Protocol
