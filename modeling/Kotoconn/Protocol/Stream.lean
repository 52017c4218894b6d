import Kotoconn.Lib.Bytes
import Kotoconn.Lib.Channel

/-!
# `chunk.rs`: byte streams

`Lawful`: what the trait promises of its calls.
-/

namespace Kotoconn.Protocol
open Lib

/-- The kinds of `io::Error` in use; `other` is any error of a native stream. -/
inductive ErrorKind where
  | brokenPipe
  | writeZero
  | other (code : Nat)
  deriving DecidableEq

/-- `Stream`. A world holds all that a call can look at, so that every order of `Ready` and `Pending` is one of a world.
`ChunkBuffer` is storage only. -/
structure Stream (ω : Type) where
  pollRead : ω → (remaining : Nat) → Poll (Except ErrorKind Bytes) × ω
  pollReadChunk : ω → Poll (Except ErrorKind Bytes) × ω
  pollWriteChunk : ω → Bytes → Poll (Except ErrorKind Nat) × Bytes × ω
  pollFlush : ω → Poll (Except ErrorKind Unit) × ω
  pollShutdown : ω → Poll (Except ErrorKind Unit) × ω
  consumeChunk : ω → Nat → ω

/-- "Chunk writes consume exactly the accepted prefix. Pending never changes the caller's chunk." A read never fills
more than it was given. -/
structure Stream.Lawful {ω : Type} (s : Stream ω) : Prop where
  read : ∀ w n data, (s.pollRead w n).1 = .ready (.ok data) → data.length ≤ n
  written : ∀ w chunk n, (s.pollWriteChunk w chunk).1 = .ready (.ok n) →
    n ≤ chunk.length ∧ (s.pollWriteChunk w chunk).2.1 = chunk.drop n
  pending : ∀ w chunk, (s.pollWriteChunk w chunk).1 = .pending → (s.pollWriteChunk w chunk).2.1 = chunk

end Kotoconn.Protocol
