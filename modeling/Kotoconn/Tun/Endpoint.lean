import Kotoconn.Lib.Bytes

/-!
# `endpoint.rs`: what a worker receives

`Received` is a frame with the assertions of its device; `ReceiveBuffer.publish` says which allocation it retains.
-/

namespace Kotoconn.Tun

open Lib

structure Received where
  bytes : Bytes
  allocationSize : Nat
  checksumVerified : Bool
  udpSegmentSize : Option Nat
  deriving DecidableEq

/-- `ReceiveBuffer::publish` of the bytes received into a lease: a short frame is copied, a large one takes the lease. -/
def ReceiveBuffer.publish (lease : Nat) (bytes : Bytes) : Bytes × Nat :=
  if bytes.length < lease / 4 then (bytes, (max bytes.length 256).nextPowerOfTwo)
  else (bytes, (max lease 256).nextPowerOfTwo)

end Kotoconn.Tun
