import Kotoconn.Lib.Bytes

/-!
# Targets and packets

The values that every adapter passes on: `Target` (`config/target.rs`) and `Packet` (`protocol/io.rs`).
-/

namespace Kotoconn.Protocol

open Lib

inductive IpAddr where
  | v4 (address : BitVec 32)
  | v6 (address : BitVec 128)
  deriving DecidableEq

inductive Target where
  | domain (name : String) (port : UInt16)
  | ip (address : IpAddr) (port : UInt16)
  deriving DecidableEq

structure Packet where
  target : Target
  payload : Bytes
  deriving DecidableEq

end Kotoconn.Protocol
