import Kotoconn.Lib.Bytes

/-! # What the packet code reads through smoltcp's wire types -/

namespace Kotoconn.Tun

open Lib

abbrev Ipv4Address := BitVec 32
abbrev Ipv6Address := BitVec 128

inductive IpAddress where
  | ipv4 (address : Ipv4Address)
  | ipv6 (address : Ipv6Address)
  deriving DecidableEq

inductive IpVersion where
  | ipv4
  | ipv6
  deriving DecidableEq

/-- The protocols the code tells apart; every other number is `unknown`. -/
inductive IpProtocol where
  | hopByHop
  | tcp
  | udp
  | ipv6Frag
  | icmpv6
  | ipv6Opts
  | unknown (number : UInt8)
  deriving DecidableEq

namespace IpProtocol

def ofNumber (number : UInt8) : IpProtocol :=
  if number = 0 then hopByHop
  else if number = 6 then tcp
  else if number = 17 then udp
  else if number = 44 then ipv6Frag
  else if number = 58 then icmpv6
  else if number = 60 then ipv6Opts
  else unknown number

def number : IpProtocol → UInt8
  | hopByHop => 0
  | tcp => 6
  | udp => 17
  | ipv6Frag => 44
  | icmpv6 => 58
  | ipv6Opts => 60
  | unknown n => n

end IpProtocol

structure HeaderRepr (A : Type) where
  srcAddr : A
  dstAddr : A
  nextHeader : IpProtocol
  payloadLen : Nat
  hopLimit : Nat
  deriving DecidableEq

abbrev Ipv4Repr := HeaderRepr Ipv4Address
abbrev Ipv6Repr := HeaderRepr Ipv6Address

inductive IpRepr where
  | ipv4 (repr : Ipv4Repr)
  | ipv6 (repr : Ipv6Repr)
  deriving DecidableEq

namespace IpRepr

def srcAddr : IpRepr → IpAddress
  | ipv4 r => .ipv4 r.srcAddr
  | ipv6 r => .ipv6 r.srcAddr

def dstAddr : IpRepr → IpAddress
  | ipv4 r => .ipv4 r.dstAddr
  | ipv6 r => .ipv6 r.dstAddr

def nextHeader : IpRepr → IpProtocol
  | ipv4 r => r.nextHeader
  | ipv6 r => r.nextHeader

def hopLimit : IpRepr → Nat
  | ipv4 r => r.hopLimit
  | ipv6 r => r.hopLimit

def isIpv4 : IpRepr → Bool
  | ipv4 _ => true
  | ipv6 _ => false

def headerLen : IpRepr → Nat
  | ipv4 _ => 20
  | ipv6 _ => 40

def setPayloadLen (n : Nat) : IpRepr → IpRepr
  | ipv4 r => ipv4 { r with payloadLen := n }
  | ipv6 r => ipv6 { r with payloadLen := n }

@[simp] theorem setPayloadLen_srcAddr (n : Nat) (ip : IpRepr) : (ip.setPayloadLen n).srcAddr = ip.srcAddr := by
  cases ip <;> rfl

@[simp] theorem setPayloadLen_dstAddr (n : Nat) (ip : IpRepr) : (ip.setPayloadLen n).dstAddr = ip.dstAddr := by
  cases ip <;> rfl

end IpRepr

/-- The accessors of `Ipv4Packet` on a buffer. -/
structure Ipv4Packet where
  version : Nat
  headerLen : Nat
  totalLen : Nat
  ident : Nat
  moreFrags : Bool
  fragOffset : Nat
  hopLimit : Nat
  nextHeader : IpProtocol
  srcAddr : Ipv4Address
  dstAddr : Ipv4Address
  verifyChecksum : Bool

structure Ipv6ExtHeaderRepr where
  nextHeader : IpProtocol
  headerLen : Nat
  data : Bytes

inductive Ipv6OptionFailureType where
  | skip
  | discard
  | discardSendAll
  | discardSendUnicast
  deriving DecidableEq

inductive Ipv6OptionRepr where
  | known
  | unknown (type : UInt8)

structure Ipv6FragmentRepr where
  fragOffset : Nat
  moreFrags : Bool
  ident : Nat

/-- The IP readers. A reader that can fail stands for `new_checked` followed by `Repr::parse`. -/
structure IpWire where
  /-- `IpVersion::of_packet` -/
  ofPacket : Bytes → Option IpVersion
  /-- `Ipv4Packet::new_checked` succeeds -/
  ipv4Checked : Bytes → Bool
  ipv4 : Bytes → Ipv4Packet
  ipv6 : Bytes → Option Ipv6Repr
  extHeader : Bytes → Option Ipv6ExtHeaderRepr
  /-- The items of `Ipv6OptionsIterator`; a malformed option is `none`. -/
  options : Bytes → List (Option Ipv6OptionRepr)
  failureType : UInt8 → Ipv6OptionFailureType
  fragmentHeader : Bytes → Option Ipv6FragmentRepr

/-- What the length checks give. `Ipv4Packet::new_checked` rejects a header length below the 20 fixed bytes. -/
structure IpWire.LengthChecks (w : IpWire) : Prop where
  ipv4_checked : ∀ data, w.ipv4Checked data = true ↔ 20 ≤ data.length ∧ 20 ≤ (w.ipv4 data).headerLen ∧
    (w.ipv4 data).headerLen ≤ (w.ipv4 data).totalLen ∧ (w.ipv4 data).totalLen ≤ data.length
  ipv4_headerLen : ∀ data b, data.head? = some b → (w.ipv4 data).headerLen = 4 * (b.toNat % 16)
  ipv6_payload : ∀ data r, w.ipv6 data = some r → 40 + r.payloadLen ≤ data.length
  extHeader_complete : ∀ data r, w.extHeader data = some r → r.headerLen + r.data.length ≤ data.length
  options_length : ∀ data, (w.options data).length ≤ data.length

end Kotoconn.Tun
