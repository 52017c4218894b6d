import Kotoconn.Lib.OnesComplement
import Kotoconn.Tun.Packet.Wire

/-!
# The IP readers on octets

`octets` reads the fields where the protocols place them. `octets_lengthChecks`: it makes the length checks the packet
code relies on.
-/

namespace Kotoconn.Tun

open Lib

namespace Octets

def ofPacket (data : Bytes) : Option IpVersion :=
  if numberAt data 0 1 / 16 = 4 then some .ipv4
  else if numberAt data 0 1 / 16 = 6 then some .ipv6
  else none

def protocolAt (data : Bytes) (i : Nat) : IpProtocol := IpProtocol.ofNumber (data.getD i 0)

def ipv4 (data : Bytes) : Ipv4Packet where
  version := numberAt data 0 1 / 16
  headerLen := 4 * (numberAt data 0 1 % 16)
  totalLen := numberAt data 2 2
  ident := numberAt data 4 2
  moreFrags := numberAt data 6 1 / 32 % 2 == 1
  fragOffset := numberAt data 6 2 % 8192 * 8
  hopLimit := numberAt data 8 1
  nextHeader := protocolAt data 9
  srcAddr := BitVec.ofNat 32 (numberAt data 12 4)
  dstAddr := BitVec.ofNat 32 (numberAt data 16 4)
  verifyChecksum := onesSum (data.take (4 * (numberAt data 0 1 % 16))) == 0xffff

def ipv4Checked (data : Bytes) : Bool :=
  20 ≤ data.length && 20 ≤ (ipv4 data).headerLen && (ipv4 data).headerLen ≤ (ipv4 data).totalLen &&
    (ipv4 data).totalLen ≤ data.length

def ipv6 (data : Bytes) : Option Ipv6Repr :=
  if 40 + numberAt data 4 2 ≤ data.length ∧ numberAt data 0 1 / 16 = 6 then
    some ⟨BitVec.ofNat 128 (numberAt data 8 16), BitVec.ofNat 128 (numberAt data 24 16), protocolAt data 6,
      numberAt data 4 2, numberAt data 7 1⟩
  else none

def extHeader (data : Bytes) : Option Ipv6ExtHeaderRepr :=
  if 8 ≤ data.length ∧ 8 + 8 * numberAt data 1 1 ≤ data.length then
    some ⟨protocolAt data 0, 2, slice data 2 (8 + 8 * numberAt data 1 1)⟩
  else none

def optionsFrom : Nat → Bytes → List (Option Ipv6OptionRepr)
  | _, [] => []
  | 0, _ :: _ => [none]
  | n + 1, type :: rest =>
    if type = 0 then some .known :: optionsFrom n rest
    else match rest with
      | [] => [none]
      | len :: body =>
        -- a Router Alert carries two bytes
        if body.length < len.toNat ∨ type = 5 ∧ len ≠ 2 then [none]
        else some (if type = 1 ∨ type = 5 then .known else .unknown type) :: optionsFrom n (body.drop len.toNat)

def failureType (type : UInt8) : Ipv6OptionFailureType :=
  if type.toNat / 64 = 0 then .skip
  else if type.toNat / 64 = 1 then .discard
  else if type.toNat / 64 = 2 then .discardSendAll
  else .discardSendUnicast

def fragmentHeader (data : Bytes) : Option Ipv6FragmentRepr :=
  if 6 ≤ data.length then some ⟨numberAt data 0 2 / 8, numberAt data 1 1 % 2 == 1, numberAt data 2 4⟩ else none

/-- `TcpPacket::new_checked` -/
def tcpChecked (data : Bytes) : Bool :=
  20 ≤ data.length && 20 ≤ 4 * (numberAt data 12 1 / 16) && 4 * (numberAt data 12 1 / 16) ≤ data.length

theorem optionsFrom_length (n : Nat) (data : Bytes) : (optionsFrom n data).length ≤ data.length := by
  fun_induction optionsFrom n data with
  | case1 => simp
  | case2 => simp
  | case3 n rest ih => simpa using ih
  | case4 => simp
  | case5 => simp
  | case6 n type h len body h1 ih =>
    rw [List.length_drop] at ih
    simp only [List.length_cons]
    omega

end Octets

def octets : IpWire where
  ofPacket := Octets.ofPacket
  ipv4Checked := Octets.ipv4Checked
  ipv4 := Octets.ipv4
  ipv6 := Octets.ipv6
  extHeader := Octets.extHeader
  options := fun data => Octets.optionsFrom data.length data
  failureType := Octets.failureType
  fragmentHeader := Octets.fragmentHeader

theorem octets_lengthChecks : octets.LengthChecks where
  ipv4_checked data := by simp [octets, Octets.ipv4Checked, and_assoc]
  ipv4_headerLen data b h := by
    cases data with
    | nil => cases h
    | cons =>
      obtain rfl := Option.some.inj h
      simp [octets, Octets.ipv4, numberAt, bigEndian, slice]
  ipv6_payload data r h := by
    simp only [octets, Octets.ipv6] at h
    split_ifs at h with hlen
    obtain rfl := Option.some.inj h
    exact hlen.1
  extHeader_complete data r h := by
    simp only [octets, Octets.extHeader] at h
    split_ifs at h with hlen
    obtain rfl := Option.some.inj h
    simp only [length_slice]
    omega
  options_length data := Octets.optionsFrom_length _ data

end Kotoconn.Tun
