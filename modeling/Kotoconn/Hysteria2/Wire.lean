import Kotoconn.Protocol.Packet

/-!
# `wire.rs`: Hysteria2 datagrams

`WireEnv`: quinn's variable-length integers and the text form of socket addresses, `WireEnv.Inverse` that each reader
undoes its writer.
-/

namespace Kotoconn.Hysteria2

open Lib Protocol

def maxAddress : Nat := 2048
def maxPayload : Nat := 65507

/-- `anyhow::Error`: the text of an `ensure!` or `bail!`, or the failure of a callee. -/
inductive Error where
  | message (text : String)
  | varint
  | utf8
  | port
  deriving DecidableEq

def failed {α : Type} (text : String) : Except Error α := .error (.message text)

structure WireEnv where
  /-- `VarInt::encode` -/
  varintEncode : Nat → Bytes
  /-- `VarInt::decode`, with the bytes after the integer -/
  varintDecode : Bytes → Option (Nat × Bytes)
  /-- `SocketAddr::to_string` -/
  formatSocket : IpAddr → UInt16 → String
  /-- `str::parse::<SocketAddr>` -/
  parseSocket : String → Option (IpAddr × UInt16)
  /-- `str::parse::<Ipv4Addr>` succeeds -/
  ipv4Literal : String → Bool

/-! ## Text -/

def asBytes (text : String) : Bytes := text.toByteArray.data.toList

def fromUtf8 (bytes : Bytes) : Option String := String.fromUTF8? ⟨bytes.toArray⟩

theorem fromUtf8_asBytes (text : String) : fromUtf8 (asBytes text) = some text := by
  have hbytes : (⟨(asBytes text).toArray⟩ : ByteArray) = text.toByteArray := by simp [asBytes]
  rw [fromUtf8, hbytes, String.fromUTF8?, dif_pos text.isValidUTF8]
  rfl

def domainAllowed (name : String) : Bool :=
  name.toList ≠ [] && name.toList.all fun c => c ∉ [':', '[', ']', '\x00']

def rsplitOnce (c : Char) : List Char → Option (List Char × List Char)
  | [] => none
  | x :: xs =>
    match rsplitOnce c xs with
    | some (before, after) => some (x :: before, after)
    | none => if x = c then some ([], xs) else none

theorem rsplitOnce_of_notMem {c : Char} {l : List Char} (h : c ∉ l) : rsplitOnce c l = none := by
  induction l with
  | nil => rfl
  | cons _ _ ih =>
    rw [List.mem_cons, not_or] at h
    rw [rsplitOnce, ih h.2]
    exact if_neg (Ne.symm h.1)

theorem rsplitOnce_append {c : Char} {after : List Char} (h : c ∉ after) (before : List Char) :
    rsplitOnce c (before ++ c :: after) = some (before, after) := by
  induction before with
  | nil => rw [List.nil_append, rsplitOnce, rsplitOnce_of_notMem h]; exact if_pos rfl
  | cons _ _ ih => rw [List.cons_append, rsplitOnce, ih]

def afterSign : List Char → List Char
  | '+' :: rest => rest
  | text => text

/-- `str::parse::<u16>` -/
def parsePort (text : List Char) : Option UInt16 :=
  let digits := afterSign text
  if digits ≠ [] ∧ digits.all Char.isDigit then
    let value := Nat.ofDigitChars 10 digits 0
    if value < 65536 then some (UInt16.ofNat value) else none
  else none

/-- `u16::to_string` -/
def formatPort (port : UInt16) : List Char := Nat.toDigits 10 port.toNat

theorem isDigit_formatPort (port : UInt16) : ∀ c ∈ formatPort port, c.isDigit := fun c hc =>
  Nat.isDigit_of_mem_toDigits (by decide) (by decide) hc

theorem parsePort_formatPort (port : UInt16) : parsePort (formatPort port) = some port := by
  have hdigit := isDigit_formatPort port
  have hne : formatPort port ≠ [] := Nat.toDigits_ne_nil
  have hsign : afterSign (formatPort port) = formatPort port := by
    unfold afterSign
    split
    · rename_i rest h
      exact absurd (hdigit '+' (by rw [h]; exact List.mem_cons_self)) (by decide)
    · rfl
  have hvalue : Nat.ofDigitChars 10 (formatPort port) 0 = port.toNat := Nat.ofDigitChars_toDigits (by decide) (by decide)
  simp only [parsePort, hsign, hvalue]
  rw [if_pos ⟨hne, List.all_eq_true.2 hdigit⟩, if_pos port.toNat_lt, UInt16.ofNat_toNat]

/-! ## Addresses -/

/-- `format!("{name}:{port}")` -/
def formatDomain (name : String) (port : UInt16) : String := String.ofList (name.toList ++ ':' :: formatPort port)

def address (e : WireEnv) (target : Target) : Except Error String := do
  let value ← match target with
    | .ip address port => pure (e.formatSocket address port)
    | .domain name port =>
      if domainAllowed name then pure (formatDomain name port) else failed "invalid Hysteria domain"
  if (asBytes value).length ≤ maxAddress then pure value else failed "Hysteria address too long"

/-- The part of `parse_address` after the attempt to read a socket address. -/
def parseDomain (value : String) : Except Error Target :=
  match rsplitOnce ':' value.toList with
  | none => failed "missing Hysteria port"
  | some (name, port) =>
    if domainAllowed (String.ofList name) then
      match parsePort port with
      | none => .error .port
      | some port => .ok (.domain (String.ofList name) port)
    else failed "invalid Hysteria domain"

def parseAddress (e : WireEnv) (value : String) : Except Error Target :=
  if (asBytes value).length ≤ maxAddress then
    match e.parseSocket value with
    | some (address, port) => .ok (.ip address port)
    | none => parseDomain value
  else failed "Hysteria address too long"

/-! ## Datagrams -/

/-- `VarInt::from_u64` fails above 62 bits. -/
def putVarint (e : WireEnv) (value : Nat) : Except Error Bytes :=
  if value < 2 ^ 62 then .ok (e.varintEncode value) else .error .varint

def putField (e : WireEnv) (value : Bytes) : Except Error Bytes := do
  pure ((← putVarint e value.length) ++ value)

/-- A decoded datagram. Only `decode` makes one, so its checks hold of every value. -/
structure Fragment where
  session : UInt32
  packet : UInt16
  index : UInt8
  count : UInt8
  target : Target
  payload : Bytes
  valid : 0 < count ∧ (count = 1 ∨ index < count)
  payload_le : payload.length ≤ maxPayload

/-- The part of `decode` after the fixed fields. -/
def Fragment.decodeBody (e : WireEnv) (session : UInt32) (packet : UInt16) (index count : UInt8)
    (valid : 0 < count ∧ (count = 1 ∨ index < count)) (bytes : Bytes) : Except Error Fragment :=
  match e.varintDecode bytes with
  | none => .error .varint
  | some (length, rest) =>
    if length ≤ maxAddress ∧ length ≤ rest.length then
      match fromUtf8 (rest.take length) with
      | none => .error .utf8
      | some text =>
        match parseAddress e text with
        | .error error => .error error
        | .ok target =>
          if h : (rest.drop length).length ≤ maxPayload then
            .ok ⟨session, packet, index, count, target, rest.drop length, valid, h⟩
          else failed "oversized Hysteria datagram"
    else failed "invalid Hysteria address length"

def Fragment.decode (e : WireEnv) (bytes : Bytes) : Except Error Fragment :=
  if 9 ≤ bytes.length then
    let session := UInt32.ofNat (numberAt bytes 0 4)
    let packet := UInt16.ofNat (numberAt bytes 4 2)
    let index := UInt8.ofNat (numberAt bytes 6 1)
    let count := UInt8.ofNat (numberAt bytes 7 1)
    if valid : 0 < count ∧ (count = 1 ∨ index < count) then
      decodeBody e session packet index count valid (bytes.drop 8)
    else failed "invalid Hysteria fragment index"
  else failed "short Hysteria datagram"

def datagramHeader (e : WireEnv) (session : UInt32) (packet : UInt16) (target : Target) : Except Error Bytes := do
  let field ← putField e (asBytes (← address e target))
  pure (toBytes 4 session.toNat ++ toBytes 2 packet.toNat ++ [0, 1] ++ field)

/-- `div_ceil`, then `max(1)` -/
def fragmentCount (length capacity : Nat) : Nat := max ((length + capacity - 1) / capacity) 1

/-- The bytes that the fragment at `index` carries. -/
def fragmentPayload (payload : Bytes) (capacity index : Nat) : Bytes :=
  slice payload (index * capacity) (min (index * capacity + capacity) payload.length)

def fragments (e : WireEnv) (session : UInt32) (packet : UInt16) (value : Packet) (mtu : Nat) :
    Except Error (List Bytes) := do
  if maxPayload < value.payload.length then failed "oversized UDP payload"
  else
    let header ← datagramHeader e session packet value.target
    if mtu ≤ header.length then failed "QUIC datagram cannot fit Hysteria address"
    else
      let capacity := mtu - header.length
      let count := fragmentCount value.payload.length capacity
      if 255 < count then failed "too many Hysteria fragments"
      else
        let header := header.set 7 (UInt8.ofNat count)
        pure ((List.range count).map fun index =>
          header.set 6 (UInt8.ofNat index) ++ fragmentPayload value.payload capacity index)

/-- Reading undoes writing. A text `name:port` whose name has no colon and no bracket is a socket address only when
the name is an IPv4 literal. -/
structure WireEnv.Inverse (e : WireEnv) : Prop where
  varint : ∀ value rest, value < 2 ^ 62 → e.varintDecode (e.varintEncode value ++ rest) = some (value, rest)
  varint_ne : ∀ value, e.varintEncode value ≠ []
  socket : ∀ address port, e.parseSocket (e.formatSocket address port) = some (address, port)
  domain : ∀ name port, domainAllowed name = true → e.ipv4Literal name = false →
    e.parseSocket (formatDomain name port) = none

end Kotoconn.Hysteria2
