import Kotoconn.Lib.Bytes
import Kotoconn.Lib.Loop

/-!
# `naive/padding.rs`: the padding codec

The first eight writes of a padded tunnel travel in frames with random padding, everything after them as it is.

`Send`, `sendAll`: what a peer writes. It encodes as `encode` does, and may insert frames without payload.
-/

namespace Kotoconn.Naive
open Lib

def firstPaddings : Nat := 8

def maxPayload : Nat := 65535

/-- The `io::Error`s of a codec, by kind. -/
inductive Error where
  | invalidInput (text : String)
  | other (text : String)
  deriving DecidableEq

/-- `Codec::new`. -/
def newCodec (enabled : Bool) : Nat := if enabled then firstPaddings else 0

def splitFrame (source : Bytes) : Option (Bytes × Bytes) :=
  if source.length < 3 then none
  else
    let payload := numberAt source 0 2
    let padding := numberAt source 2 1
    let total := 3 + payload + padding
    if source.length < total then none else some (slice source 3 (3 + payload), source.drop total)

/-- `decode`: the next item, the frames that remain and the buffer. Frames without payload are skipped. -/
def decode : (remaining : Nat) → (source : Bytes) → Option Bytes × Nat × Bytes
  | 0, source => if source = [] then (none, 0, []) else (some source, 0, [])
  | remaining + 1, source =>
    match splitFrame source with
    | none => (none, remaining + 1, source)
    | some (bytes, rest) => if bytes ≠ [] then (some bytes, remaining, rest) else decode remaining rest

/-- `encode`: what is appended to the destination and the frames that remain; `padding` is the random length. -/
def encode (remaining : Nat) (bytes : Bytes) (padding : UInt8) : Except Error (Bytes × Nat) :=
  if bytes = [] then .ok ([], remaining)
  else if maxPayload < bytes.length then .error (.invalidInput "Naive payload exceeds 65535 bytes")
  else if remaining = 0 then .ok (bytes, remaining)
  else .ok (toBytes 2 bytes.length ++ [padding] ++ bytes ++ List.replicate padding.toNat 0, remaining - 1)

/-- `Decoder::decode_eof`, as the trait of the library provides it. -/
def decodeEof (remaining : Nat) (source : Bytes) : Except Error (Option Bytes) × Nat × Bytes :=
  match decode remaining source with
  | (some item, r) => (.ok (some item), r)
  | (none, r) => (if r.2 = [] then .ok none else .error (.other "bytes remaining on stream"), r)

/-! ## The receiving side -/

def drainTurn (st : List Bytes × Nat × Bytes) : Turn (List Bytes × Nat × Bytes) (List Bytes × Nat × Bytes) :=
  match decode st.2.1 st.2.2 with
  | (some item, r) => .again (st.1 ++ [item], r)
  | (none, r) => .done (st.1, r)

def drain (remaining : Nat) (source : Bytes) : Option (List Bytes × Nat × Bytes) :=
  loop drainTurn (source.length + 1) ([], remaining, source)

def arrive (st : List Bytes × Nat × Bytes) (chunk : Bytes) : Option (List Bytes × Nat × Bytes) :=
  (drain st.2.1 (st.2.2 ++ chunk)).map fun r => (st.1 ++ r.1, r.2)

def receive (enabled : Bool) (chunks : List Bytes) : Option (List Bytes × Nat × Bytes) :=
  chunks.foldlM arrive ([], newCodec enabled, [])

/-! ## The sending side -/

def frame (payload padding : Bytes) : Bytes :=
  toBytes 2 payload.length ++ toBytes 1 padding.length ++ payload ++ padding

/-- What a peer does: write bytes with a padding length, or insert a frame that has only padding. -/
inductive Send where
  | write (bytes : Bytes) (padding : UInt8)
  | blank (padding : Bytes)
  deriving DecidableEq

def send (remaining : Nat) : Send → Except Error (Bytes × Nat)
  | .write bytes padding => encode remaining bytes padding
  | .blank padding => .ok (frame [] padding, remaining - 1)

def sendAll : (remaining : Nat) → List Send → Except Error (Bytes × Nat)
  | remaining, [] => .ok ([], remaining)
  | remaining, s :: rest =>
    match send remaining s with
    | .error e => .error e
    | .ok (wire, remaining) =>
      match sendAll remaining rest with
      | .error e => .error e
      | .ok (more, remaining) => .ok (wire ++ more, remaining)

def payloads : List Send → Bytes
  | [] => []
  | .write bytes _ :: rest => bytes ++ payloads rest
  | .blank _ :: rest => payloads rest

def Valid : (remaining : Nat) → List Send → Prop
  | _, [] => True
  | remaining, .write bytes _ :: rest =>
    bytes.length ≤ maxPayload ∧ Valid (if bytes = [] then remaining else remaining - 1) rest
  | remaining, .blank padding :: rest => 0 < remaining ∧ padding.length ≤ 255 ∧ Valid (remaining - 1) rest

end Kotoconn.Naive
