import Kotoconn.Tun.Offload.Normalize
import Kotoconn.Tun.Udp.Octets

/-!
# What a filtered frame does to `dispatch`

`Reading.next`: an error of `poll_frame` ends `dispatch`, wherever the frame is read. `frame_filtered`: `Worker::frame`
only counts a filtered frame.
-/

namespace Kotoconn.Tun

open Lib List

variable {W E : Type}

/-! ## The code -/

/-- A worker `W` with its sessions and statistics, and the errors `E` of its sessions. -/
structure DispatchEnv (W E : Type) where
  wire : OffloadWire
  account : W → Bytes → W
  /-- `Worker::frame` on a frame that has a route -/
  deliver : W → Received → Parsed → RouteKey → Except E W

/-- Why `dispatch` returns. -/
inductive Stop (E : Type) where
  /-- an error of `poll_frame` -/
  | receive (error : ReceiveError)
  | worker (error : E)
  | panic
  deriving DecidableEq

/-- What `dispatch` waits for: frames that the device has ready, first to last, or another arm of its `select!`. -/
inductive Input (W E : Type) where
  | read (ready : List Bytes)
  | other (step : W → Except E W)

namespace DispatchEnv

def frame (e : DispatchEnv W E) (w : W) (received : Received) : Except (Stop E) W :=
  let w := e.account w received.bytes
  match (parse e.wire.ip received.bytes).result with
  | .panic => .error .panic
  | .reject => .ok w
  | .ok parsed =>
    match parsed.route with
    | none => .ok w
    | some key => (e.deliver w received parsed key).mapError .worker

/-- `poll_frame`, then `frame`. -/
def read (e : DispatchEnv W E) (w : W) (data : Bytes) : Except (Stop E) W := do
  let received ← (e.wire.pollFrame true data).mapError .receive
  e.frame w received

/-- At most `n` more frames that are ready. -/
def batch (e : DispatchEnv W E) : Nat → W → List Bytes → Except (Stop E) W
  | 0, w, _ => .ok w
  | _ + 1, w, [] => .ok w
  | n + 1, w, data :: ready => do
      let w ← e.read w data
      e.batch n w ready

/-- `Input::Read` -/
def turn (e : DispatchEnv W E) (w : W) : List Bytes → Except (Stop E) W
  | [] => .ok w
  | data :: ready => do
      let w ← e.read w data
      e.batch 31 w ready

/-- `dispatch`, as long as it is not stopped. -/
def dispatch (e : DispatchEnv W E) : W → List (Input W E) → Except (Stop E) W
  | w, [] => .ok w
  | w, .read ready :: inputs => do
      let w ← e.turn w ready
      e.dispatch w inputs
  | w, .other step :: inputs => do
      let w ← (step w).mapError .worker
      e.dispatch w inputs

/-! ## One more frame -/

variable {e : DispatchEnv W E} {w w' : W}

/-- `dispatch` is in the state `w` and has read the frames `before` in this turn, with room for one more. -/
structure Reading (e : DispatchEnv W E) (start : W) (inputs : List (Input W E)) (before : List Bytes) (w : W) : Prop where
  room : before.length < 32
  reached : ∃ w', e.dispatch start inputs = .ok w' ∧ e.turn w' before = .ok w

theorem batch_snoc {n : Nat} {before : List Bytes} (data : Bytes) (hroom : before.length < n)
    (h : e.batch n w before = .ok w') : e.batch n w (before ++ [data]) = e.read w' data := by
  induction before generalizing n w with
  | nil =>
    obtain ⟨n, rfl⟩ := Nat.exists_eq_succ_of_ne_zero (Nat.ne_of_gt hroom)
    obtain rfl : w = w' := Except.ok.inj h
    simp only [nil_append, batch]
    cases e.read w data with
    | error => rfl
    | ok => cases n <;> rfl
  | cons first _ ih =>
    obtain ⟨_, rfl⟩ := Nat.exists_eq_succ_of_ne_zero (Nat.ne_of_gt (Nat.zero_lt_of_lt hroom))
    simp only [batch, cons_append] at h ⊢
    cases hread : e.read w first with
    | error =>
      rw [hread] at h
      cases h
    | ok =>
      rw [hread] at h
      exact ih (Nat.lt_of_succ_lt_succ hroom) h

theorem turn_eq_batch (ready : List Bytes) : e.turn w ready = e.batch 32 w ready := by
  cases ready <;> rfl

theorem dispatch_snoc {inputs : List (Input W E)} {ready : List Bytes} (h : e.dispatch w inputs = .ok w') :
    e.dispatch w (inputs ++ [.read ready]) = e.turn w' ready := by
  induction inputs generalizing w with
  | nil =>
    obtain rfl : w = w' := Except.ok.inj h
    simp only [nil_append, dispatch]
    cases e.turn w ready <;> rfl
  | cons input _ ih =>
    cases input with
    | read first =>
      simp only [dispatch, cons_append] at h ⊢
      cases hturn : e.turn w first with
      | error =>
        rw [hturn] at h
        cases h
      | ok =>
        rw [hturn] at h
        exact ih h
    | other step =>
      simp only [dispatch, cons_append] at h ⊢
      cases hstep : (step w).mapError Stop.worker with
      | error =>
        rw [hstep] at h
        cases h
      | ok =>
        rw [hstep] at h
        exact ih h

/-- **Both reads of `dispatch`**: the next frame is read, and an error of `poll_frame` ends `dispatch`. -/
theorem Reading.next {start : W} {inputs : List (Input W E)} {before : List Bytes} (h : Reading e start inputs before w)
    (data : Bytes) : e.dispatch start (inputs ++ [.read (before ++ [data])]) = e.read w data := by
  obtain ⟨_, hinputs, hturn⟩ := h.reached
  rw [turn_eq_batch] at hturn
  rw [dispatch_snoc hinputs, turn_eq_batch, batch_snoc data h.room hturn]

end DispatchEnv

/-! ## Filtered frames -/

/-- The decoder filters the packet: it does not parse, is a fragment, or is neither TCP nor UDP. -/
def Filtered (w : IpWire) (packet : Bytes) : Prop :=
  (parse w packet).result = .reject ∨ ∃ p, (parse w packet).result = .ok p ∧
    (p.fragment.isSome = true ∨ p.ip.nextHeader ≠ .tcp ∧ p.ip.nextHeader ≠ .udp)

def VirtioNetHdr.Plain (header : VirtioNetHdr) : Prop := header.gsoType = 0 ∧ header.flags % 4 = 0

section
variable {e : OffloadWire} {header : VirtioNetHdr} {frame : Bytes} (hheader : e.decode frame = some header)
  (hlen : virtioNetHdrLen ≤ frame.length)

include hheader hlen

theorem normalize_plain (hplain : header.Plain) : e.normalize frame = .ok (false, none, frame) := by
  unfold OffloadWire.normalize
  refine except_bind_eq_ok.2 ⟨header, OffloadWire.header_eq_ok_iff.2 hheader, except_bind_eq_ok.2 ⟨_,
    OffloadWire.sliceFrom_eq_ok.2 ⟨hlen, rfl⟩, if_pos ?_⟩⟩
  rw [hplain.1, hplain.2]
  rfl

end

namespace DispatchEnv
variable {e : DispatchEnv W E} {w : W} {data : Bytes}

theorem frame_ne_receive (received : Received) (error : ReceiveError) : e.frame w received ≠ .error (.receive error) := by
  intro h
  unfold frame at h
  simp only at h
  cases hparse : (parse e.wire.ip received.bytes).result with
  | reject => simp [hparse] at h
  | panic => simp [hparse] at h
  | ok parsed =>
    rw [hparse] at h
    cases hroute : parsed.route with
    | none => simp [hroute] at h
    | some key =>
      simp only [hroute] at h
      generalize e.deliver (e.account w received.bytes) received parsed key = delivered at h
      cases delivered <;> cases h

theorem read_ok_iff : (∀ error, e.read w data ≠ .error (.receive error)) ↔ ∃ r, e.wire.pollFrame true data = .ok r := by
  unfold read
  cases e.wire.pollFrame true data with
  | error error =>
    refine ⟨fun h => absurd rfl (h error), fun ⟨_, h⟩ => ?_⟩
    cases h
  | ok received => exact ⟨fun _ => ⟨received, rfl⟩, fun _ => frame_ne_receive received⟩

theorem read_of_pollFrame {received : Received} (h : e.wire.pollFrame true data = .ok received) :
    e.read w data = e.frame w received := by
  rw [read, h]
  rfl

theorem frame_filtered {received : Received} (h : Filtered e.wire.ip received.bytes)
    (hwhole : ∀ p, (parse e.wire.ip received.bytes).result = .ok p → p.fragment = none) :
    e.frame w received = .ok (e.account w received.bytes) := by
  unfold frame
  rcases h with hreject | ⟨p, hparse, hp⟩
  · simp [hreject]
  · have hnone := hwhole p hparse
    rcases hp with hfragment | ⟨htcp, hudp⟩
    · rw [hnone] at hfragment
      cases hfragment
    · have hroute : p.route = none := by simp [Parsed.route, Parsed.fragmentKey, hnone, Parsed.firstRoute, htcp, hudp]
      simp [hparse, hroute]

end DispatchEnv

/-! ## Over octets -/

namespace Octets

def virtio (frame : Bytes) : Option VirtioNetHdr :=
  let at16 := fun i => numberAt frame (i + 1) 1 * 256 + numberAt frame i 1
  if frame.length < 10 then none else some ⟨numberAt frame 0 1, numberAt frame 1 1, at16 2, at16 4, at16 6, at16 8⟩

def fillChecksum (packet : Bytes) : Bytes :=
  let zeroed := writeAt packet 10 [0, 0]
  writeAt zeroed 10 (toBytes 2 (65535 - onesSum (zeroed.take (ipv4 zeroed).headerLen)))

end Octets

def octetsOffload : OffloadWire where
  ip := octets
  decode := Octets.virtio
  setPayloadLen packet n := writeAt packet 4 (toBytes 2 n)
  setTotalLen packet n := writeAt packet 2 (toBytes 2 n)
  fillChecksum := Octets.fillChecksum
  tcpChecked := Octets.tcpChecked
  udpChecked := Octets.udpChecked
  setLen udp n := writeAt udp 4 (toBytes 2 n)

def octetsDispatch : DispatchEnv Nat Unit := ⟨octetsOffload, fun w bytes => w + bytes.length, fun w _ _ _ => .ok w⟩

def multicastPacket : Bytes := [0x45, 0, 0, 28, 0, 0, 0, 0, 1, 17, 0xce, 0xd5, 10, 0, 0, 1, 224, 0, 0, 251,
  0x14, 0xe9, 0x14, 0xe9, 0, 8, 0, 0]

def multicastFrame : Bytes := [1, 0, 0, 0, 0, 0, 20, 0, 6, 0] ++ multicastPacket

def plainFrame : Bytes := [0, 0, 0, 0, 0, 0, 0, 0, 0, 0] ++ multicastPacket

theorem multicastPacket_rejected : (parse octets multicastPacket).result = .reject := by decide

/-- Neither the first read nor the batch read survives a multicast datagram whose checksum is left to the device. -/
theorem multicast_frame_stops_dispatch : (octets.ipv4 multicastPacket).verifyChecksum = true ∧
    Filtered octetsOffload.ip (multicastFrame.drop virtioNetHdrLen) ∧
    octetsDispatch.dispatch 0 [.read [multicastFrame]] =
      .error (.receive (.invalid "invalid offload IP header or fragmented frame")) ∧
    octetsDispatch.dispatch 0 [.read [plainFrame, multicastFrame]] =
      .error (.receive (.invalid "invalid offload IP header or fragmented frame")) :=
  ⟨by decide, .inl multicastPacket_rejected, rfl, rfl⟩

end Kotoconn.Tun
