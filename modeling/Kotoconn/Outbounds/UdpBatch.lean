import Kotoconn.Lib.Channel
import Kotoconn.Lib.Loop
import Kotoconn.Lib.Segments
import Kotoconn.Protocol.Packet

/-!
# `native_udp.rs`, `udp_batch.rs`: batches of datagrams

The native transport on Linux. A system call can carry many datagrams: one `sendmsg` whose data the kernel cuts into
segments, one `sendmmsg`, or one `recvmmsg` whose messages may each be several datagrams.

`Syscall.datagrams`: what the kernel puts on the wire.
-/

namespace Kotoconn.Outbounds
open Lib Protocol List Option

/-- `libc`'s error numbers, as far as they matter; `EAGAIN` is `WouldBlock`. -/
inductive Errno where
  | wouldBlock
  | einval
  | eio
  | enoprotoopt
  | emsgsize
  | other (code : Nat)
  deriving DecidableEq

def Errno.Rejects (e : Errno) : Prop := e ∈ [.einval, .eio, .enoprotoopt, .emsgsize]

instance : DecidablePred Errno.Rejects := fun e => inferInstanceAs (Decidable (e ∈ _))

inductive Syscall where
  /-- with `UDP_SEGMENT` -/
  | sendmsg (vectors : List Bytes) (size : UInt16) (result : Except Errno Unit)
  | sendmmsg (messages : List Bytes) (result : Except Errno Nat)

/-- The datagrams that a call puts on the wire: a failed call none, a segmented one the segments of its data. -/
def Syscall.datagrams : Syscall → List Bytes
  | .sendmsg vectors size (.ok ()) => segments size.toNat vectors.flatten
  | .sendmsg _ _ (.error _) => []
  | .sendmmsg messages (.ok n) => messages.take n
  | .sendmmsg _ (.error _) => []

structure Answers where
  segmented : Except Errno Unit
  plain : Except Errno Nat

def payloads (packets : List Packet) : List Bytes := packets.map Packet.payload

/-! ## Sending -/

def sendGso (packets : List Packet) (size : UInt16) (answers : Answers) : Except Errno Unit × Syscall :=
  (answers.segmented, .sendmsg (payloads packets) size answers.segmented)

/-- `send`; the kernel sends at most the messages it is given. `none` is a failed assertion. -/
def sendPlain (packets : List Packet) (answers : Answers) : Option (Except Errno Nat × Syscall) :=
  if packets ≠ [] ∧ packets.length ≤ 32 then
    let n := answers.plain.map (min · packets.length)
    some (n, .sendmmsg (payloads packets) n)
  else none

structure Sender where
  gso : Bool
  deriving DecidableEq

def segmentable (packets : List Packet) (size : Nat) : Nat :=
  min (packets.takeWhile fun packet => packet.payload.length = size).length (65535 / size)

namespace Sender

def new : Sender := ⟨true⟩

def plain (s : Sender) (packets : List Packet) (answers : Answers) (before : List Syscall) :
    Option (Except Errno Nat × Sender × List Syscall) :=
  (sendPlain packets answers).map fun (n, call) => (n, s, before ++ [call])

/-- `Sender::send`, with the system calls it makes. -/
def send (s : Sender) (packets : List Packet) (answers : Answers) :
    Option (Except Errno Nat × Sender × List Syscall) :=
  match packets with
  | [] => s.plain [] answers []
  | first :: _ =>
    if s.gso ∧ 1 < packets.length ∧ first.payload ≠ [] then
      let size := first.payload.length
      let count := segmentable packets size
      if 1 < count then
        let (result, call) := sendGso (packets.take count) (UInt16.ofNat size) answers
        match result with
        | .ok () => some (.ok count, s, [call])
        | .error error =>
          if error.Rejects then plain { gso := false } packets answers [call] else some (.error error, s, [call])
      else s.plain packets answers []
    else s.plain packets answers []

end Sender

/-- `io::Error` -/
inductive IoError where
  | invalidInput (text : String)
  | os (error : Errno)
  deriving DecidableEq

structure Native where
  target : Target
  batch : Nat
  sender : Sender

/-- One pass of the loop in `poll_send`, once the socket is ready: the readiness is an error, `try_io` finds it gone, or
the calls are made. -/
inductive SendPass where
  | failed (error : Errno)
  | unready
  | called (answers : Answers)

namespace Native

/-- The loop of `poll_send`. The socket is no longer ready after the last pass. -/
def sendLoop (n : Native) (packets : List Packet) :
    List SendPass → Option (Poll (Except IoError Nat) × Native × List Syscall)
  | [] => some (.pending, n, [])
  | .failed error :: _ => some (.ready (.error (.os error)), n, [])
  | .unready :: passes => n.sendLoop packets passes
  | .called answers :: passes =>
    match n.sender.send packets answers with
    | none => none
    | some (.error .wouldBlock, sender, calls) =>
      (sendLoop { n with sender } packets passes).map fun (result, n, more) => (result, n, calls ++ more)
    | some (.error error, sender, calls) => some (.ready (.error (.os error)), { n with sender }, calls)
    | some (.ok count, sender, calls) => some (.ready (.ok count), { n with sender }, calls)

def pollSend (n : Native) (packets : List Packet) (passes : List SendPass) :
    Option (Poll (Except IoError Nat) × Native × List Syscall) :=
  let valid := packets.takeWhile fun packet => packet.target = n.target
  if valid = [] then
    some (.ready (.error (.invalidInput "datagram target differs from connected target")), n, [])
  else n.sendLoop valid passes

end Native

/-! ## Receiving -/

def bufferSize : Nat := 65536

/-- A message in its buffer. A control message about segments holds their size, or is too short. What does not fit the
buffer is truncated. -/
structure Message where
  data : Bytes
  /-- `MSG_TRUNC` or `MSG_CTRUNC` -/
  truncated : Bool
  controls : List (Option UInt32)
  fits : truncated = false → data.length ≤ bufferSize

/-- One control message: the length, `none` for `usize::MAX`, and the segment size. -/
def readControl : Option Nat × Nat → Option UInt32 → Option Nat × Nat
  | (_, segment), none => (none, segment)
  | (length, segment), some size =>
    if size = 0 ∨ 65535 < size.toNat then (none, segment) else (length, size.toNat)

/-- The length and the segment size that `udp_batch::receive` stores for a message. -/
def Message.header (m : Message) : Option Nat × Nat :=
  m.controls.foldl readControl (if m.truncated then none else some m.data.length, 0)

def pushTurn (target : Target) (payload : Bytes) (length size : Nat) :
    Nat × List Packet → Turn (Nat × List Packet) (List Packet)
  | (offset, out) =>
    let stop := min (offset + size) length
    let out := out ++ [⟨target, slice payload offset stop⟩]
    if stop = length then .done out else .again (stop, out)

def pushMessage (target : Target) (out : List Packet) (m : Message) : Option (List Packet) :=
  match m.header with
  | (none, _) => some out
  | (some length, segment) =>
    -- a longer slice of the buffer would be out of bounds
    if length ≤ bufferSize then
      let size := if segment = 0 then max length 1 else segment
      loop (pushTurn target (m.data.take length) length size) (length + 1) (0, out)
    else none

def nextBatch (batch count datagrams : Nat) : Nat :=
  let messages := if count = batch then min (count * 2) 32 else max count 1
  min messages (max (32 * count / max datagrams 1) 1)

namespace Native

/-- `Native::receive`: the kernel fills at most `batch` of the scratch buffers, of which there are enough. The two
numbers are those of messages and of datagrams. -/
def receive (n : Native) (result : Except Errno (List Message)) (out : List Packet) :
    Option (Except Errno (Nat × Nat) × List Packet) :=
  if 1 ≤ n.batch ∧ n.batch ≤ 32 then
    match result with
    | .error error => some (.error error, out)
    | .ok messages =>
      let messages := messages.take n.batch
      (messages.foldlM (pushMessage n.target) out).map fun out' =>
        (.ok (messages.length, out'.length - out.length), out')
  else none

end Native

/-- One pass of the loop in `poll_recv`: the readiness is an error, or what `try_io` returns. -/
inductive RecvPass where
  | failed (error : Errno)
  | received (result : Except Errno (List Message))

/-- `poll_recv`. The socket is no longer ready after the last pass. -/
def Native.pollRecv (n : Native) (out : List Packet) :
    List RecvPass → Option (Poll (Except Errno Nat) × Native × List Packet)
  | [] => some (.pending, n, out)
  | .failed error :: _ => some (.ready (.error error), n, out)
  | .received result :: passes =>
    match n.receive result out with
    | none => none
    | some (.error .wouldBlock, out) => n.pollRecv out passes
    | some (.error error, out) => some (.ready (.error error), n, out)
    | some (.ok (count, datagrams), out) =>
      let n := { n with batch := nextBatch n.batch count datagrams }
      if datagrams ≠ 0 then some (.ready (.ok datagrams), n, out) else n.pollRecv out passes

/-! ## What a send can do -/

def Syscall.Segmented : Syscall → Prop
  | .sendmsg .. => True
  | .sendmmsg .. => False

def Syscall.Rejected : Syscall → Prop
  | .sendmsg _ _ (.error e) => e.Rejects
  | _ => False

structure Uniform (packets : List Packet) (count : Nat) (size : UInt16) : Prop where
  count_pos : 0 < count
  count_le : count ≤ packets.length
  size_ne : size.toNat ≠ 0
  equal : ∀ b ∈ payloads (packets.take count), b.length = size.toNat
  total : count * size.toNat ≤ 65535

/-- What `Sender::send` can do, with its result and the calls it makes. -/
inductive SendMoves (s : Sender) (packets : List Packet) : Except Errno Nat → Sender → List Syscall → Prop
  | plain (n : Except Errno Nat) (hn : ∀ k, n = .ok k → k ≤ packets.length) :
      SendMoves s packets n s [.sendmmsg (payloads packets) n]
  | segmented {count : Nat} {size : UInt16} (hgso : s.gso = true) (h : Uniform packets count size) :
      SendMoves s packets (.ok count) s [.sendmsg (payloads (packets.take count)) size (.ok ())]
  | failed {count : Nat} {size : UInt16} (hgso : s.gso = true) (h : Uniform packets count size) (e : Errno)
      (he : ¬ e.Rejects) : SendMoves s packets (.error e) s [.sendmsg (payloads (packets.take count)) size (.error e)]
  | rejected {count : Nat} {size : UInt16} (hgso : s.gso = true) (h : Uniform packets count size) (e : Errno)
      (he : e.Rejects) (n : Except Errno Nat) (hn : ∀ k, n = .ok k → k ≤ packets.length) :
      SendMoves s packets n ⟨false⟩
        [.sendmsg (payloads (packets.take count)) size (.error e), .sendmmsg (payloads packets) n]

variable {packets : List Packet}

theorem sendPlain_eq (hne : packets ≠ []) (hle : packets.length ≤ 32) (answers : Answers) :
    ∃ n, (∀ k, n = .ok k → k ≤ packets.length) ∧
      sendPlain packets answers = some (n, .sendmmsg (payloads packets) n) := by
  refine ⟨_, fun k hk => ?_, if_pos ⟨hne, hle⟩⟩
  cases hplain : answers.plain with
  | error => rw [hplain] at hk; cases hk
  | ok =>
    rw [hplain] at hk
    cases hk
    exact min_le_right _ _

theorem segmentable_uniform {first : Packet} (hfirst : first.payload ≠ [])
    (hcount : 1 < segmentable packets first.payload.length) :
    Uniform packets (segmentable packets first.payload.length) (UInt16.ofNat first.payload.length) := by
  have hpos : 0 < first.payload.length := length_pos_iff.2 hfirst
  have hmul : segmentable packets first.payload.length * first.payload.length ≤ 65535 :=
    (Nat.le_div_iff_mul_le hpos).1 (min_le_right _ _)
  have hsmall : first.payload.length < 65536 := by
    have := Nat.le_mul_of_pos_left first.payload.length (Nat.zero_lt_of_lt hcount)
    omega
  have hsize : (UInt16.ofNat first.payload.length).toNat = first.payload.length := by
    rw [UInt16.toNat_ofNat']
    exact Nat.mod_eq_of_lt hsmall
  let run := packets.takeWhile fun packet => packet.payload.length = first.payload.length
  have hrun : run <+: packets := takeWhile_prefix _
  have hle : segmentable packets first.payload.length ≤ run.length := min_le_left _ _
  refine ⟨Nat.zero_lt_of_lt hcount, le_trans hle hrun.length_le, by rw [hsize]; omega, ?_, by rwa [hsize]⟩
  intro b hb
  obtain ⟨packet, hpacket, rfl⟩ := List.mem_map.1 hb
  rw [hsize]
  have hmem : packet ∈ run := by
    have htake : packets.take (segmentable packets first.payload.length) =
        run.take (segmentable packets first.payload.length) := by
      rw [prefix_iff_eq_take.1 hrun, take_take, min_eq_left hle]
    rw [htake] at hpacket
    exact mem_of_mem_take hpacket
  have hequal := mem_takeWhile_imp hmem
  exact of_decide_eq_true hequal

theorem Sender.send_moves (s : Sender) (hne : packets ≠ []) (hle : packets.length ≤ 32) (answers : Answers) :
    ∃ r s' calls, s.send packets answers = some (r, s', calls) ∧ SendMoves s packets r s' calls := by
  obtain ⟨n, hn, hplain⟩ := sendPlain_eq hne hle answers
  have hsend : ∀ (s : Sender) before, s.plain packets answers before =
      some (n, s, before ++ [.sendmmsg (payloads packets) n]) := fun s before => by
    rw [Sender.plain, hplain]
    rfl
  match packets, hsend with
  | first :: packets, hsend =>
    simp only [Sender.send]
    split_ifs with hgso hcount
    · have huniform := segmentable_uniform hgso.2.2 hcount
      cases hanswer : answers.segmented with
      | ok =>
        simp only [sendGso, hanswer]
        exact ⟨_, _, _, rfl, .segmented hgso.1 huniform⟩
      | error e =>
        simp only [sendGso, hanswer]
        split_ifs with he
        · exact ⟨_, _, _, hsend ⟨false⟩ _, .rejected hgso.1 huniform e he n hn⟩
        · exact ⟨_, _, _, rfl, .failed hgso.1 huniform e he⟩
    · exact ⟨_, _, _, hsend s [], .plain n hn⟩
    · exact ⟨_, _, _, hsend s [], .plain n hn⟩

/-! ## What a result of a send means -/

def wire (calls : List Syscall) : List Bytes := calls.flatMap Syscall.datagrams

theorem wire_append (calls more : List Syscall) : wire (calls ++ more) = wire calls ++ wire more := flatMap_append

/-- The call right after a rejected segmented send is a plain one of the same packets. -/
def Retried (packets : List Packet) : List Syscall → Prop
  | [] => True
  | c :: calls => (c.Rejected → ∃ n, calls.head? = some (.sendmmsg (payloads packets) n)) ∧ Retried packets calls

theorem Retried.append {calls more : List Syscall} (h : Retried packets calls)
    (h' : Retried packets more) : Retried packets (calls ++ more) := by
  induction calls with
  | nil => exact h'
  | cons _ _ ih =>
    rw [cons_append]
    refine ⟨fun hc => ?_, ih h.2⟩
    obtain ⟨n, hn⟩ := h.1 hc
    exact ⟨n, by rw [head?_append, hn, some_or]⟩

/-- A segmented send has a non-zero size, and holds only first packets, of that size and small enough together. -/
def Syscall.Valid (packets : List Packet) : Syscall → Prop
  | .sendmsg vectors size _ => size.toNat ≠ 0 ∧ vectors <+: payloads packets ∧ (∀ b ∈ vectors, b.length = size.toNat) ∧
      vectors.flatten.length ≤ 65535
  | .sendmmsg .. => True

def Settled (calls : List Syscall) : Prop := calls.Pairwise fun c c' => c.Rejected → ¬ c'.Segmented

/-- What a poll to send `packets` with this result did in its calls; `gso` and `gso'` are the flags before and after. -/
structure Sends (packets : List Packet) (gso : Bool) (result : Poll (Except IoError Nat)) (gso' : Bool)
    (calls : List Syscall) : Prop where
  /-- a result `k` means that the first `k` payloads were sent -/
  sent : ∀ k, result = .ready (.ok k) → k ≤ packets.length ∧ wire calls = payloads (packets.take k)
  unsent : (∀ k, result ≠ .ready (.ok k)) → wire calls = []
  valid : ∀ c ∈ calls, c.Valid packets
  retried : Retried packets calls
  settled : Settled calls
  plain : gso = false → gso' = false ∧ ∀ c ∈ calls, ¬ c.Segmented
  dropped : (∃ c ∈ calls, c.Rejected) → gso' = false

section Uniform
variable {packets : List Packet} {count : Nat} {size : UInt16}

variable (h : Uniform packets count size)
include h

theorem Uniform.length_payloads : (payloads (packets.take count)).length = count := by
  rw [payloads, length_map, length_take]
  exact min_eq_left h.count_le

theorem Uniform.valid (result : Except Errno Unit) :
    (Syscall.sendmsg (payloads (packets.take count)) size result).Valid packets := by
  refine ⟨h.size_ne, ( take_prefix count packets).map _, h.equal, ?_⟩
  have hlengths : (payloads (packets.take count)).map List.length = List.replicate count size.toNat := by
    rw [eq_replicate_iff, length_map]
    refine ⟨h.length_payloads, fun l hl => ?_⟩
    obtain ⟨b, hb, rfl⟩ := List.mem_map.1 hl
    exact h.equal b hb
  rw [List.length_flatten, hlengths, sum_replicate_nat]
  exact h.total

theorem Uniform.datagrams :
    (Syscall.sendmsg (payloads (packets.take count)) size (.ok ())).datagrams = payloads (packets.take count) := by
  refine segments_flatten (Nat.pos_of_ne_zero h.size_ne) (fun hnil => ?_) h.equal
  have hlength := h.length_payloads
  rw [hnil, length_nil] at hlength
  exact absurd hlength.symm (Nat.ne_of_gt h.count_pos)

omit h

end Uniform

theorem wire_sendmmsg {n : Except Errno Nat} (hn : ∀ k, n = .ok k → k ≤ packets.length) :
    (∀ k, Poll.ready (n.mapError IoError.os) = .ready (.ok k) →
      k ≤ packets.length ∧ wire [.sendmmsg (payloads packets) n] = payloads (packets.take k)) ∧
    ((∀ k, Poll.ready (n.mapError IoError.os) ≠ .ready (.ok k)) → wire [.sendmmsg (payloads packets) n] = []) := by
  cases n with
  | error => exact ⟨nofun, fun _ => rfl⟩
  | ok n =>
    refine ⟨fun k hk => ?_, fun hk => absurd rfl (hk n)⟩
    cases hk
    refine ⟨hn n rfl, ?_⟩
    show (payloads packets).take n ++ [] = _
    rw [append_nil, payloads, payloads, map_take]

variable {calls : List Syscall}

theorem SendMoves.sends {s s' : Sender} {r : Except Errno Nat} (h : SendMoves s packets r s' calls) :
    Sends packets s.gso (.ready (r.mapError .os)) s'.gso calls := by
  cases h with
  | plain _ hn =>
    obtain ⟨hsent, hunsent⟩ := wire_sendmmsg hn
    refine ⟨hsent, hunsent, ?_, ⟨nofun, trivial⟩, pairwise_singleton _ _, fun hgso => ⟨hgso, ?_⟩, ?_⟩
    · simp [Syscall.Valid]
    · simp [Syscall.Segmented]
    · simp [Syscall.Rejected]
  | segmented hgso h =>
    refine ⟨fun k hk => ?_, fun hk => absurd rfl (hk _), ?_, ⟨nofun, trivial⟩, pairwise_singleton _ _,
      fun hfalse => absurd (hgso.symm.trans hfalse) (by decide), ?_⟩
    · cases hk
      refine ⟨h.count_le, ?_⟩
      rw [wire, flatMap_singleton, h.datagrams]
    · simpa using h.valid _
    · simp [Syscall.Rejected]
  | failed hgso h _ he =>
    refine ⟨nofun, fun _ => rfl, ?_, ⟨fun hrejected => absurd hrejected he, trivial⟩, pairwise_singleton _ _,
      fun hfalse => absurd (hgso.symm.trans hfalse) (by decide), ?_⟩
    · simpa using h.valid _
    · simpa [Syscall.Rejected] using fun hrejected => absurd hrejected he
  | rejected hgso h e _ _ hn =>
    obtain ⟨hsent, hunsent⟩ := wire_sendmmsg hn
    refine ⟨hsent, hunsent, ?_, ⟨fun _ => ⟨r, rfl⟩, nofun, trivial⟩, ?_,
      fun hfalse => absurd (hgso.symm.trans hfalse) (by decide), fun _ => rfl⟩
    · simpa [Syscall.Valid] using h.valid (.error e)
    · simp [Settled, Syscall.Segmented]

theorem Sends.trans {gso gso' gso'' : Bool} {e : IoError} {result : Poll (Except IoError Nat)}
    {calls more : List Syscall} (h : Sends packets gso (.ready (.error e)) gso' calls)
    (h' : Sends packets gso' result gso'' more) : Sends packets gso result gso'' (calls ++ more) := by
  have hwire : wire (calls ++ more) = wire more := by
    rw [wire_append, h.unsent nofun, nil_append]
  refine ⟨?_, ?_, ?_, h.retried.append h'.retried, ?_, ?_, ?_⟩
  · rw [hwire]
    exact h'.sent
  · rw [hwire]
    exact h'.unsent
  · intro c hc
    rcases mem_append.1 hc with hc | hc
    · exact h.valid c hc
    · exact h'.valid c hc
  · refine pairwise_append.2 ⟨h.settled, h'.settled, fun c hc c' hc' hrejected => ?_⟩
    exact (h'.plain (h.dropped ⟨c, hc, hrejected⟩)).2 c' hc'
  · intro hgso
    obtain ⟨hgso', hcalls⟩ := h.plain hgso
    obtain ⟨hgso'', hmore⟩ := h'.plain hgso'
    refine ⟨hgso'', fun c hc => ?_⟩
    rcases mem_append.1 hc with hc | hc
    · exact hcalls c hc
    · exact hmore c hc
  · rintro ⟨c, hc, hrejected⟩
    rcases mem_append.1 hc with hc | hc
    · exact (h'.plain (h.dropped ⟨c, hc, hrejected⟩)).1
    · exact h'.dropped ⟨c, hc, hrejected⟩

theorem Sends.nothing {gso : Bool} {result : Poll (Except IoError Nat)}
    (h : ∀ k, result ≠ .ready (.ok k)) : Sends packets gso result gso [] :=
  ⟨fun k hk => absurd hk (h k), fun _ => rfl, nofun, trivial, List.Pairwise.nil, fun hgso => ⟨hgso, nofun⟩, nofun⟩

theorem Native.sendLoop_sends (n : Native) (hne : packets ≠ []) (hle : packets.length ≤ 32)
    (passes : List SendPass) : ∃ result n' calls, n.sendLoop packets passes = some (result, n', calls) ∧
      n'.target = n.target ∧ n'.batch = n.batch ∧ Sends packets n.sender.gso result n'.sender.gso calls := by
  induction passes generalizing n with
  | nil => exact ⟨_, _, _, rfl, rfl, rfl, .nothing nofun⟩
  | cons pass _ ih =>
    cases pass with
    | failed => exact ⟨_, _, _, rfl, rfl, rfl, .nothing nofun⟩
    | unready => exact ih n
    | called answers =>
      obtain ⟨r, sender, calls, hsend, hmoves⟩ := n.sender.send_moves hne hle answers
      have hsends := hmoves.sends
      rw [Native.sendLoop, hsend]
      cases r with
      | ok => exact ⟨_, _, _, rfl, rfl, rfl, hsends⟩
      | error e =>
        by_cases hblock : e = .wouldBlock
        · -- nothing was sent, and the next pass goes on
          subst hblock
          obtain ⟨result, n', more, hloop, htarget, hbatch, hmore⟩ := ih { n with sender }
          refine ⟨result, n', calls ++ more, ?_, htarget, hbatch, hsends.trans hmore⟩
          simp only [hloop, map_some]
        · refine ⟨.ready (.error (.os e)), { n with sender }, calls, ?_, rfl, rfl, hsends⟩
          cases e with
          | wouldBlock => exact absurd rfl hblock
          | _ => rfl

def validPackets (target : Target) (packets : List Packet) : List Packet :=
  packets.takeWhile fun packet => packet.target = target

theorem Native.pollSend_sends (n : Native) (hle : packets.length ≤ 32)
    (passes : List SendPass) : ∃ result n' calls, n.pollSend packets passes = some (result, n', calls) ∧
      n'.target = n.target ∧ n'.batch = n.batch ∧
      Sends (validPackets n.target packets) n.sender.gso result n'.sender.gso calls := by
  unfold Native.pollSend
  simp only
  split_ifs with hvalid
  · exact ⟨_, _, _, rfl, rfl, rfl, .nothing nofun⟩
  · exact n.sendLoop_sends hvalid (le_trans ( takeWhile_prefix _).length_le hle) passes

/-! ## What is received -/

def malformed : Option UInt32 → Bool
  | none => true
  | some size => size = 0 ∨ 65535 < size.toNat

def Message.marked (m : Message) : Bool := m.truncated || m.controls.any malformed

def Message.segment (m : Message) : Nat :=
  m.controls.foldl (fun segment control => if malformed control then segment else (control.getD 0).toNat) 0

def Message.payloads (m : Message) : List Bytes :=
  if m.marked then [] else if m.segment = 0 then [m.data] else segments m.segment m.data

theorem readControl_eq (length : Option Nat) (segment : Nat) (control : Option UInt32) :
    readControl (length, segment) control =
      (if malformed control then none else length, if malformed control then segment else (control.getD 0).toNat) := by
  cases control with
  | none => rfl
  | some =>
    simp only [readControl, malformed, decide_eq_true_eq, getD_some]
    split_ifs <;> rfl

theorem Message.header_eq (m : Message) : m.header = (if m.marked then none else some m.data.length, m.segment) := by
  have hfold : ∀ (controls : List (Option UInt32)) (length : Option Nat) (segment : Nat),
      controls.foldl readControl (length, segment) = (if controls.any malformed then none else length,
        controls.foldl (fun segment control =>
          if malformed control then segment else (control.getD 0).toNat) segment) := by
    intro controls
    induction controls with
    | nil => intro length segment; rfl
    | cons control _ ih =>
      intro length segment
      rw [foldl_cons, readControl_eq, ih, foldl_cons, any_cons]
      cases malformed control <;> simp
  rw [Message.header, hfold, Message.marked, Message.segment]
  cases m.truncated <;> simp

variable {target : Target}

theorem loop_pushTurn {payload : Bytes} {size : Nat} (hpos : 0 < size) (n offset : Nat)
    (out : List Packet) (hoffset : offset ≤ payload.length) (hn : payload.length - offset < n) :
    loop (pushTurn target payload payload.length size) n (offset, out) =
      some (out ++ (segments size (payload.drop offset)).map (Packet.mk target)) := by
  induction n generalizing offset out with
  | zero => exact absurd hn (Nat.not_lt_zero _)
  | succ _ ih =>
    by_cases hlast : payload.length ≤ offset + size
    · have hdone : pushTurn target payload payload.length size (offset, out) =
          .done (out ++ [⟨target, payload.drop offset⟩]) := by
        simp only [pushTurn, min_eq_right hlast, slice_to_end, if_true]
      rw [loop_done hdone, segments_of_le (by rw [length_drop]; omega)]
      rfl
    · have hmin : min (offset + size) payload.length = offset + size := by omega
      have hagain : pushTurn target payload payload.length size (offset, out) =
          .again (offset + size, out ++ [⟨target, (payload.drop offset).take size⟩]) := by
        simp only [pushTurn, hmin, slice]
        rw [if_neg (by omega), drop_take, Nat.add_sub_cancel_left]
      have hcut : segments size (payload.drop offset) =
          (payload.drop offset).take size :: segments size (payload.drop (offset + size)) := by
        rw [segments_of_lt hpos (by rw [length_drop]; omega), drop_drop]
      rw [loop_again hagain, ih (offset + size) _ (by omega) (by omega), hcut, map_cons, append_assoc]
      rfl

theorem pushMessage_eq (target : Target) (out : List Packet) (m : Message) :
    pushMessage target out m = some (out ++ m.payloads.map (Packet.mk target)) := by
  rw [pushMessage, Message.header_eq, Message.payloads]
  cases hmarked : m.marked with
  | true => simp
  | false =>
    have hfits : m.data.length ≤ bufferSize := m.fits (Bool.or_eq_false_iff.1 hmarked).1
    simp only [Bool.false_eq_true, if_false, if_pos hfits, take_length]
    by_cases hsegment : m.segment = 0
    · rw [if_pos hsegment, if_pos hsegment, loop_pushTurn (by omega) _ 0 out (zero_le) (by omega),
        drop_zero, segments_of_le (le_max_left _ _)]
    · rw [if_neg hsegment, if_neg hsegment,
        loop_pushTurn (Nat.pos_of_ne_zero hsegment) _ 0 out (zero_le) (by omega), drop_zero]

theorem foldlM_pushMessage (target : Target) (messages : List Message) (out : List Packet) :
    messages.foldlM (pushMessage target) out =
      some (out ++ (messages.flatMap Message.payloads).map (Packet.mk target)) := by
  induction messages generalizing out with
  | nil => simp
  | cons _ _ ih =>
    rw [foldlM_cons, pushMessage_eq]
    show List.foldlM _ _ _ = _
    rw [ih, flatMap_cons, map_append, append_assoc]

theorem Native.receive_eq {n : Native} (hpos : 1 ≤ n.batch) (hle : n.batch ≤ 32) (messages : List Message)
    (out : List Packet) : n.receive (.ok messages) out =
      some (.ok ((messages.take n.batch).length, ((messages.take n.batch).flatMap Message.payloads).length),
        out ++ ((messages.take n.batch).flatMap Message.payloads).map (Packet.mk n.target)) := by
  rw [Native.receive, if_pos ⟨hpos, hle⟩]
  simp only [foldlM_pushMessage, map_some, length_append, length_map, Nat.add_sub_cancel_left]

/-! ## The batch -/

theorem nextBatch_bounds {batch count : Nat} (hpos : 1 ≤ batch) (hle : batch ≤ 32) (hcount : count ≤ batch)
    (datagrams : Nat) : 1 ≤ nextBatch batch count datagrams ∧ nextBatch batch count datagrams ≤ 32 := by
  unfold nextBatch
  simp only
  split_ifs <;> omega

/-- A poll keeps the batch in bounds and reports how many datagrams it has appended, never 0. -/
theorem Native.pollRecv_spec (n : Native) (hpos : 1 ≤ n.batch) (hle : n.batch ≤ 32) (out : List Packet)
    (passes : List RecvPass) : ∃ result n' new, n.pollRecv out passes = some (result, n', out ++ new) ∧
      n'.target = n.target ∧ n'.sender = n.sender ∧ (1 ≤ n'.batch ∧ n'.batch ≤ 32) ∧
      ∀ k, result = .ready (.ok k) → k = new.length ∧ k ≠ 0 := by
  induction passes generalizing n out with
  | nil => exact ⟨.pending, n, [], by rw [append_nil]; rfl, rfl, rfl, ⟨hpos, hle⟩, nofun⟩
  | cons pass _ ih =>
    cases pass with
    | failed e => exact ⟨.ready (.error e), n, [], by rw [append_nil]; rfl, rfl, rfl, ⟨hpos, hle⟩, nofun⟩
    | received result =>
      cases result with
      | error e =>
        have hreceive : n.receive (.error e) out = some (.error e, out) := if_pos ⟨hpos, hle⟩
        rw [Native.pollRecv, hreceive]
        by_cases hblock : e = .wouldBlock
        · subst hblock
          exact ih n hpos hle out
        · refine ⟨.ready (.error e), n, [], ?_, rfl, rfl, ⟨hpos, hle⟩, nofun⟩
          rw [append_nil]
          cases e with
          | wouldBlock => exact absurd rfl hblock
          | _ => rfl
      | ok messages =>
        obtain ⟨hpos', hle'⟩ := nextBatch_bounds hpos hle (length_take_le n.batch messages)
          ((messages.take n.batch).flatMap Message.payloads).length
        rw [Native.pollRecv, Native.receive_eq hpos hle]
        simp only
        split_ifs with hnone
        · refine ⟨_, _, _, rfl, rfl, rfl, ⟨hpos', hle'⟩, fun k hk => ?_⟩
          cases hk
          exact ⟨by rw [length_map], hnone⟩
        · -- every message was dropped, and the next pass goes on
          have hnew : (messages.take n.batch).flatMap Message.payloads = [] :=
            eq_nil_of_length_eq_zero (not_not.1 hnone)
          rw [hnew, map_nil, append_nil]
          rw [hnew] at hpos' hle'
          exact ih { n with batch := nextBatch n.batch (messages.take n.batch).length 0 } hpos' hle' out

/-! ## Runs -/

/-- The calls of `PacketIo` on a transport for `target`, with the system calls made to send. `open` starts with a batch
of 1. -/
inductive Run (target : Target) : Native → List Syscall → Prop
  | opened {batch : Nat} (hpos : 1 ≤ batch) (hle : batch ≤ 32) : Run target ⟨target, batch, .new⟩ []
  | send {n n' : Native} {calls made : List Syscall} {packets : List Packet} {passes : List SendPass}
      {result : Poll (Except IoError Nat)} (h : Run target n calls) (hle : packets.length ≤ 32)
      (hsend : n.pollSend packets passes = some (result, n', made)) : Run target n' (calls ++ made)
  | recv {n n' : Native} {calls : List Syscall} {passes : List RecvPass} {out out' : List Packet}
      {result : Poll (Except Errno Nat)} (h : Run target n calls)
      (hrecv : n.pollRecv out passes = some (result, n', out')) : Run target n' calls

structure Steady (target : Target) (n : Native) (calls : List Syscall) : Prop where
  target : n.target = target
  batch : 1 ≤ n.batch ∧ n.batch ≤ 32
  settled : Settled calls
  dropped : (∃ c ∈ calls, c.Rejected) → n.sender.gso = false

theorem Run.steady {n : Native} (h : Run target n calls) : Steady target n calls := by
  induction h with
  | opened hpos hle => exact ⟨rfl, ⟨hpos, hle⟩, List.Pairwise.nil, nofun⟩
  | @send n _ _ _ _ passes _ _ hle hsend ih =>
    obtain ⟨result', n'', _, hsend', htarget, hbatch, hsends⟩ := n.pollSend_sends hle passes
    rw [hsend] at hsend'
    cases hsend'
    refine ⟨htarget.trans ih.target, by rw [hbatch]; exact ih.batch, ?_, ?_⟩
    · refine pairwise_append.2 ⟨ih.settled, hsends.settled, fun c hc c' hc' hrejected => ?_⟩
      exact (hsends.plain (ih.dropped ⟨c, hc, hrejected⟩)).2 c' hc'
    · rintro ⟨c, hc, hrejected⟩
      rcases mem_append.1 hc with hc | hc
      · exact (hsends.plain (ih.dropped ⟨c, hc, hrejected⟩)).1
      · exact hsends.dropped ⟨c, hc, hrejected⟩
  | @recv n _ _ passes out _ _ _ hrecv ih =>
    obtain ⟨_, _, _, hrecv', htarget, hsender, hbatch, -⟩ :=
      n.pollRecv_spec ih.batch.1 ih.batch.2 out passes
    rw [hrecv] at hrecv'
    cases hrecv'
    exact ⟨htarget.trans ih.target, hbatch, ih.settled, by rw [hsender]; exact ih.dropped⟩

/-- The datagrams of a message are the message, cut where the kernel says; a message that is dropped has none. -/
theorem Message.payloads_spec (m : Message) : (m.marked = true → m.payloads = []) ∧
    (m.marked = false → (m.segment = 0 → m.payloads = [m.data]) ∧
      (m.segment ≠ 0 → Pieces m.segment m.data m.payloads)) := by
  refine ⟨fun hmarked => by rw [Message.payloads, if_pos hmarked], fun hmarked => ?_⟩
  rw [Message.payloads, if_neg (by rw [hmarked]; decide)]
  refine ⟨fun hsegment => if_pos hsegment, fun hsegment => ?_⟩
  rw [if_neg hsegment]
  exact segments_pieces (Nat.pos_of_ne_zero hsegment) m.data

/-- What batches keep, at any point of a run that has made the system calls `calls`. -/
structure Batched (target : Target) (n : Native) (calls : List Syscall) : Prop where
  send : ∀ packets passes, packets ≠ [] → packets.length ≤ 32 → (∀ packet ∈ packets, packet.target = target) →
    ∃ result n' made, n.pollSend packets passes = some (result, n', made) ∧
      Sends packets n.sender.gso result n'.sender.gso made
  settled : Settled calls
  receive : ∀ messages out, n.receive (.ok messages) out =
    some (.ok ((messages.take n.batch).length, ((messages.take n.batch).flatMap Message.payloads).length),
      out ++ ((messages.take n.batch).flatMap Message.payloads).map (Packet.mk target))
  dropped : ∀ m : Message, m.marked = true → m.payloads = []
  whole : ∀ m : Message, m.marked = false → m.segment = 0 → m.payloads = [m.data]
  pieces : ∀ m : Message, m.marked = false → m.segment ≠ 0 → Pieces m.segment m.data m.payloads
  batch : 1 ≤ n.batch ∧ n.batch ≤ 32
  recv : ∀ passes out, ∃ result n' new, n.pollRecv out passes = some (result, n', out ++ new) ∧
    ∀ k, result = .ready (.ok k) → k = new.length

/-- **Batches keep datagrams apart and in order**, over every sequence of calls and whatever the kernel does. -/
theorem Run.batched {target : Target} {n : Native} {calls : List Syscall} (h : Run target n calls) :
    Batched target n calls := by
  obtain ⟨htarget, ⟨hpos, hle⟩, hsettled, -⟩ := h.steady
  refine ⟨fun packets passes _ hlength htargets => ?_, hsettled, fun messages out => ?_,
    fun m hm => m.payloads_spec.1 hm, fun m hm => (m.payloads_spec.2 hm).1, fun m hm => (m.payloads_spec.2 hm).2,
    ⟨hpos, hle⟩, fun passes out => ?_⟩
  · obtain ⟨result, n', made, hsend, -, -, hsends⟩ := n.pollSend_sends hlength passes
    have hvalid : validPackets n.target packets = packets := by
      rw [validPackets, takeWhile_eq_self_iff]
      exact fun packet hpacket => decide_eq_true ((htargets packet hpacket).trans htarget.symm)
    rw [hvalid] at hsends
    exact ⟨result, n', made, hsend, hsends⟩
  · rw [Native.receive_eq hpos hle, htarget]
  · obtain ⟨result, n', new, hrecv, -, -, -, hresult⟩ := n.pollRecv_spec hpos hle out passes
    exact ⟨result, n', new, hrecv, fun k hk => (hresult k hk).1⟩

theorem Run.batched_rejected : ∃ n calls, Run (.domain "a" 53) n calls ∧ (∃ c ∈ calls, c.Rejected) ∧
    wire calls = [[1], [2]] ∧ Batched (.domain "a" 53) n calls := by
  have hopen : Run (.domain "a" 53) ⟨.domain "a" 53, 1, .new⟩ [] := .opened le_rfl (by decide)
  have hsend : Native.pollSend ⟨.domain "a" 53, 1, .new⟩ [⟨.domain "a" 53, [1]⟩, ⟨.domain "a" 53, [2]⟩]
      [.called ⟨.error .eio, .ok 2⟩] = some (.ready (.ok 2), ⟨.domain "a" 53, 1, ⟨false⟩⟩,
        [.sendmsg [[1], [2]] 1 (.error .eio), .sendmmsg [[1], [2]] (.ok 2)]) := rfl
  have hrun := hopen.send (by decide) hsend
  have hrejected : (Syscall.sendmsg [[1], [2]] 1 (.error .eio)).Rejected := by
    show Errno.Rejects .eio
    decide
  exact ⟨_, _, hrun, ⟨_, mem_cons_self, hrejected⟩, rfl, hrun.batched⟩

end Kotoconn.Outbounds
