import Kotoconn.Lib.Channel

/-! # `packet_io.rs`, `io.rs`: packet transports -/

namespace Kotoconn.Protocol.PacketIo

/-- `poll_send` -/
inductive Sent where
  | pending
  | ok (count : Nat)
  | error

def Sent.count : Sent → Nat
  | pending => 0
  | ok count => count
  | error => 1

/-- `poll_recv`; `ok []` is the end. -/
inductive Received (P : Type) where
  | pending
  | ok (packets : List P)
  | error

namespace Received
variable {P Q : Type}

def packets : Received P → List P
  | ok packets => packets
  | _ => []

def map (f : P → Q) : Received P → Received Q
  | pending => pending
  | ok packets => ok (packets.map f)
  | error => error

end Received

/-- `BufferedPackets`, without its transport. The sender of the queue is gone. -/
structure BufferedPackets (P : Type) where
  pending : Option (List P)

namespace BufferedPackets
variable {P : Type}

/-- The loop over `try_recv`, at most `n` turns. -/
def drain : Nat → List P → List P × Option (List P)
  | 0, queue => ([], some queue)
  | _ + 1, [] => ([], none)
  | n + 1, packet :: queue =>
    let (out, pending) := drain n queue
    (packet :: out, pending)

def pollRecv (b : BufferedPackets P) (io : Received P) : Received P × BufferedPackets P :=
  match b.pending with
  | none => (io, b)
  | some queue =>
    match drain 32 queue with
    | ([], pending) => (io, ⟨pending⟩)
    | (out, pending) => (.ok out, ⟨pending⟩)

def held (b : BufferedPackets P) : List P := b.pending.getD []

theorem drain_append (n : Nat) (queue : List P) : (drain n queue).1 ++ (drain n queue).2.getD [] = queue := by
  induction n generalizing queue with
  | zero => rfl
  | succ _ ih =>
    cases queue with
    | nil => rfl
    | cons packet queue => exact congrArg (packet :: ·) (ih queue)

theorem drain_eq_nil {n : Nat} {queue : List P} (h : (drain (n + 1) queue).1 = []) : queue = [] := by
  cases queue with
  | nil => rfl
  | cons => cases h

/-- **Queued replies come first**; the transport is asked when none is left. -/
theorem pollRecv_spec (b : BufferedPackets P) (io : Received P) :
    ((b.pollRecv io).1 = io ∧ b.held = [] ∧ (b.pollRecv io).2.held = []) ∨
    ∃ out, (b.pollRecv io).1 = .ok out ∧ out ≠ [] ∧ b.held = out ++ (b.pollRecv io).2.held := by
  unfold pollRecv held
  cases hpending : b.pending with
  | none => exact .inl ⟨rfl, rfl, by rw [hpending]; rfl⟩
  | some queue =>
    have happend := drain_append 32 queue
    cases hdrain : drain 32 queue with
    | mk out =>
      rw [hdrain] at happend
      cases out with
      | nil =>
        have hqueue : queue = [] := drain_eq_nil (congrArg Prod.fst hdrain)
        subst hqueue
        simp only [hdrain]
        exact .inl ⟨trivial, rfl, happend⟩
      | cons =>
        simp only [hdrain]
        exact .inr ⟨_, rfl, List.cons_ne_nil _ _, happend.symm⟩

end BufferedPackets

end Kotoconn.Protocol.PacketIo
