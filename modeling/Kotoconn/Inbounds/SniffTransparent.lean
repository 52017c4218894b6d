import Kotoconn.Inbounds.Sniff
import Kotoconn.Protocol.QueueOrder
import Kotoconn.Protocol.RelayExact

/-! # Sniffing is transparent -/

namespace Kotoconn.Inbounds.Sniff
open Lib Protocol List

variable {σ κ ρ ω : Type}

/-! ## TCP -/

namespace Tcp
variable {env : Inspector σ κ ρ} {stream : Stream ω} {t : Tcp σ} {x : Logged ω Unit}

structure Holds (t : Tcp σ) (x : Logged ω Unit) : Prop where
  bytes : t.bytes = obtained () x.trace
  length : t.bytes.length ≤ maxBytes
  fed : t.fed ≤ t.bytes.length

def left (s : Tcp σ × Logged ω Unit) : Nat := 2 * (maxBytes - s.1.bytes.length) + if s.1.reading then 0 else 1

end Tcp

def got : Poll (Except ErrorKind Bytes) → Bytes
  | .ready (.ok data) => data
  | .ready (.error _) | .pending => []

inductive Consumes (s : Stream ω) (x : ω × Prefix) : Bytes → ω × Prefix → Prop
  | nil : Consumes s x [] x
  | read {yielded : Bytes} {x₁ x₂ : ω × Prefix} {n : Nat} {r : Poll (Except ErrorKind Bytes)} (h : Consumes s x yielded x₁)
      (hr : s.prefixed.pollRead x₁ n = (r, x₂)) : Consumes s x (yielded ++ got r) x₂
  | chunk {yielded : Bytes} {x₁ x₂ : ω × Prefix} {r : Poll (Except ErrorKind Bytes)} (h : Consumes s x yielded x₁)
      (hr : s.prefixed.pollReadChunk x₁ = (r, x₂)) : Consumes s x (yielded ++ got r) x₂
  | write {yielded : Bytes} {x₁ : ω × Prefix} (chunk : Bytes) (h : Consumes s x yielded x₁) :
      Consumes s x yielded (s.prefixed.pollWriteChunk x₁ chunk).2.2
  | flush {yielded : Bytes} {x₁ : ω × Prefix} (h : Consumes s x yielded x₁) :
      Consumes s x yielded (s.prefixed.pollFlush x₁).2
  | shutdown {yielded : Bytes} {x₁ : ω × Prefix} (h : Consumes s x yielded x₁) :
      Consumes s x yielded (s.prefixed.pollShutdown x₁).2
  | consume {yielded : Bytes} {x₁ : ω × Prefix} (n : Nat) (h : Consumes s x yielded x₁) :
      Consumes s x yielded (s.prefixed.consumeChunk x₁ n)

section Consumes
variable {stream : Stream ω} {x y : Logged ω Unit × Prefix} {yielded : Bytes}

theorem obtained_readEvents (r : Poll (Except ErrorKind Bytes)) : obtained () (Stream.readEvents () r) = got r := by
  match r with
  | .ready (.ok data) => simp [Stream.readEvents, readOf, got]
  | .ready (.error e) | .pending => rfl

/-- **What was yielded, and what is still to be replayed, are the bytes of the stream.** -/
theorem Consumes.exact (h : Consumes (stream.logged ()) x yielded y) (hx : x.2.bytes = obtained () x.1.trace) :
    yielded ++ y.2.bytes = obtained () y.1.trace := by
  induction h with
  | nil => exact hx
  | @read _ _ _ _ _ _ hr ih =>
    simp only [Stream.prefixed] at hr
    split_ifs at hr with hbytes
    · obtain ⟨rfl, rfl⟩ := Prod.mk.inj hr
      rw [got, append_assoc, take_append_drop]
      exact ih
    · obtain ⟨rfl, rfl⟩ := Prod.mk.inj hr
      rw [not_not.1 hbytes, append_nil] at ih
      simp [Stream.logged, Logged.note, obtained_readEvents, ← ih, not_not.1 hbytes]
  | @chunk _ _ _ _ _ hr ih =>
    rcases Stream.prefixed_read hr with ⟨_, rfl, rfl⟩ | ⟨hempty, hp, htrace⟩
    · rw [got, append_nil]
      exact ih
    · rw [hempty, append_nil] at ih
      rw [hp, htrace, obtained_append, obtained_readEvents, ← ih, append_nil]
  | @write _ x₁ chunk _ ih =>
    have hquiet : obtained () (Stream.writeEvents () chunk (stream.pollWriteChunk x₁.1.world chunk).1) = [] := by
      unfold Stream.writeEvents
      split <;> rfl
    refine ih.trans ?_
    simp [Stream.prefixed, Stream.lift, Stream.logged, Logged.note, hquiet]
  | flush _ ih =>
    refine ih.trans ?_
    simp [Stream.prefixed, Stream.lift, Stream.logged, Logged.note]
  | @shutdown _ x₁ _ ih =>
    have hquiet : obtained () (Stream.shutdownEvents () (stream.pollShutdown x₁.1.world).1) = [] := by
      unfold Stream.shutdownEvents
      split <;> rfl
    refine ih.trans ?_
    simp [Stream.prefixed, Stream.lift, Stream.logged, Logged.note, hquiet]
  | consume _ _ ih =>
    simp only [Stream.prefixed]
    split_ifs
    · exact ih
    · refine ih.trans ?_
      simp [Stream.lift, Stream.logged, Logged.note, readOf]

end Consumes

/-! ## UDP -/

namespace Udp
variable {env : Inspector σ κ ρ} {size : Nat} {q q' q₀ : Queue.State Packet} {p p' : Phase κ ρ} {yielded out : List Packet}

def Phase.held : Phase κ ρ → List Packet
  | sniffing u => u.packets
  | ended _ => []

structure Accounts (initial size : Nat) (q₀ q : Queue.State Packet) (p : Phase κ ρ) (yielded : List Packet) : Prop where
  reachable : Queue.State.Reachable size initial q
  looks : q.receiver.Looks
  alive : q.shared.closed = false
  exact : ∃ arrived, q.shared.published = q₀.shared.published ++ arrived ∧
    yielded ++ p.held ++ q.pending = q₀.pending ++ arrived
  bound : p.held.length ≤ maxPackets
  /-- During inspection nobody else receives, and `recv` was called below the limits. -/
  sniffing : ∀ u, p = .sniffing u → yielded = [] ∧ Queue.Receiver.Single q.receiver.rx ∧ (q.receiver.rx ≠ .idle → u.More)

variable {initial : Nat}

theorem take_packets (u : Udp κ) (packet : Packet) : (u.take env packet).2.packets = u.packets ++ [packet] := rfl

theorem Accounts.polled (h : Accounts initial size q₀ q p yielded) :
    Queue.State.Reachable size initial (polled q) ∧ (polled q).receiver.Looks ∧ (polled q).shared.closed = false ∧
      (polled q).shared.published = q.shared.published ∧
      Queue.delivered (q.receiver.next q.shared).2.2 ++ (polled q).pending = q.pending := by
  have hinv := h.reachable.inv
  have htakes := Queue.Receiver.next_takes (s := q.shared) h.looks (hinv.closed.trans h.alive)
  have hrec := Queue.Receiver.next_spec q.receiver q.shared hinv.rx_credit_le fun hc => hinv.closed.symm.trans hc
  exact ⟨h.reachable.step .next, htakes.looks, hrec.frame.closed.trans h.alive, htakes.published, htakes.line⟩

theorem accounts_finish {u : Udp κ} {result : Option ρ} (hreach : Queue.State.Reachable size initial q)
    (halive : q.shared.closed = false) (hidle : q.receiver.rx = .idle)
    (hexact : ∃ arrived, q.shared.published = q₀.shared.published ++ arrived ∧
      u.packets ++ q.pending = q₀.pending ++ arrived) :
    Accounts initial size q₀ (finish q u) (.ended result : Phase κ ρ) [] := by
  obtain ⟨arrived, hpub, hitems⟩ := hexact
  refine ⟨hreach.step (.prepend u.packets hidle), fun wanted h => ?_, halive, ⟨arrived, hpub, ?_⟩,
    zero_le, nofun⟩
  · simp [finish, Queue.Receiver.prepend, hidle] at h
  · rw [finish, Queue.pending_prepend hidle]
    exact hitems

theorem Accounts.take {u : Udp κ} {packet : Packet} (h : Accounts initial size q₀ q (.sniffing u : Phase κ ρ) yielded)
    (env : Inspector σ κ ρ) (hsome : (q.receiver.next q.shared).2.2 = some (some packet)) :
    (Udp.polled q).receiver.rx = .idle ∧ u.More ∧ ∃ arrived,
      (Udp.polled q).shared.published = q₀.shared.published ++ arrived ∧
        (u.take env packet).2.packets ++ (Udp.polled q).pending = q₀.pending ++ arrived := by
  obtain ⟨hyielded, hsingle, hmore⟩ := h.sniffing u rfl
  obtain ⟨-, -, -, hpub, hline⟩ := h.polled
  obtain ⟨arrived, harrived, hexact⟩ := h.exact
  obtain ⟨hbusy, hidle⟩ := (Queue.Receiver.next_single hsingle q.shared).2 (by rw [hsome]; exact nofun)
  refine ⟨hidle, hmore hbusy, arrived, hpub.trans harrived, ?_⟩
  rw [hsome] at hline
  rw [hyielded, ← hline] at hexact
  rw [take_packets, append_assoc]
  exact hexact

theorem Accounts.step (h : Accounts initial size q₀ q p yielded) (hstep : Step env size q p out q' p') :
    Accounts initial size q₀ q' p' (yielded ++ out) := by
  have hinv := h.reachable.inv
  have hopen : q.receiver.rx.isClosed = false := hinv.closed.trans h.alive
  obtain ⟨arrived, hpub, hexact⟩ := h.exact
  cases hstep with
  | others hq hreceiver =>
    have hdrop : q'.receiver.rx ≠ .closing := by
      rw [hreceiver]
      exact fun hc => by simp [hc, Queue.Rx.isClosed] at hopen
    have hprepend : ∀ items, items ≠ [] → q' ≠ { q with receiver := q.receiver.prepend items } := by
      intro items hitems heq
      have hfront := congrArg (fun q => q.receiver.front) heq
      simp only [hreceiver, Queue.Receiver.prepend] at hfront
      exact hitems (self_eq_append_left.1 hfront)
    obtain ⟨⟨new, hnew, hpending⟩, hlooks⟩ := hinv.step_pending h.looks h.alive hq hprepend hdrop
    refine ⟨h.reachable.step hq, hlooks, hinv.step_open h.alive hq hdrop, ⟨arrived ++ new, ?_, ?_⟩, h.bound, ?_⟩
    · rw [hnew, hpub, append_assoc]
    · rw [append_nil, ← append_assoc, ← hexact, append_assoc _ _ new, ← hpending]
      rfl
    · intro u hu
      rw [hreceiver, append_nil]
      exact h.sniffing u hu
  | @recv u hmore hidle =>
    obtain ⟨hyielded, -, -⟩ := h.sniffing u rfl
    refine ⟨h.reachable.step (.receive 1 hidle Nat.one_pos), by simp [Queue.Receiver.Looks], h.alive,
      ⟨arrived, hpub, ?_⟩, h.bound, fun u' hu => ?_⟩
    · rw [append_nil, ← hexact]
      simp [Queue.State.pending, hidle, Queue.Rx.inHand]
    · cases hu
      exact ⟨by rw [hyielded]; rfl, .first, fun _ => hmore⟩
  | @polling u hbusy hnone =>
    obtain ⟨hyielded, hsingle, hmore⟩ := h.sniffing u rfl
    obtain ⟨h1, h2, h3, h4, h5⟩ := h.polled
    rw [hnone] at h5
    refine ⟨h1, h2, h3, ⟨arrived, h4.trans hpub, ?_⟩, h.bound, fun u' hu => ?_⟩
    · rw [append_nil, ← hexact, ← h5]
      rfl
    · cases hu
      exact ⟨by rw [hyielded]; rfl, (Queue.Receiver.next_single hsingle q.shared).1, fun _ => hmore hbusy⟩
  | @taken u _ hsome =>
    obtain ⟨hyielded, -, -⟩ := h.sniffing u rfl
    obtain ⟨h1, h2, h3, -, -⟩ := h.polled
    obtain ⟨hidle, hmore, hall⟩ := h.take env hsome
    subst hyielded
    refine ⟨h1, h2, h3, hall, ?_, fun u' hu => ⟨rfl, ?_, fun hbusy => absurd hidle hbusy⟩⟩
    · rw [Phase.held, take_packets, length_append]
      exact hmore.1
    · rw [hidle]
      exact .idle
  | @decided u _ _ hsome =>
    obtain ⟨hyielded, -, -⟩ := h.sniffing u rfl
    obtain ⟨h1, -, h3, -, -⟩ := h.polled
    obtain ⟨hidle, -, hall⟩ := h.take env hsome
    subst hyielded
    exact accounts_finish h1 h3 hidle hall
  | @ended u hend =>
    obtain ⟨hyielded, hsingle, -⟩ := h.sniffing u rfl
    obtain ⟨h1, -, h3, h4, h5⟩ := h.polled
    obtain ⟨-, hidle⟩ := (Queue.Receiver.next_single hsingle q.shared).2 (by simp [hend])
    subst hyielded
    rw [hend] at h5
    exact accounts_finish h1 h3 hidle ⟨arrived, h4.trans hpub, by rw [← hexact, ← h5]; rfl⟩
  | @limit u _ hidle =>
    obtain ⟨hyielded, -, -⟩ := h.sniffing u rfl
    subst hyielded
    exact accounts_finish h.reachable h.alive hidle ⟨arrived, hpub, hexact⟩
  | @stopped u hidle =>
    obtain ⟨hyielded, -, -⟩ := h.sniffing u rfl
    subst hyielded
    exact accounts_finish h.reachable h.alive hidle ⟨arrived, hpub, hexact⟩
  | receive hq hprepend hdrop =>
    obtain ⟨⟨new, hnew, hpending⟩, hlooks⟩ := hinv.step_pending h.looks h.alive hq hprepend hdrop
    refine ⟨h.reachable.step hq, hlooks, hinv.step_open h.alive hq hdrop, ⟨arrived ++ new, ?_, ?_⟩, h.bound,
      fun u hu => by cases hu⟩
    · rw [hnew, hpub, append_assoc]
    · simp only [Phase.held, append_nil] at hexact ⊢
      rw [← append_assoc, ← hexact, append_assoc, hpending, append_assoc]

theorem Run.accounts (h : Run env size q₀ q p yielded) (hq₀ : Queue.State.Reachable size initial q₀)
    (hidle : q₀.receiver.rx = .idle) : Accounts initial size q₀ q p yielded := by
  induction h with
  | new =>
    have hclosed := hq₀.inv.closed
    rw [hidle] at hclosed
    refine ⟨hq₀, fun wanted h => by simp [hidle] at h, hclosed.symm, ⟨[], by simp, by simp [Phase.held, Udp.new]⟩,
      zero_le, fun u hu => ⟨rfl, by rw [hidle]; exact .idle, fun hbusy => absurd hidle hbusy⟩⟩
  | step _ hstep ih => exact ih.step hstep

end Udp

def queued (packet : Packet) : Queue.State Packet :=
  ⟨⟨[(packet, 124)], initialBytes, 0, 0, 124, 1, false, initialBytes, [packet], []⟩, ⟨[], .idle⟩, [0], [(0, .pushed)]⟩

end Kotoconn.Inbounds.Sniff
