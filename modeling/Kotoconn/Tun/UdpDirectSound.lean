import Kotoconn.Tun.UdpDirect

/-! # Accounts of a native transport on the worker -/

namespace Kotoconn.Tun.Direct
open Lib Protocol.PacketIo List

variable {size : Nat} {d d' : Direct}

structure History where
  admitted : List RoutedPacket
  offers : List Offer
  arrived : List RoutedPacket
  output : List Emitted

inductive Run (size : Nat) : History → Direct → Prop
  | new (transfer : Transfer) (queue : List RoutedPacket) (now : Nat) :
      Run size ⟨transfer.putBack ++ queue, [], transfer.io.held, []⟩ (new size transfer queue now)
  | enqueue {history : History} {d d' : Direct} {packet : RoutedPacket} {send : List RoutedPacket → Sent} {now : Nat}
      {ok : Bool} {offers : List Offer} (h : Run size history d)
      (hcall : d.enqueue size packet send now = (ok, offers, d')) :
      Run size { history with
        admitted := history.admitted ++ (if ok then [packet] else [])
        offers := history.offers ++ offers } d'
  | poll {history : History} {d d' : Direct} {answers : IoAnswers} {progress : UdpProgress} {effects : Effects}
      (h : Run size history d) (hcall : d.poll size answers = (progress, effects, d')) :
      Run size { history with
        offers := history.offers ++ effects.offers
        arrived := history.arrived ++ d.given answers
        output := history.output ++ effects.output } d'

/-- One attempt to send: the first packets, at most 32, are offered. Those that the transport accepts leave; an error costs
the first one. -/
def Offered (pending : List RoutedPacket) (send : List RoutedPacket → Sent) (offers : List Offer)
    (rest : List RoutedPacket) : Prop :=
  (pending = [] ∧ offers = [] ∧ rest = []) ∨ pending ≠ [] ∧ ∃ left, offers = [⟨pending.take 32, left⟩] ∧
    left ++ rest = pending ∧ match send (pending.take 32) with
      | .pending => left = []
      | .ok n => left = pending.take n
      | .error => left = pending.take 1

def Balanced (size : Nat) (d : Direct) : Prop := d.bytes = (d.pending.map (cost size)).sum

theorem Balanced.drop (h : d.Balanced size) (n : Nat) :
    d.bytes - ((d.pending.take n).map (cost size)).sum = ((d.pending.drop n).map (cost size)).sum := by
  rw [h]
  nth_rewrite 1 [← take_append_drop n d.pending]
  rw [map_append, sum_append, Nat.add_sub_cancel_left]

theorem flushRequests_offered (size : Nat) (d : Direct) (send : List RoutedPacket → Sent) (now : Nat) :
    Offered d.pending send (d.flushRequests size send now).1 (d.flushRequests size send now).2.pending ∧
      (d.Balanced size → (d.flushRequests size send now).2.Balanced size) := by
  unfold flushRequests
  by_cases hempty : d.pending = []
  · rw [if_pos (by rw [hempty]; rfl)]
    exact ⟨.inl ⟨hempty, rfl, hempty⟩, fun h => h⟩
  · rw [if_neg (by rwa [List.isEmpty_iff])]
    simp only
    have hleft : match send (d.pending.take 32) with
        | .pending => d.pending.take (send (d.pending.take 32)).count = []
        | .ok n => d.pending.take (send (d.pending.take 32)).count = d.pending.take n
        | .error => d.pending.take (send (d.pending.take 32)).count = d.pending.take 1 := by
      cases send (d.pending.take 32) <;> rfl
    split_ifs with hcount
    · rw [hcount, take_zero] at hleft
      exact ⟨.inr ⟨hempty, [], rfl, rfl, hleft⟩, fun h => h⟩
    · exact ⟨.inr ⟨hempty, _, rfl, take_append_drop _ _, hleft⟩, fun h => h.drop _⟩

theorem refresh_refresh (c : Protocol.Capacity) (now : Nat) : (c.refresh now).refresh now = c.refresh now := by
  unfold Protocol.Capacity.refresh
  simp only
  by_cases hpassed : Protocol.feedbackInterval ≤ now - c.epoch
  · rw [if_pos hpassed, if_neg]
    rw [Nat.sub_self]
    decide
  · rw [if_neg hpassed, if_neg hpassed]

theorem exceeds_eq_true {packet : RoutedPacket} {now : Nat} (h : d.exceeds size packet now = (true, d')) :
    d.bytes ≠ 0 ∧ (d'.capacity.target now).1 < d'.bytes + cost size packet ∧ d'.pending = d.pending ∧
      d'.bytes = d.bytes := by
  unfold exceeds at h
  by_cases hbytes : d.bytes = 0
  · rw [if_pos hbytes] at h
    cases h
  rw [if_neg hbytes] at h
  obtain ⟨hover, rfl⟩ := Prod.mk.inj h
  refine ⟨hbytes, ?_, rfl, rfl⟩
  show ((d.capacity.refresh now).refresh now).current < d.bytes + cost size packet
  rw [refresh_refresh]
  exact lt_of_lt_of_le (of_decide_eq_true hover) (min_le_left _ _)

theorem exceeds_balanced (hd : d.Balanced size) (packet : RoutedPacket) (now : Nat) :
    (d.exceeds size packet now).2.Balanced size := by
  unfold exceeds
  split_ifs
  · exact hd
  · exact hd

theorem Balanced.push (h : d.Balanced size) (packet : RoutedPacket) : (d.push size packet).Balanced size := by
  show d.bytes + cost size packet = ((d.pending ++ [packet]).map (cost size)).sum
  rw [map_append, sum_append, h]
  rfl

/-- **A packet is refused only after an attempt to send**, when others wait and the allowance is exceeded. -/
theorem enqueue_offered (hd : d.Balanced size) {packet : RoutedPacket} {send : List RoutedPacket → Sent} {now : Nat}
    {ok : Bool} {offers : List Offer} (h : d.enqueue size packet send now = (ok, offers, d')) :
    d'.Balanced size ∧ (offers = [] ∨ ∃ rest, Offered d.pending send offers rest) ∧
      (ok = false → Offered d.pending send offers d'.pending ∧ d'.pending ≠ [] ∧
        (d'.capacity.target now).1 < d'.bytes + cost size packet) := by
  have hbalanced := exceeds_balanced hd packet now
  obtain ⟨hpending, -⟩ := exceeds_spec size d packet now
  unfold enqueue at h
  rcases hexceeds : d.exceeds size packet now with ⟨exceeds, d₁⟩
  rw [hexceeds] at h hbalanced hpending
  cases exceeds with
  | false =>
    cases h
    exact ⟨hbalanced.push packet, .inl rfl, nofun⟩
  | true =>
    simp only at h hpending
    obtain ⟨hoffered, hkeeps⟩ := flushRequests_offered size d₁ send now
    rcases hflush : d₁.flushRequests size send now with ⟨offers₁, d₂⟩
    rw [hflush, hpending] at hoffered
    rw [hflush] at h hkeeps
    have hbalanced₂ := exceeds_balanced (hkeeps hbalanced) packet now
    simp only at h
    rcases hexceeds₂ : d₂.exceeds size packet now with ⟨exceeds₂, d₃⟩
    rw [hexceeds₂] at h hbalanced₂
    cases exceeds₂ with
    | false =>
      cases h
      exact ⟨hbalanced₂.push packet, .inr ⟨_, hoffered⟩, nofun⟩
    | true =>
      cases h
      obtain ⟨hbytes, hover, hsame, -⟩ := exceeds_eq_true hexceeds₂
      refine ⟨hbalanced₂, .inr ⟨_, hoffered⟩, fun _ => ⟨hsame ▸ hoffered, fun hnone => hbytes ?_, hover⟩⟩
      rw [hkeeps hbalanced, ← hsame, hnone]
      rfl

/-! ## Runs -/

structure Accounts (size : Nat) (history : History) (d : Direct) : Prop where
  balanced : d.Balanced size
  requests : taken history.offers ++ d.pending = history.admitted
  replies : ∃ sent, Emission d.id.1 sent history.output ∧ sent ++ d.held = history.arrived
  replying : d.Replying

theorem taken_append (offers more : List Offer) : taken (offers ++ more) = taken offers ++ taken more :=
  flatMap_append

theorem Run.accounts {history : History} (h : Run size history d) : Accounts size history d := by
  induction h with
  | new => exact ⟨rfl, rfl, ⟨[], .nil, rfl⟩, le_rfl⟩
  | enqueue _ hcall ih =>
    obtain ⟨hpending, hsame⟩ := enqueue_spec hcall
    refine ⟨(enqueue_offered ih.balanced hcall).1, ?_, ?_, ?_⟩
    · rw [taken_append, append_assoc, hpending, ← append_assoc, ih.requests]
    · rw [hsame.id, hsame.held]
      exact ih.replies
    · rw [Replying, hsame.received, hsame.receivedOffset]
      exact ih.replying
  | @poll _ d _ answers _ _ _ hcall ih =>
    obtain ⟨hoffers, hsame, ⟨sent, hsent, hemission⟩, -, hreplying⟩ := poll_spec ih.replying hcall
    obtain ⟨htaken, hsame'⟩ := flushRequests_spec size d answers.send answers.now
    obtain ⟨-, hbalanced⟩ := flushRequests_offered size d answers.send answers.now
    obtain ⟨sent₀, hemission₀, hsent₀⟩ := ih.replies
    refine ⟨?_, ?_, ⟨sent₀ ++ sent, ?_, ?_⟩, hreplying⟩
    · rw [Balanced, hsame.bytes, hsame.pending]
      exact hbalanced ih.balanced
    · rw [taken_append, ← hoffers, hsame.pending, append_assoc, htaken, ih.requests]
    · rw [hsame.id, hsame'.id]
      exact hemission₀.append hemission
    · rw [append_assoc, hsent, ← append_assoc, hsent₀]

end Kotoconn.Tun.Direct
