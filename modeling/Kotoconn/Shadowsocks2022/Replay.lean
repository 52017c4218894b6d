import Kotoconn.Shadowsocks2022.Udp

/-!
# Replayed client packets

A packet opens during sixty-one seconds of the server's clock, the seconds of `timestamp - 30` up to the end of second
`timestamp + 30`. The association that accepted it remembers it for `retention`.

`forwarded_once_iff`: nothing is forwarded twice exactly when the idle timeout is at least sixty-one seconds.
-/

namespace Kotoconn.Shadowsocks2022
open Lib Protocol List Option Table

/-! ## Filters -/

section
variable {f : Filter}

theorem Filter.after_append (w : f.Window) (ids : List Nat) (id : Nat) :
    f.after w (ids ++ [id]) = (f.validatePacketId (f.after w ids) id packetLimit).2 := by
  induction ids generalizing w with
  | nil => rfl
  | cons _ _ ih => exact ih _

theorem Filter.accepted_append (w : f.Window) (ids : List Nat) (id : Nat) :
    f.accepted w (ids ++ [id]) = f.accepted w ids ++
      if (f.validatePacketId (f.after w ids) id packetLimit).1 then [id] else [] := by
  induction ids generalizing w with
  | nil => rfl
  | cons first _ ih =>
    simp only [cons_append, accepted, after]
    by_cases hfirst : (f.validatePacketId w first packetLimit).1 = true
    · rw [if_pos hfirst, if_pos hfirst, ih, cons_append]
      rfl
    · rw [if_neg hfirst, if_neg hfirst, ih]
      rfl

def Knows (w : f.Window) (known : List Nat) : Prop := ∃ ids, w = f.after f.new ids ∧ known = f.accepted f.new ids

theorem Knows.new : Knows (f := f) f.new [] := ⟨[], rfl, rfl⟩

theorem Knows.validate {w : f.Window} {known : List Nat} (h : Knows w known) (id : Nat) :
    Knows (f.validatePacketId w id packetLimit).2
      (known ++ if (f.validatePacketId w id packetLimit).1 then [id] else []) := by
  obtain ⟨ids, rfl, rfl⟩ := h
  exact ⟨ids ++ [id], (Filter.after_append _ _ _).symm, (Filter.accepted_append _ _ _).symm⟩

theorem Knows.refuses (hf : f.Lawful) {w : f.Window} {known : List Nat} (h : Knows w known) {id : Nat}
    (hid : id ∈ known) : (f.validatePacketId w id packetLimit).1 = false := by
  cases hacc : (f.validatePacketId w id packetLimit).1 with
  | false => rfl
  | true =>
    obtain ⟨ids, -, hknown⟩ := h.validate id
    rw [hacc, if_pos rfl] at hknown
    have hnodup := hf.once ids
    rw [← hknown, nodup_append] at hnodup
    exact absurd rfl (hnodup.2.2 id hid id mem_cons_self)

end

/-! ## Time -/

variable {p : ClientPacket}

/-- **A packet opens during sixty-one seconds.** -/
theorem decrypt_window {wall : Nat} {d : Datagram} (h : decrypt wall d = some p) :
    d = .packet p ∧ p.timestamp * second ≤ wall + 30 * second ∧ wall < (p.timestamp + 31) * second := by
  cases d with
  | invalid => cases h
  | packet q =>
    simp only [decrypt] at h
    split_ifs at h with hwindow
    obtain rfl := some.inj h
    refine ⟨rfl, ?_, ?_⟩
    · calc q.timestamp * second
        _ ≤ (wall / second + 30) * second := Nat.mul_le_mul_right second hwindow.1
        _ = wall / second * second + 30 * second := add_mul _ _ _
        _ ≤ wall + 30 * second := Nat.add_le_add_right (Nat.div_mul_le_self wall second) _
    · exact (Nat.div_lt_iff_lt_mul (by decide)).1 (by omega)

section
variable {f : Filter} {timeout : Nat} {sent : List ClientPacket} {s : Server f}

def Remembered (s : Server f) (p : ClientPacket) : Prop :=
  (∃ a known, s.associations.lookup p.clientSessionId = some a ∧ Knows a.window known ∧ p.packetId ∈ known ∧
    p.timestamp * second ≤ a.active + 30 * second) ∨ (p.timestamp + 31) * second ≤ s.clock

structure Inv (sent : List ClientPacket) (s : Server f) : Prop where
  known : ∀ id a, s.associations.lookup id = some a → a.active ≤ s.clock ∧ ∃ known, Knows a.window known
  genuine : ∀ p ∈ s.forwarded, p ∈ sent
  remembered : ∀ p ∈ s.forwarded, Remembered s p
  once : (s.forwarded.map ClientPacket.identity).Nodup

theorem Inv.empty (clock : Nat) : Inv sent (Server.empty clock : Server f) where
  known _ _ h := by cases h
  genuine _ h := by cases h
  remembered _ h := by cases h
  once := nodup_nil

theorem Remembered.later {s' : Server f} (h : Remembered s p)
    (hassociations : s'.associations = s.associations) (hclock : s.clock ≤ s'.clock) : Remembered s' p := by
  rcases h with h | h
  · left
    rwa [hassociations]
  · exact .inr (le_trans h hclock)

variable (h : Inv sent s)
include h

theorem Inv.later {now : Nat} (hnow : s.clock ≤ now) : Inv sent { s with clock := now } where
  known id a ha := ⟨le_trans (h.known id a ha).1 hnow, (h.known id a ha).2⟩
  genuine := h.genuine
  remembered p hp := (h.remembered p hp).later rfl hnow
  once := h.once

structure Replaces (s : Server f) (id : Nat) (a' : Association f) (now : Nat) : Prop where
  active : a'.active ≤ now
  knows : ∃ known, Knows a'.window known
  grows : ∀ a known, s.associations.lookup id = some a → Knows a.window known →
    a.active ≤ a'.active ∧ ∃ known', Knows a'.window known' ∧ known ⊆ known'

theorem Inv.replace {id now : Nat} {a' : Association f} (ha' : Replaces s id a' now)
    (hnow : s.clock ≤ now) {outputs : List Output}
    (houtputs : ({ s with outputs := outputs } : Server f).forwarded = s.forwarded) :
    Inv sent { s with associations := s.associations.insert id a', outputs := outputs, clock := now } where
  known k a ha := by
    rcases lookup_insert_iff.1 ha with ⟨rfl, rfl⟩ | ⟨-, ha⟩
    · exact ⟨ha'.active, ha'.knows⟩
    · exact ⟨le_trans (h.known k a ha).1 hnow, (h.known k a ha).2⟩
  genuine p hp := h.genuine p (houtputs ▸ hp)
  remembered p hp := by
    rcases h.remembered p (houtputs ▸ hp) with ⟨a, known, ha, hknows, hid, htime⟩ | hold
    · left
      by_cases hk : p.clientSessionId = id
      · rw [hk] at ha
        obtain ⟨_, known', hknows', hsub⟩ := ha'.grows a known ha hknows
        refine ⟨a', known', ?_, hknows', hsub hid, by omega⟩
        rw [hk]
        exact AList.lookup_insert _
      · exact ⟨a, known, lookup_insert_iff.2 (.inr ⟨hk, ha⟩), hknows, hid, htime⟩
    · exact .inr (le_trans hold hnow)
  once := by
    have hforwarded : Server.forwarded
        { s with associations := s.associations.insert id a', outputs := outputs, clock := now } = s.forwarded :=
      houtputs
    rw [hforwarded]
    exact h.once

theorem Inv.forward (hp : p ∈ sent) (hremembered : Remembered s p)
    (hnew : ∀ q ∈ s.forwarded, q.identity ≠ p.identity) : Inv sent { s with outputs := s.outputs ++ [.forward p] } := by
  have hforwarded : ({ s with outputs := s.outputs ++ [.forward p] } : Server f).forwarded = s.forwarded ++ [p] := by
    simp [Server.forwarded, filterMap_append]
  refine ⟨h.known, fun q hq => ?_, fun q hq => ?_, ?_⟩
  · rcases mem_append.1 (hforwarded ▸ hq) with hq | hq
    · exact h.genuine q hq
    · rwa [mem_singleton.1 hq]
  · rcases mem_append.1 (hforwarded ▸ hq) with hq | hq
    · exact h.remembered q hq
    · rwa [mem_singleton.1 hq]
  · rw [hforwarded, map_append, nodup_append]
    refine ⟨h.once, nodup_singleton _, ?_⟩
    rintro x hx y hy rfl
    obtain ⟨q, hq, rfl⟩ := List.mem_map.1 hx
    exact hnew q hq (mem_singleton.1 hy)

theorem Inv.expire (htimeout : 61 * second ≤ timeout) {now : Nat} (hnow : s.clock ≤ now) :
    Inv sent { s.expire timeout now with clock := now } where
  known id a ha := by
    obtain ⟨ha, -⟩ := lookup_retain.1 ha
    exact ⟨le_trans (h.known id a ha).1 hnow, (h.known id a ha).2⟩
  genuine := h.genuine
  remembered p hp := by
    rcases h.remembered p hp with ⟨a, known, ha, hknows, hid, htime⟩ | hold
    · by_cases hkept : now < a.active + Server.retention timeout
      · exact .inl ⟨a, known, lookup_retain.2 ⟨ha, decide_eq_true hkept⟩, hknows, hid, htime⟩
      · -- the association went no earlier than sixty-one seconds after it accepted the packet
        right
        have hretention : timeout ≤ Server.retention timeout := le_max_left _ _
        change (p.timestamp + 31) * second ≤ now
        rw [add_mul]
        omega
    · exact .inr (le_trans hold hnow)
  once := h.once

theorem Inv.reply (id : Nat) (packet : Packet) (fits : Bool) {now : Nat} (hnow : s.clock ≤ now)
    (hspent : (s.reply id packet fits now).exhausted = false) :
    Inv sent { s.reply id packet fits now with clock := now } := by
  unfold Server.reply at hspent ⊢
  cases ha : s.associations.lookup id with
  | none => exact h.later hnow
  | some a =>
    simp only [ha] at hspent ⊢
    by_cases hlimit : packetLimit ≤ a.packet + 1
    · rw [if_pos hlimit] at hspent
      cases hspent
    · simp only [if_neg hlimit]
      have hreplaces : Replaces s id { a with packet := a.packet + 1, active := now } now := by
        refine ⟨le_rfl, (h.known id a ha).2, fun b known hb hknows => ?_⟩
        obtain rfl : a = b := some.inj (ha.symm.trans hb)
        exact ⟨le_trans (h.known id a ha).1 hnow, known, hknows, List.Subset.refl _⟩
      refine h.replace hreplaces hnow ?_
      cases fits with
      | false => rfl
      | true => simp [Server.forwarded, filterMap_append]

theorem Inv.associate {id : Nat} {peer : Peer} {server created : Nat} {a : Association f}
    (ha : s.associate id peer server created = some a) (hcreated : s.clock ≤ created) :
    a.active ≤ created ∧ (∃ known, Knows a.window known) ∧ ∀ b, s.associations.lookup id = some b → b = a := by
  unfold Server.associate at ha
  cases hb : s.associations.lookup id with
  | some b =>
    rw [hb] at ha
    obtain rfl := some.inj ha
    refine ⟨le_trans (h.known id b hb).1 hcreated, (h.known id b hb).2, fun c hc => ?_⟩
    exact (some.inj hc).symm
  | none =>
    rw [hb] at ha
    simp only at ha
    split_ifs at ha
    obtain rfl := some.inj ha
    exact ⟨le_rfl, ⟨[], Knows.new⟩, fun b hb => by cases hb⟩

omit h

theorem Inv.packet (hf : f.Lawful) (hsent : SentOnce sent) (h : Inv sent s) (hp : p ∈ sent)
    {wall created now : Nat} (hclock : s.clock ≤ wall) (hcreated : wall ≤ created) (hnow : created ≤ now)
    (hearly : p.timestamp * second ≤ wall + 30 * second) (hlate : wall < (p.timestamp + 31) * second)
    (peer : Peer) (server : Nat) : Inv sent { s.packet p peer server created now with clock := now } := by
  unfold Server.packet
  cases ha : s.associate p.clientSessionId peer server created with
  | none => exact h.later (by omega)
  | some a =>
    obtain ⟨hactive, ⟨known, hknows⟩, hsame⟩ := h.associate ha (by omega)
    have hvalidated := hknows.validate p.packetId
    by_cases hacc : (f.validatePacketId a.window p.packetId packetLimit).1 = true
    · simp only [if_pos hacc]
      rw [if_pos hacc] at hvalidated
      have hreplaces : Replaces s p.clientSessionId
          { a with window := (f.validatePacketId a.window p.packetId packetLimit).2, peer := peer, active := now }
          now := by
        refine ⟨le_rfl, ⟨_, hvalidated⟩, fun b known' hb hknows' => ?_⟩
        obtain rfl := hsame b hb
        exact ⟨le_trans hactive hnow, _, hknows'.validate p.packetId, subset_append_left _ _⟩
      have hkept := h.replace hreplaces (by omega)
        (show ({ s with outputs := s.outputs } : Server f).forwarded = s.forwarded from rfl)
      refine hkept.forward hp ?_ ?_
      · refine .inl ⟨_, _, AList.lookup_insert _, hvalidated, mem_append_right _ mem_cons_self, ?_⟩
        simp only
        omega
      · intro q hq hidentity
        obtain rfl : p = q := hsent p hp q (h.genuine q hq) hidentity.symm
        -- a forwarded packet that still opens is known to its association
        rcases h.remembered p hq with ⟨b, known', hb, hknows', hid, -⟩ | hold
        · obtain rfl := hsame b hb
          rw [hknows'.refuses hf hid] at hacc
          cases hacc
        · omega
    · simp only [if_neg hacc]
      have hreplaces : Replaces s p.clientSessionId
          { a with window := (f.validatePacketId a.window p.packetId packetLimit).2 } now := by
        refine ⟨le_trans hactive hnow, ⟨_, hvalidated⟩, fun b known' hb hknows' => ?_⟩
        obtain rfl := hsame b hb
        exact ⟨le_rfl, _, hknows'.validate p.packetId, subset_append_left _ _⟩
      exact h.replace hreplaces (by omega) rfl

theorem exhausted_turn {event : Event} (h : (s.turn timeout event).exhausted = false) : s.exhausted = false := by
  cases event with
  | expired => exact h
  | received peer datagram wall created _ server =>
    simp only [Server.turn] at h
    cases hd : decrypt wall datagram with
    | none =>
      rw [hd] at h
      exact h
    | some p =>
      simp only [hd, Server.packet] at h
      cases ha : s.associate p.clientSessionId peer server created with
      | none =>
        rw [ha] at h
        exact h
      | some =>
        simp only [ha] at h
        split_ifs at h <;> exact h
  | replied id =>
    simp only [Server.turn, Server.reply] at h
    cases ha : s.associations.lookup id with
    | none =>
      rw [ha] at h
      exact h
    | some =>
      simp only [ha] at h
      split_ifs at h <;> exact h

/-- **Every turn keeps the invariant** when the idle timeout covers the window. -/
theorem Inv.turn (hf : f.Lawful) (hsent : SentOnce sent) (htimeout : 61 * second ≤ timeout) (h : Inv sent s)
    {event : Event} (he : s.Enabled timeout sent event) (hspent : (s.turn timeout event).exhausted = false) :
    Inv sent (s.turn timeout event) := by
  cases event with
  | expired => exact h.expire htimeout he.1
  | received peer datagram wall _ _ server =>
    obtain ⟨hclock, hcreated, hnow, hp⟩ := he
    simp only [Server.turn]
    cases hd : decrypt wall datagram with
    | none => exact h.later (by omega)
    | some p =>
      obtain ⟨hdatagram, hearly, hlate⟩ := decrypt_window hd
      exact h.packet hf hsent (hp p hdatagram) hclock hcreated hnow hearly hlate peer server
  | replied id packet fits => exact h.reply id packet fits he hspent

theorem Inv.reachable (hf : f.Lawful) (hsent : SentOnce sent) (htimeout : 61 * second ≤ timeout)
    (h : Reachable f timeout sent s) : s.exhausted = false → Inv sent s := by
  induction h with
  | empty clock => exact fun _ => .empty clock
  | turn _ _ he ih => exact fun hspent => (ih (exhausted_turn hspent)).turn hf hsent htimeout he hspent

end

/-! ## A shorter timeout -/

def early : ClientPacket := ⟨7, 0, 30, ⟨.domain "a" 53, [1]⟩⟩

def nobody : Peer := (.v4 0, 0)

def replayed (f : Filter) (timeout : Nat) : Server f :=
  (((Server.empty 0).turn timeout (.received nobody (.packet early) 0 0 0 1)).turn timeout
    (.expired (Server.retention timeout))).turn timeout
      (.received nobody (.packet early) (Server.retention timeout) (Server.retention timeout)
        (Server.retention timeout) 2)

theorem packet_first {f : Filter} (hf : f.Lawful) (s : Server f) (hs : s.associations = ∅) (p : ClientPacket)
    (hp : p.packetId < packetLimit) (peer : Peer) (server created now : Nat) :
    s.packet p peer server created now = { s with
      associations := (∅ : Table Nat (Association f)).insert p.clientSessionId
        ⟨peer, server, 0, (f.validatePacketId f.new p.packetId packetLimit).2, now⟩
      outputs := s.outputs ++ [.forward p] } := by
  have hnew : s.associate p.clientSessionId peer server created = some ⟨peer, server, 0, f.new, created⟩ := by
    simp [Server.associate, hs]
  simp only [Server.packet, hnew, hf.fresh _ hp, if_true, hs]

theorem expire_last {f : Filter} (s : Server f) {id : Nat} {a : Association f} {timeout now : Nat}
    (hs : s.associations = (∅ : Table Nat (Association f)).insert id a)
    (hdue : a.active + Server.retention timeout ≤ now) : s.expire timeout now = { s with associations := ∅ } := by
  have hentries : ((∅ : Table Nat (Association f)).insert id a).entries = [⟨id, a⟩] := rfl
  have hempty : s.associations.retain (fun a => now < a.active + Server.retention timeout) = ∅ := by
    refine AList.ext ?_
    change s.associations.entries.filter _ = []
    rw [hs, hentries, filter_eq_nil_iff]
    intro e he
    obtain rfl := mem_singleton.1 he
    simpa using hdue
  rw [Server.expire, hempty]

theorem replayed_spec {f : Filter} (hf : f.Lawful) {timeout : Nat} (h : timeout < 61 * second) :
    Reachable f timeout [early] (replayed f timeout) ∧ (replayed f timeout).exhausted = false ∧
      (replayed f timeout).forwarded = [early, early] := by
  have hretention : 60 * second ≤ Server.retention timeout := le_max_right _ _
  have hshort : Server.retention timeout < 61 * second := by
    rw [Server.retention, Nat.max_lt]
    exact ⟨h, by decide⟩
  have hfirst : decrypt 0 (.packet early) = some early := by decide
  -- the sixtieth second has begun and not ended
  have hsecond : decrypt (Server.retention timeout) (.packet early) = some early := by
    have hdiv : Server.retention timeout / second = 60 := Nat.div_eq_of_lt_le (by omega) (by omega)
    simp only [decrypt, hdiv, early]
    rfl
  have hid : early.packetId < packetLimit := by decide
  have hsent : ∀ p, Datagram.packet early = .packet p → p ∈ [early] := by
    intro p hp
    cases hp
    exact mem_cons_self
  set s1 : Server f := (Server.empty 0).turn timeout (.received nobody (.packet early) 0 0 0 1) with hs1
  have hs1' : s1 = ⟨(∅ : Table Nat (Association f)).insert early.clientSessionId
      ⟨nobody, 1, 0, (f.validatePacketId f.new early.packetId packetLimit).2, 0⟩, [.forward early], 0, false⟩ := by
    simp only [hs1, Server.turn, hfirst, packet_first hf (Server.empty 0) rfl early hid]
    rfl
  set s2 : Server f := s1.turn timeout (.expired (Server.retention timeout)) with hs2
  have hs2' : s2 = ⟨∅, [.forward early], Server.retention timeout, false⟩ := by
    rw [hs2, Server.turn, expire_last s1 (congrArg Server.associations hs1') (le_of_eq (zero_add _)), hs1']
  have hs3 : replayed f timeout = ⟨(∅ : Table Nat (Association f)).insert early.clientSessionId
      ⟨nobody, 2, 0, (f.validatePacketId f.new early.packetId packetLimit).2, Server.retention timeout⟩,
      [.forward early, .forward early], Server.retention timeout, false⟩ := by
    have hreplayed : replayed f timeout = s2.turn timeout (.received nobody (.packet early) (Server.retention timeout)
      (Server.retention timeout) (Server.retention timeout) 2) := rfl
    rw [hreplayed, hs2']
    simp only [Server.turn, hsecond, packet_first hf ⟨∅, _, _, _⟩ rfl early hid]
    rfl
  refine ⟨?_, by rw [hs3], by rw [hs3]; rfl⟩
  refine .turn _ (.turn _ (.turn _ (.empty 0) ?_) ?_) ?_
  · exact ⟨le_rfl, le_rfl, le_rfl, hsent⟩
  · change s1.Enabled timeout [early] (.expired (Server.retention timeout))
    rw [hs1']
    exact ⟨zero_le, _, mem_cons_self, le_of_eq (zero_add _)⟩
  · refine ⟨?_, le_rfl, le_rfl, hsent⟩
    change s2.clock ≤ _
    rw [hs2']

/-! ## The timeout that is needed -/

/-- **Replays are kept out exactly by an idle timeout of sixty-one seconds.** With it no client packet reaches the
handler twice, whatever the network repeats and whenever associations expire, as long as no association uses up its
packet numbers. With a shorter one the server can forget a packet in the last second in which it still opens. -/
theorem forwarded_once_iff (f : Filter) (hf : f.Lawful) (timeout : Nat) :
    (∀ sent, SentOnce sent → ∀ s, Reachable f timeout sent s → s.exhausted = false →
      (s.forwarded.map ClientPacket.identity).Nodup) ↔ 61 * second ≤ timeout := by
  constructor
  · intro h
    by_contra hshort
    obtain ⟨hreach, hspent, hforwarded⟩ := replayed_spec hf (not_le.1 hshort)
    have hsent : SentOnce [early] := by
      intro p hp q hq _
      rw [mem_singleton.1 hp, mem_singleton.1 hq]
    have hnodup := h [early] hsent _ hreach hspent
    rw [hforwarded] at hnodup
    exact absurd hnodup (by decide)
  · intro htimeout sent hsent s hreach hspent
    exact (Inv.reachable hf hsent htimeout hreach hspent).once

/-! ## A filter -/

def exactFilter : Filter where
  Window := List Nat
  new := []
  validatePacketId seen id limit := if id < limit ∧ id ∉ seen then (true, id :: seen) else (false, seen)

theorem exactFilter_accepted (seen ids : List Nat) :
    (exactFilter.accepted seen ids).Nodup ∧ ∀ id ∈ exactFilter.accepted seen ids, id ∉ seen := by
  induction ids generalizing seen with
  | nil => exact ⟨nodup_nil, fun _ h => by cases h⟩
  | cons first _ ih =>
    by_cases hfirst : first < packetLimit ∧ first ∉ seen
    · have hvalidate : exactFilter.validatePacketId seen first packetLimit = (true, first :: seen) := if_pos hfirst
      obtain ⟨hnodup, hfresh⟩ := ih (first :: seen)
      simp only [Filter.accepted, hvalidate, if_true]
      refine ⟨nodup_cons.2 ⟨fun hin => hfresh first hin mem_cons_self, hnodup⟩, fun id hid => ?_⟩
      rcases mem_cons.1 hid with rfl | hid
      · exact hfirst.2
      · exact fun hin => hfresh id hid (mem_cons_of_mem _ hin)
    · have hvalidate : exactFilter.validatePacketId seen first packetLimit = (false, seen) := if_neg hfirst
      simp only [Filter.accepted, hvalidate]
      exact ih seen

theorem exactFilter_lawful : exactFilter.Lawful where
  once ids := (exactFilter_accepted [] ids).1
  fresh id hid := by
    change (if id < packetLimit ∧ id ∉ ([] : List Nat) then (true, [id]) else (false, [])).1 = true
    rw [if_pos ⟨hid, not_mem_nil⟩]

/-- A packet that is replayed at once is forwarded once. -/
theorem forwarded_once_ninety : exactFilter.Lawful ∧ ∃ s, Reachable exactFilter (90 * second) [early] s ∧
    s.forwarded = [early] ∧ (s.forwarded.map ClientPacket.identity).Nodup := by
  have hsent : ∀ p, Datagram.packet early = .packet p → p ∈ [early] := fun p hp => by
    cases hp
    exact mem_cons_self
  have hstart : Reachable exactFilter (90 * second) [early] (.empty 0) := .empty 0
  have hrun := (hstart.turn (.received nobody (.packet early) 0 0 0 1) ⟨le_rfl, le_rfl, le_rfl, hsent⟩).turn
    (.received nobody (.packet early) 0 0 0 2) ⟨le_rfl, le_rfl, le_rfl, hsent⟩
  refine ⟨exactFilter_lawful, _, hrun, rfl, ?_⟩
  refine (forwarded_once_iff exactFilter exactFilter_lawful (90 * second)).2 (by decide) [early] (fun p hp q hq _ => ?_) _
    hrun rfl
  rw [mem_singleton.1 hp, mem_singleton.1 hq]

theorem forwarded_twice : ∃ sent, SentOnce sent ∧ ∃ s, Reachable exactFilter (60 * second) sent s ∧
    s.exhausted = false ∧ s.forwarded = [early, early] := by
  obtain ⟨hreach, hspent, hforwarded⟩ := replayed_spec exactFilter_lawful (show 60 * second < 61 * second by decide)
  refine ⟨[early], fun p hp q hq _ => ?_, _, hreach, hspent, hforwarded⟩
  rw [mem_singleton.1 hp, mem_singleton.1 hq]

end Kotoconn.Shadowsocks2022
