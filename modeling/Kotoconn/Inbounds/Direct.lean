import Kotoconn.Daemon.RoutePackets

/-!
# `direct.rs`: UDP of the direct inbound

`DirectUdp`: the loop of `udp` and its queue of replies; while it sends a reply it does nothing else.
-/

namespace Kotoconn.Inbounds
open Lib Protocol List Function

/-- A `SocketAddr`. -/
abbrev Peer := IpAddr × UInt16

abbrev Reply := Peer × Nat × Packet

structure DirectUdp where
  sessions : Sessions Peer Packet
  replies : List Reply
  /-- what `send_to` is at -/
  sending : Option Reply
  /-- `some` once the loop returned -/
  result : Option (Except String Unit)
  /-- ghost: what each session replied, and what was sent -/
  produced : Nat → List Packet
  sent : List Reply

namespace DirectUdp

def new : DirectUdp := ⟨.empty, [], none, none, fun _ => [], []⟩

/-- A packet of `peer`; all go to one target. -/
def received (d : DirectUdp) (target : Target) (peer : Peer) (payload : Bytes) (spawned : Except String Unit)
    (taken : Bool) : DirectUdp :=
  match d.sessions.packet 4096 "direct UDP generation exhausted" peer ⟨target, payload⟩ spawned taken with
  | (.ok (), sessions) => { d with sessions }
  | (.error e, sessions) => { d with sessions, result := some (.error e) }

def reply (d : DirectUdp) (peer : Peer) (generation : Nat) (packet : Packet) (rest : List Reply) : DirectUdp :=
  if d.sessions.table.lookup peer = some generation ∧ d.sessions.closed generation = false then
    { d with replies := rest, sending := some (peer, generation, packet) }
  else { d with replies := rest }

inductive Step (target : Target) : DirectUdp → Sessions.Event Peer Packet → DirectUdp → Prop
  | other {d : DirectUdp} {sessions : Sessions Peer Packet} (h : Sessions.Other d.sessions sessions) :
      Step target d .other { d with sessions }
  /-- A session that is not done replies; `try_send` fails on a full queue. -/
  | respond {d : DirectUdp} {peer : Peer} {generation : Nat} {packet : Packet} (taken : Bool)
      (hkey : d.sessions.key generation = some peer) (hrunning : d.sessions.finished generation = false)
      (hroom : taken = true → d.replies.length < 64) :
      Step target d .other { d with
        replies := if taken then d.replies ++ [(peer, generation, packet)] else d.replies
        produced := update d.produced generation (d.produced generation ++ [packet]) }
  | ended {d : DirectUdp} (hrunning : d.result = none) (hidle : d.sending = none) (result : Except String Unit) :
      Step target d .other { d with sessions := d.sessions.drop, result := some result }
  | completion {d : DirectUdp} {peer : Peer} {generation : Nat} {rest : List (Peer × Nat)} (hrunning : d.result = none)
      (hidle : d.sending = none) (hnext : d.sessions.completions = (peer, generation) :: rest) :
      Step target d (.completion peer generation)
        { d with sessions := { d.sessions with completions := rest }.complete peer generation }
  | received {d : DirectUdp} (hrunning : d.result = none) (hidle : d.sending = none) (peer : Peer) (payload : Bytes)
      (spawned : Except String Unit) (taken : Bool) :
      Step target d (.packet peer ⟨target, payload⟩) (d.received target peer payload spawned taken)
  | reply {d : DirectUdp} {peer : Peer} {generation : Nat} {packet : Packet} {rest : List Reply}
      (hrunning : d.result = none) (hidle : d.sending = none) (hnext : d.replies = (peer, generation, packet) :: rest) :
      Step target d .other (d.reply peer generation packet rest)
  | sent {d : DirectUdp} {reply : Reply} (hsending : d.sending = some reply) (succeeded : Bool) :
      Step target d .other { d with
        sending := none, sent := if succeeded then d.sent ++ [reply] else d.sent }

inductive Reachable (target : Target) : DirectUdp → Prop
  | new : Reachable target new
  | step {d d' : DirectUdp} {event : Sessions.Event Peer Packet} (h : Reachable target d)
      (hstep : Step target d event d') : Reachable target d'

/-! ## Invariant -/

/-- The reply is one of the session that it names, which is a session of its peer. -/
def Own (d : DirectUdp) (reply : Reply) : Prop :=
  d.sessions.key reply.2.1 = some reply.1 ∧ reply.2.2 ∈ d.produced reply.2.1

structure Inv (d : DirectUdp) : Prop where
  sessions : d.sessions.Inv 4096
  replies : ∀ reply ∈ d.replies, d.Own reply
  sending : ∀ {reply}, d.sending = some reply → d.Own reply ∧ d.sessions.table.lookup reply.1 = some reply.2.1
  running : ∀ {reply}, d.sending = some reply → d.result = none
  sent : ∀ reply ∈ d.sent, d.Own reply

variable {target : Target} {d d' : DirectUdp} {event : Sessions.Event Peer Packet} {reply : Reply}

theorem received_sessions (d : DirectUdp) (target : Target) (peer : Peer) (payload : Bytes)
    (spawned : Except String Unit) (taken : Bool) : ∃ result, d.received target peer payload spawned taken = { d with
      sessions :=
        (d.sessions.packet 4096 "direct UDP generation exhausted" peer ⟨target, payload⟩ spawned taken).2, result } := by
  unfold received
  split
  · next heq => exact ⟨d.result, by rw [heq]⟩
  · next e sessions heq => exact ⟨some (.error e), by rw [heq]⟩

theorem inv_new : new.Inv where
  sessions := Sessions.inv_empty 4096
  replies := nofun
  sending := nofun
  running := nofun
  sent := nofun

theorem Inv.idle (h : d.Inv) (hsessions : d'.sessions.Inv 4096)
    (hkey : ∀ {g peer}, d.sessions.key g = some peer → d'.sessions.key g = some peer) (hidle : d.sending = none)
    (hreplies : ∀ reply ∈ d'.replies, reply ∈ d.replies) (hsending : d'.sending = d.sending)
    (hproduced : d'.produced = d.produced) (hsent : d'.sent = d.sent) : d'.Inv := by
  have hown : ∀ {reply}, d.Own reply → d'.Own reply := fun hreply => ⟨hkey hreply.1, hproduced ▸ hreply.2⟩
  refine ⟨hsessions, fun reply hin => hown (h.replies reply (hreplies reply hin)), fun heq => ?_, fun heq => ?_,
    fun reply hin => hown (h.sent reply (hsent ▸ hin))⟩
  · rw [hsending, hidle] at heq
    cases heq
  · rw [hsending, hidle] at heq
    cases heq

theorem Step.inv (hstep : Step target d event d') (h : d.Inv) : d'.Inv := by
  cases hstep with
  | other hother =>
    obtain ⟨hkey, htable⟩ := hother.same
    have hown : ∀ {reply}, d.Own reply → Own { d with sessions := _ } reply :=
      fun hreply => ⟨(congrFun hkey _).trans hreply.1, hreply.2⟩
    refine ⟨hother.inv h.sessions, fun reply hin => hown (h.replies reply hin), fun heq => ⟨hown (h.sending heq).1, ?_⟩,
      h.running, fun reply hin => hown (h.sent reply hin)⟩
    exact htable ▸ (h.sending heq).2
  | @respond peer generation packet taken hkey =>
    have hmem : ∀ {g p}, p ∈ d.produced g →
        p ∈ update d.produced generation (d.produced generation ++ [packet]) g := by
      intro g p hp
      by_cases hg : g = generation
      · subst hg
        rw [update_self]
        exact mem_append_left _ hp
      · rwa [update_of_ne hg]
    refine ⟨h.sessions, fun reply hin => ?_, fun heq => ⟨⟨(h.sending heq).1.1, hmem (h.sending heq).1.2⟩, (h.sending heq).2⟩,
      h.running, fun reply hin => ⟨(h.sent reply hin).1, hmem (h.sent reply hin).2⟩⟩
    have hcases : reply ∈ d.replies ∨ reply = (peer, generation, packet) := by
      cases taken with
      | false => exact .inl hin
      | true => exact (mem_append.1 hin).imp_right mem_singleton.1
    rcases hcases with hin | rfl
    · exact ⟨(h.replies reply hin).1, hmem (h.replies reply hin).2⟩
    · refine ⟨hkey, ?_⟩
      simp only [update_self]
      exact mem_append_right _ (mem_singleton_self _)
  | ended _ hidle => exact h.idle h.sessions.drop id hidle (fun _ hin => hin) rfl rfl rfl
  | completion _ hidle hnext =>
    refine h.idle ((h.sessions.received_completion hnext).complete _ _) (fun hk => ?_) hidle (fun _ hin => hin) rfl rfl rfl
    exact (congrFun (Sessions.complete_key _ _ _) _).trans hk
  | received _ hidle peer payload spawned taken =>
    obtain ⟨_, heq⟩ := received_sessions d target peer payload spawned taken
    rw [heq]
    exact h.idle (h.sessions.packet _ _ _ spawned taken) (fun hk => h.sessions.packet_key hk _ spawned taken) hidle
      (fun _ hin => hin) rfl rfl rfl
  | @reply peer generation packet rest hrunning hidle hnext =>
    have hhead := h.replies (peer, generation, packet) (hnext ▸ mem_cons_self)
    have hrest : ∀ reply ∈ rest, d.Own reply := fun reply hin => h.replies reply (hnext ▸ mem_cons_of_mem _ hin)
    unfold DirectUdp.reply
    split_ifs with hcurrent
    · refine ⟨h.sessions, hrest, fun heq => ?_, fun _ => hrunning, h.sent⟩
      cases heq
      exact ⟨hhead, hcurrent.1⟩
    · exact h.idle h.sessions id hidle (fun reply hin => hnext ▸ mem_cons_of_mem _ hin) rfl rfl rfl
  | @sent _ hsending succeeded =>
    refine ⟨h.sessions, h.replies, nofun, nofun, fun reply' hin => ?_⟩
    cases succeeded with
    | false => exact h.sent reply' hin
    | true =>
      rcases mem_append.1 hin with hin | hin
      · exact h.sent reply' hin
      · rw [mem_singleton.1 hin]
        exact (h.sending hsending).1

theorem Reachable.inv (h : Reachable target d) : d.Inv := by
  induction h with
  | new => exact inv_new
  | step _ hstep ih => exact hstep.inv ih

theorem Step.change (hstep : Step target d event d') (h : d.sessions.Inv 4096) :
    d.sessions.Change event d'.sessions := by
  cases hstep with
  | other hother => exact hother.change
  | completion _ _ hnext => exact h.change_complete hnext
  | received _ _ peer payload spawned taken =>
    obtain ⟨_, heq⟩ := received_sessions d target peer payload spawned taken
    rw [heq]
    exact .ofPacket _ spawned taken
  | reply =>
    unfold DirectUdp.reply
    split_ifs <;> exact .other rfl
  | _ => exact .other rfl

structure Sends (d d' : DirectUdp) : Prop where
  start : ∀ {reply}, d'.sending = some reply → d.sending = some reply ∨
    (d.Own reply ∧ d.sessions.table.lookup reply.1 = some reply.2.1 ∧ d.sessions.closed reply.2.1 = false)
  sent : d'.sent ≠ d.sent → ∃ reply, d.sending = some reply ∧ d'.sent = d.sent ++ [reply] ∧
    d.sessions.table.lookup reply.1 = some reply.2.1

theorem Sends.same (hsending : d'.sending = d.sending) (hsent : d'.sent = d.sent) : Sends d d' :=
  ⟨fun heq => .inl (hsending.symm.trans heq), fun hne => absurd hsent hne⟩

theorem Step.sends (hstep : Step target d event d') (h : d.Inv) : Sends d d' := by
  cases hstep with
  | received _ _ peer payload spawned taken =>
    obtain ⟨_, heq⟩ := received_sessions d target peer payload spawned taken
    rw [heq]
    exact .same rfl rfl
  | @reply _ _ _ _ _ _ hnext =>
    unfold DirectUdp.reply
    split_ifs with hcurrent
    · refine ⟨fun heq => ?_, fun hne => absurd rfl hne⟩
      cases heq
      exact .inr ⟨h.replies _ (hnext ▸ mem_cons_self), hcurrent⟩
    · exact .same rfl rfl
  | @sent reply hsending succeeded =>
    refine ⟨nofun, fun hne => ?_⟩
    cases succeeded with
    | false => exact absurd rfl hne
    | true => exact ⟨reply, hsending, rfl, (h.sending hsending).2⟩
  | _ => exact .same rfl rfl

/-- **Neither loop confuses the sessions of one key**, in every order of packets, completions, closing and replies. That
a session is not closed is meant of the moment at which `send_to` is called. -/
theorem sessions_never_confused (target : Target) : (∀ {r}, Daemon.RoutePackets.Reachable r → r.sessions.Separate 1024 ∧
      ∀ {event r'}, Daemon.RoutePackets.Step r event r' → r.sessions.Change event r'.sessions) ∧
    ∀ {d}, Reachable target d → d.sessions.Separate 4096 ∧
      ∀ {event d'}, Step target d event d' → d.sessions.Change event d'.sessions ∧ Sends d d' := by
  refine ⟨fun hr => ⟨hr.inv.separate, fun hstep => hstep.change hr.inv⟩, fun hd => ⟨hd.inv.sessions.separate, ?_⟩⟩
  intro event d' hstep
  exact ⟨hstep.change hd.inv.sessions, hstep.sends hd.inv⟩

theorem sessions_echo : ∃ r d d', Daemon.RoutePackets.Reachable r ∧ r.sessions.Separate 1024 ∧
    r.sessions.received 1 = [⟨.domain "a" 1, [1]⟩] ∧
    Reachable (.domain "b" 2) d ∧ Step (.domain "b" 2) d .other d' ∧ d.sessions.Separate 4096 ∧ Sends d d' ∧
    d'.sent = [((.v4 1, 1), 1, ⟨.domain "b" 2, [3]⟩)] := by
  have hbatch : Daemon.RoutePackets.Reachable _ :=
    .step .new (@Daemon.RoutePackets.Step.received _ [⟨.domain "a" 1, [1]⟩] rfl rfl (by decide))
  have hrouted : Daemon.RoutePackets.Reachable _ := hbatch.step (.packet rfl rfl (.ok ()) true)
  have hreceived : Reachable (.domain "b" 2) _ := .step .new (.received rfl rfl (.v4 1, 1) [2] (.ok ()) true)
  have hresponse : Reachable (.domain "b" 2) _ :=
    hreceived.step (@Step.respond _ _ (.v4 1, 1) 1 ⟨.domain "b" 2, [3]⟩ true rfl rfl fun _ => by decide)
  obtain ⟨d, hreply, hsending, hnone⟩ : ∃ d, Reachable (.domain "b" 2) d ∧
      d.sending = some ((.v4 1, 1), 1, ⟨.domain "b" 2, [3]⟩) ∧ d.sent = [] :=
    ⟨_, hresponse.step (.reply rfl rfl rfl), rfl, rfl⟩
  have hsent : Step (.domain "b" 2) d .other _ := .sent hsending true
  obtain ⟨hroute, hdirect⟩ := sessions_never_confused (.domain "b" 2)
  refine ⟨_, d, _, hrouted, (hroute hrouted).1, rfl, hreply, hsent, (hdirect hreply).1, ((hdirect hreply).2 hsent).2, ?_⟩
  simp [hnone]

end DirectUdp

end Kotoconn.Inbounds
