import Kotoconn.Shadowsocks2022.Replay

/-!
# Replies of the handlers

The channel of replies names only the client session. Associations are numbered here as they are made, so that a reply
can be told from one of an earlier association of its session.
-/

namespace Kotoconn.Shadowsocks2022
open Lib Protocol List Option Function AList

/-- A reply in the channel, which carries its session and the packet; `association` is the one that produced it. -/
structure Reply where
  association : Nat
  id : Nat
  packet : Packet
  deriving DecidableEq

structure Sent where
  reply : Reply
  peer : Peer
  server : Nat
  number : Nat
  deriving DecidableEq

/-- What associations did: the window of one accepted a client packet from `peer`, one sent a reply. -/
inductive Happened where
  | accepted (association : Nat) (peer : Peer)
  | sent (association : Nat) (x : Sent)
  deriving DecidableEq

def Happened.association : Happened → Nat
  | .accepted n _ => n
  | .sent n _ => n

def peersOf (n : Nat) (trace : List Happened) : List Peer :=
  trace.filterMap fun
    | .accepted m peer => if m = n then some peer else none
    | .sent .. => none

def sentBy (n : Nat) (trace : List Happened) : List Sent :=
  trace.filterMap fun
    | .accepted .. => none
    | .sent m x => if m = n then some x else none

def Happened.output : Happened → Option Output
  | .accepted .. => none
  | .sent _ x => some (.reply x.peer x.reply.id x.server x.number x.reply.packet)

def Output.isReply : Output → Bool
  | .forward _ => false
  | .reply .. => true

/-- The UDP task and its channel of replies, of which the first `batch` are already in `reply_batch`. `made` are the
sessions of the associations made so far, `serving` the last one made for a session. -/
structure Relay (f : Filter) where
  server : Server f
  made : List Nat
  serving : Nat → Nat
  replies : List Reply
  batch : Nat
  trace : List Happened

inductive Relay.Event where
  | expired (now : Nat)
  | received (peer : Peer) (datagram : Datagram) (wall created now : Nat) (server : Nat)
  | produced (association : Nat) (packet : Packet)
  | replied (fits : Bool) (now : Nat)

namespace Relay
variable {f : Filter}

def empty (clock : Nat) : Relay f := ⟨.empty clock, [], fun _ => 0, [], 0, []⟩

def enlist (s : Relay f) (id : Nat) : Relay f :=
  if id ∈ s.server.associations then s
  else { s with made := s.made ++ [id], serving := update s.serving id s.made.length }

def packet (s : Relay f) (p : ClientPacket) (peer : Peer) (server created : Nat) : Relay f :=
  match s.server.associate p.clientSessionId peer server created with
  | none => s
  | some a =>
    let s := s.enlist p.clientSessionId
    if (f.validatePacketId a.window p.packetId packetLimit).1 then
      { s with trace := s.trace ++ [.accepted (s.serving p.clientSessionId) peer] }
    else s

def reply (s : Relay f) (r : Reply) (fits : Bool) : Relay f :=
  match s.server.associations.lookup r.id with
  | none => s
  | some a =>
    if packetLimit ≤ a.packet + 1 then s
    else if fits then
      { s with trace := s.trace ++ [.sent (s.serving r.id) ⟨r, a.peer, a.server, a.packet + 1⟩] }
    else s

def step (timeout : Nat) (s : Relay f) : Event → Relay f
  | .expired now => { s with server := s.server.turn timeout (.expired now) }
  | .received peer datagram wall created now server =>
    { (match decrypt wall datagram with
      | none => s
      | some p => s.packet p peer server created) with
      server := s.server.turn timeout (.received peer datagram wall created now server) }
  | .produced n packet =>
    match s.made[n]? with
    | none => s
    | some id => if s.replies.length - s.batch < 64 then { s with replies := s.replies ++ [⟨n, id, packet⟩] } else s
  | .replied fits now =>
    match s.replies with
    | [] => s
    | r :: replies =>
      -- `recv_many` takes the next batch when the last one is done
      { s.reply r fits with
        server := s.server.turn timeout (.replied r.id r.packet fits now)
        replies
        batch := (if s.batch = 0 then min 32 s.replies.length else s.batch) - 1 }

def Enabled (timeout : Nat) (s : Relay f) : Event → Prop
  | .expired now => s.batch = 0 ∧ s.server.clock ≤ now ∧
    ∃ a ∈ s.server.associations.values, a.active + Server.retention timeout ≤ now
  | .received _ _ wall created now _ => s.batch = 0 ∧ s.server.clock ≤ wall ∧ wall ≤ created ∧ created ≤ now
  | .produced _ _ => True
  | .replied _ now => s.server.clock ≤ now

/-- The runs whose events all satisfy `ok`. -/
inductive Run (f : Filter) (timeout : Nat) (ok : Relay f → Event → Prop) : Relay f → Prop
  | empty (clock : Nat) : Run f timeout ok (empty clock)
  | step {s : Relay f} (event : Event) : Run f timeout ok s → s.Enabled timeout event → ok s event →
      Run f timeout ok (s.step timeout event)

/-- The replies that the task put out are those of the trace, in order. -/
def Traced (s : Relay f) : Prop := s.server.outputs.filter Output.isReply = s.trace.filterMap Happened.output

structure Sound (s : Relay f) : Prop where
  traced : s.Traced
  own : ∀ n x, .sent n x ∈ s.trace → x.reply.association = n
  ordered : ∀ n, (sentBy n s.trace).Pairwise fun x y => x.server = y.server ∧ x.number < y.number
  below : ∀ n x, .sent n x ∈ s.trace → x.number < packetLimit
  addressed : ∀ before n x after, s.trace = before ++ .sent n x :: after → (peersOf n before).getLast? = some x.peer

/-- The event does not mix the replies of two associations: when one is made no reply of its session waits, and only the
current association of a session queues replies. And an association begins with a packet that its window accepts. -/
def Clear (s : Relay f) : Event → Prop
  | .received _ datagram wall _ _ _ => ∀ p, decrypt wall datagram = some p → p.clientSessionId ∉ s.server.associations →
      p.packetId < packetLimit ∧ ∀ r ∈ s.replies, r.id ≠ p.clientSessionId
  | .produced n _ => ∀ id, s.made[n]? = some id → id ∈ s.server.associations ∧ s.serving id = n
  | _ => True

/-! ## What a step does -/

def look (s : Relay f) (id : Nat) : Option (Association f) := s.server.associations.lookup id

/-- What the association with the number `n` does when it goes from `a` to `a'`; `replies` wait in the channel. -/
inductive Does (replies : List Reply) (id n : Nat) (a a' : Association f) : List Happened → Prop
  | nothing (hpeer : a'.peer = a.peer) : Does replies id n a a' []
  | accepts : Does replies id n a a' [.accepted n a'.peer]
  | sends (r : Reply) (hr : r ∈ replies) (hid : r.id = id) (hpeer : a'.peer = a.peer) (hnumber : a.packet < a'.packet) :
      Does replies id n a a' [.sent n ⟨r, a.peer, a.server, a'.packet⟩]

/-- An association goes from `a` to `a'`. -/
structure Continues (a a' : Association f) : Prop where
  server : a'.server = a.server
  counts : a.packet ≤ a'.packet
  below : a.packet < packetLimit → a'.packet < packetLimit

/-- A step of the relay; `clear` if the event is. -/
inductive Steps (clear : Prop) (s s' : Relay f) : Prop
  | shrinks (hlook : ∀ id a, s'.look id = some a → s.look id = some a) (hmade : s'.made = s.made)
      (hserving : s'.serving = s.serving) (htrace : s'.trace = s.trace) (hreplies : s'.replies ⊆ s.replies)
  | queues (n id : Nat) (packet : Packet) (hmade : s.made[n]? = some id)
      (hclear : clear → id ∈ s.server.associations ∧ s.serving id = n)
      (hs : s' = { s with replies := s.replies ++ [⟨n, id, packet⟩] })
  | continues (id : Nat) (a a' : Association f) (extra : List Happened) (ha : s.look id = some a)
      (hlook : ∀ k, s'.look k = if k = id then some a' else s.look k) (hcont : Continues a a')
      (hdoes : Does s.replies id (s.serving id) a a' extra) (hmade : s'.made = s.made)
      (hserving : s'.serving = s.serving) (htrace : s'.trace = s.trace ++ extra) (hreplies : s'.replies ⊆ s.replies)
  | opens (id : Nat) (a' : Association f) (accepted : Bool) (ha : s.look id = none)
      (hclear : clear → accepted = true ∧ ∀ r ∈ s.replies, r.id ≠ id)
      (hlook : ∀ k, s'.look k = if k = id then some a' else s.look k) (hpacket : a'.packet = 0)
      (hmade : s'.made = s.made ++ [id]) (hserving : s'.serving = update s.serving id s.made.length)
      (htrace : s'.trace = s.trace ++ if accepted then [.accepted s.made.length a'.peer] else [])
      (hreplies : s'.replies = s.replies)

variable {s s' : Relay f} {timeout : Nat} {clear : Prop}

theorem Steps.idle (hlook : ∀ id, s'.look id = s.look id) (hmade : s'.made = s.made) (hserving : s'.serving = s.serving)
    (htrace : s'.trace = s.trace) (hreplies : s'.replies ⊆ s.replies) : Steps clear s s' :=
  .shrinks (fun id a ha => by rwa [hlook] at ha) hmade hserving htrace hreplies

theorem lookup_insert_eq {t : Table Nat (Association f)} {id k : Nat} {a : Association f} :
    (t.insert id a).lookup k = if k = id then some a else t.lookup k := by
  split_ifs with hk
  · subst hk
    exact lookup_insert _
  · exact lookup_insert_ne hk

theorem packet_steps (hf : f.Lawful) {p : ClientPacket} {peer : Peer} {server created now : Nat}
    (hclear : clear → p.clientSessionId ∉ s.server.associations →
      p.packetId < packetLimit ∧ ∀ r ∈ s.replies, r.id ≠ p.clientSessionId) :
    Steps clear s { s.packet p peer server created with
      server := { s.server.packet p peer server created now with clock := now } } := by
  unfold packet Server.packet
  cases ha : s.server.associate p.clientSessionId peer server created with
  | none => exact .idle (fun _ => rfl) rfl rfl rfl (List.Subset.refl _)
  | some =>
    simp only
    unfold Server.associate at ha
    cases hlook : s.server.associations.lookup p.clientSessionId with
    | some b =>
      rw [hlook] at ha
      obtain rfl := some.inj ha
      have hmem : p.clientSessionId ∈ s.server.associations :=
        lookup_isSome.1 (isSome_iff_exists.2 ⟨b, hlook⟩)
      rw [enlist, if_pos hmem]
      by_cases hacc : (f.validatePacketId b.window p.packetId packetLimit).1 = true
      · simp only [if_pos hacc]
        exact .continues _ b { b with window := _, peer := peer, active := now } _ hlook (fun k => lookup_insert_eq)
          ⟨rfl, le_rfl, fun h => h⟩ .accepts rfl rfl rfl (List.Subset.refl _)
      · simp only [if_neg hacc]
        exact .continues _ b { b with window := _ } [] hlook (fun k => lookup_insert_eq)
          ⟨rfl, le_rfl, fun h => h⟩ (.nothing rfl) rfl rfl (append_nil _).symm (List.Subset.refl _)
    | none =>
      rw [hlook] at ha
      simp only at ha
      split_ifs at ha
      obtain rfl := some.inj ha
      have hmem : p.clientSessionId ∉ s.server.associations := lookup_eq_none.1 hlook
      rw [enlist, if_neg hmem]
      have hserves : update s.serving p.clientSessionId s.made.length p.clientSessionId = s.made.length :=
        update_self _ _ _
      have hclear' : clear → (f.validatePacketId f.new p.packetId packetLimit).1 = true ∧
          ∀ r ∈ s.replies, r.id ≠ p.clientSessionId := fun hc =>
        ⟨hf.fresh _ (hclear hc hmem).1, (hclear hc hmem).2⟩
      by_cases hacc : (f.validatePacketId f.new p.packetId packetLimit).1 = true
      · simp only [if_pos hacc, hserves]
        refine .opens _ ⟨peer, server, 0, _, now⟩ true hlook (fun hc => ⟨rfl, (hclear' hc).2⟩)
          (fun k => lookup_insert_eq) rfl rfl rfl rfl rfl
      · simp only [if_neg hacc]
        refine .opens _ ⟨peer, server, 0, _, created⟩ false hlook (fun hc => absurd (hclear' hc).1 hacc)
          (fun k => lookup_insert_eq) rfl rfl rfl (append_nil _).symm rfl

theorem reply_steps {r : Reply} {rest : List Reply} (hreplies : s.replies = r :: rest) (fits : Bool) (now batch : Nat) :
    Steps clear s { s.reply r fits with
      server := { s.server.reply r.id r.packet fits now with clock := now }, replies := rest, batch } := by
  have hrest : rest ⊆ s.replies := by
    rw [hreplies]
    exact subset_cons_self _ _
  unfold reply Server.reply
  cases ha : s.server.associations.lookup r.id with
  | none => exact .idle (fun _ => rfl) rfl rfl rfl hrest
  | some a =>
    simp only
    by_cases hlimit : packetLimit ≤ a.packet + 1
    · simp only [if_pos hlimit]
      exact .shrinks (fun id b hb => (Table.lookup_erase_iff.1 hb).2) rfl rfl rfl hrest
    · simp only [if_neg hlimit]
      have hcont : Continues a { a with packet := a.packet + 1, active := now } :=
        ⟨rfl, Nat.le_succ _, fun _ => not_le.1 hlimit⟩
      cases fits with
      | false =>
        exact .continues r.id a _ [] ha (fun k => lookup_insert_eq) hcont (.nothing rfl) rfl rfl
          (append_nil _).symm hrest
      | true =>
        have hr : r ∈ s.replies := by
          rw [hreplies]
          exact mem_cons_self
        exact .continues r.id a _ _ ha (fun k => lookup_insert_eq) hcont
          (.sends r hr rfl rfl (lt_add_one _)) rfl rfl rfl hrest

theorem step_steps (hf : f.Lawful) (event : Event) : Steps (s.Clear event) s (s.step timeout event) := by
  cases event with
  | expired =>
    exact .shrinks (fun id a ha => (Table.lookup_retain.1 ha).1) rfl rfl rfl (List.Subset.refl _)
  | received _ datagram wall =>
    simp only [step, Server.turn]
    cases hd : decrypt wall datagram with
    | none => exact .idle (fun _ => rfl) rfl rfl rfl (List.Subset.refl _)
    | some p => exact packet_steps hf fun hclear hnew => hclear p hd hnew
  | produced n packet =>
    simp only [step]
    cases hid : s.made[n]? with
    | none => exact .idle (fun _ => rfl) rfl rfl rfl (List.Subset.refl _)
    | some id =>
      simp only
      split_ifs
      · exact .queues n id packet hid (fun hclear => hclear id hid) rfl
      · exact .idle (fun _ => rfl) rfl rfl rfl (List.Subset.refl _)
  | replied fits now =>
    simp only [step, Server.turn]
    cases hreplies : s.replies with
    | nil => exact .idle (fun _ => rfl) rfl rfl rfl (List.Subset.refl _)
    | cons => exact reply_steps hreplies fits now _

/-! ## The trace -/

theorem Traced.packet (h : s.Traced) (p : ClientPacket) (peer : Peer) (server created now : Nat) :
    (s.server.packet p peer server created now).outputs.filter Output.isReply =
      (s.packet p peer server created).trace.filterMap Happened.output := by
  have henlist : (s.enlist p.clientSessionId).trace = s.trace := by
    unfold enlist
    split_ifs <;> rfl
  unfold Relay.packet Server.packet
  cases s.server.associate p.clientSessionId peer server created with
  | none => exact h
  | some =>
    simp only
    split_ifs
    · rw [filter_append, filterMap_append, henlist, h]
      rfl
    · rw [henlist]
      exact h

theorem Traced.reply (h : s.Traced) (r : Reply) (fits : Bool) (now : Nat) :
    (s.server.reply r.id r.packet fits now).outputs.filter Output.isReply =
      (s.reply r fits).trace.filterMap Happened.output := by
  unfold Relay.reply Server.reply
  cases s.server.associations.lookup r.id with
  | none => exact h
  | some =>
    simp only
    split_ifs
    · exact h
    · rw [filter_append, filterMap_append, h]
      rfl
    · exact h

theorem Run.traced {ok : Relay f → Event → Prop} (h : Run f timeout ok s) : s.Traced := by
  induction h with
  | empty => rfl
  | @step s event _ _ _ ih =>
    cases event with
    | expired => exact ih
    | received peer datagram wall created now server =>
      simp only [Traced, Relay.step, Server.turn]
      cases decrypt wall datagram with
      | none => exact ih
      | some p => exact ih.packet p peer server created now
    | produced =>
      simp only [Relay.step]
      split
      · exact ih
      · split_ifs
        · exact ih
        · exact ih
    | replied fits now =>
      simp only [Relay.step]
      cases s.replies with
      | nil => exact ih
      | cons r => exact ih.reply r fits now

/-! ## Numbers -/

theorem sentBy_append (n : Nat) (t u : List Happened) : sentBy n (t ++ u) = sentBy n t ++ sentBy n u :=
  filterMap_append

theorem peersOf_append (n : Nat) (t u : List Happened) : peersOf n (t ++ u) = peersOf n t ++ peersOf n u :=
  filterMap_append

theorem mem_sentBy {n : Nat} {t : List Happened} {x : Sent} : x ∈ sentBy n t ↔ .sent n x ∈ t := by
  unfold sentBy
  rw [mem_filterMap]
  constructor
  · rintro ⟨h, _, hx⟩
    cases h with
    | accepted => cases hx
    | sent =>
      simp only at hx
      split_ifs at hx with hm
      obtain rfl := some.inj hx
      rwa [← hm]
  · exact fun h => ⟨_, h, if_pos rfl⟩

/-- Packet numbers grow within an association, and numbers of associations not yet made are not in use. -/
structure Numbered (s : Relay f) : Prop where
  serving : ∀ id a, s.look id = some a → s.made[s.serving id]? = some id
  fresh : ∀ h ∈ s.trace, h.association < s.made.length
  current : ∀ id a, s.look id = some a → a.packet < packetLimit ∧
    ∀ x, .sent (s.serving id) x ∈ s.trace → x.server = a.server ∧ x.number ≤ a.packet
  ordered : ∀ n, (sentBy n s.trace).Pairwise fun x y => x.server = y.server ∧ x.number < y.number
  below : ∀ n x, .sent n x ∈ s.trace → x.number < packetLimit

theorem Numbered.empty (clock : Nat) : (Relay.empty clock : Relay f).Numbered where
  serving _ _ h := nomatch h
  fresh _ h := nomatch h
  current _ _ h := nomatch h
  ordered _ := List.Pairwise.nil
  below _ _ h := nomatch h

theorem Numbered.serving_ne (h : s.Numbered) {id k : Nat} {a b : Association f} (ha : s.look id = some a)
    (hb : s.look k = some b) (hne : k ≠ id) : s.serving k ≠ s.serving id := fun heq => by
  have hk := h.serving k b hb
  rw [heq, h.serving id a ha] at hk
  exact hne (some.inj hk).symm

theorem Numbered.serving_lt (h : s.Numbered) {id : Nat} {a : Association f} (ha : s.look id = some a) :
    s.serving id < s.made.length := (List.getElem?_eq_some_iff.1 (h.serving id a ha)).1

theorem Numbered.nothing_sent (h : s.Numbered) (x : Sent) : .sent s.made.length x ∉ s.trace := fun hx =>
  lt_irrefl _ (h.fresh _ hx)

section

variable {replies : List Reply} {id n : Nat} {a a' : Association f} {extra : List Happened}

/-- What an association sends has the number that it has now. -/
theorem Does.sent (hdoes : Does replies id n a a' extra) {m : Nat} {x : Sent} (hx : .sent m x ∈ extra) :
    m = n ∧ x.server = a.server ∧ x.number = a'.packet ∧ a.packet < a'.packet := by
  cases hdoes with
  | nothing => cases hx
  | accepts => cases mem_singleton.1 hx
  | sends _ _ _ _ hnumber =>
    cases mem_singleton.1 hx
    exact ⟨rfl, rfl, rfl, hnumber⟩

theorem Does.association (hdoes : Does replies id n a a' extra) {e : Happened} (he : e ∈ extra) : e.association = n := by
  cases hdoes with
  | nothing => cases he
  | accepts | sends =>
    rw [mem_singleton.1 he]
    rfl

theorem Does.pairwise (hdoes : Does replies id n a a' extra) (m : Nat) (R : Sent → Sent → Prop) :
    (sentBy m extra).Pairwise R := by
  cases hdoes with
  | nothing => exact List.Pairwise.nil
  | accepts => exact List.Pairwise.nil
  | sends => by_cases hn : n = m <;> simp [sentBy, hn]

theorem Numbered.continues (h : s.Numbered) (ha : s.look id = some a)
    (hlook : ∀ k, s'.look k = if k = id then some a' else s.look k) (hcont : Continues a a')
    (hdoes : Does replies id (s.serving id) a a' extra) (hmade : s'.made = s.made) (hserving : s'.serving = s.serving)
    (htrace : s'.trace = s.trace ++ extra) : s'.Numbered := by
  obtain ⟨hlimit, hcurrent⟩ := h.current id a ha
  refine ⟨fun k b hb => ?_, fun e he => ?_, fun k b hb => ?_, fun n => ?_, fun n x hx => ?_⟩
  · rw [hmade, hserving]
    rw [hlook] at hb
    split_ifs at hb with hk
    · subst hk
      exact h.serving k a ha
    · exact h.serving k b hb
  · rw [hmade]
    rw [htrace] at he
    rcases mem_append.1 he with he | he
    · exact h.fresh e he
    · rw [hdoes.association he]
      exact h.serving_lt ha
  · rw [hserving, htrace]
    rw [hlook] at hb
    split_ifs at hb with hk
    · subst hk
      obtain rfl := some.inj hb
      refine ⟨hcont.below hlimit, fun x hx => ?_⟩
      rw [hcont.server]
      rcases mem_append.1 hx with hx | hx
      · exact ⟨(hcurrent x hx).1, le_trans (hcurrent x hx).2 hcont.counts⟩
      · exact ⟨(hdoes.sent hx).2.1, le_of_eq (hdoes.sent hx).2.2.1⟩
    · refine ⟨(h.current k b hb).1, fun x hx => ?_⟩
      rcases mem_append.1 hx with hx | hx
      · exact (h.current k b hb).2 x hx
      · exact absurd (hdoes.sent hx).1 (h.serving_ne ha hb hk)
  · rw [htrace, sentBy_append, pairwise_append]
    refine ⟨h.ordered n, hdoes.pairwise n _, fun x hx y hy => ?_⟩
    obtain ⟨rfl, hserver, hy, hlt⟩ := hdoes.sent (mem_sentBy.1 hy)
    obtain ⟨hserver', hx⟩ := hcurrent x (mem_sentBy.1 hx)
    rw [hserver, hy]
    exact ⟨hserver', lt_of_le_of_lt hx hlt⟩
  · rw [htrace] at hx
    rcases mem_append.1 hx with hx | hx
    · exact h.below n x hx
    · rw [(hdoes.sent hx).2.2.1]
      exact hcont.below hlimit

theorem Numbered.opens (h : s.Numbered) {accepted : Bool}
    (hlook : ∀ k, s'.look k = if k = id then some a' else s.look k) (hpacket : a'.packet = 0)
    (hmade : s'.made = s.made ++ [id]) (hserving : s'.serving = update s.serving id s.made.length)
    (htrace : s'.trace = s.trace ++ if accepted then [.accepted s.made.length a'.peer] else []) : s'.Numbered := by
  have hextra : ∀ n x, .sent n x ∉ if accepted then [Happened.accepted s.made.length a'.peer] else [] := by
    intro n x hx
    cases accepted with
    | false => cases hx
    | true => cases mem_singleton.1 hx
  have hsent : ∀ n x, .sent n x ∈ s'.trace → .sent n x ∈ s.trace := by
    intro n x hx
    rw [htrace] at hx
    exact (mem_append.1 hx).resolve_right (hextra n x)
  refine ⟨fun k b hb => ?_, fun e he => ?_, fun k b hb => ?_, fun n => ?_, fun n x hx => ?_⟩
  · rw [hmade, hserving]
    rw [hlook] at hb
    split_ifs at hb with hk
    · subst hk
      rw [update_self, getElem?_concat_length]
    · rw [update_of_ne hk, getElem?_append_left (h.serving_lt hb)]
      exact h.serving k b hb
  · rw [hmade, length_append, length_singleton]
    rw [htrace] at he
    rcases mem_append.1 he with he | he
    · exact Nat.lt_succ_of_lt (h.fresh e he)
    · cases accepted with
      | false => cases he
      | true =>
        rw [mem_singleton.1 he]
        exact lt_add_one _
  · rw [hserving]
    rw [hlook] at hb
    split_ifs at hb with hk
    · subst hk
      obtain rfl := some.inj hb
      rw [update_self, hpacket]
      exact ⟨by decide, fun x hx => absurd (hsent _ x hx) (h.nothing_sent x)⟩
    · rw [update_of_ne hk]
      exact ⟨(h.current k b hb).1, fun x hx => (h.current k b hb).2 x (hsent _ x hx)⟩
  · have hnone : sentBy n (if accepted then [Happened.accepted s.made.length a'.peer] else []) = [] := by
      rw [eq_nil_iff_forall_not_mem]
      exact fun x hx => hextra n x (mem_sentBy.1 hx)
    rw [htrace, sentBy_append, hnone, append_nil]
    exact h.ordered n
  · exact h.below n x (hsent n x hx)

end

theorem Numbered.steps (h : s.Numbered) (hstep : Steps clear s s') : s'.Numbered := by
  cases hstep with
  | shrinks hlook hmade hserving htrace =>
    refine ⟨fun id a ha => ?_, fun e he => ?_, fun id a ha => ?_, ?_, ?_⟩
    · rw [hmade, hserving]
      exact h.serving id a (hlook id a ha)
    · rw [hmade]
      exact h.fresh e (htrace ▸ he)
    · rw [hserving, htrace]
      exact h.current id a (hlook id a ha)
    · rw [htrace]
      exact h.ordered
    · rw [htrace]
      exact h.below
  | queues _ _ _ _ _ hs =>
    subst hs
    exact ⟨h.serving, h.fresh, h.current, h.ordered, h.below⟩
  | continues _ _ _ _ ha hlook hcont hdoes hmade hserving htrace =>
    exact h.continues ha hlook hcont hdoes hmade hserving htrace
  | opens _ _ _ _ _ hlook hpacket hmade hserving htrace => exact h.opens hlook hpacket hmade hserving htrace

/-! ## Owners -/

def Addressed (trace : List Happened) : Prop :=
  ∀ before n x after, trace = before ++ .sent n x :: after → (peersOf n before).getLast? = some x.peer

theorem Addressed.snoc {t : List Happened} {e : Happened} (h : Addressed t)
    (he : ∀ n x, e = .sent n x → (peersOf n t).getLast? = some x.peer) : Addressed (t ++ [e]) := by
  intro before n x after hsplit
  rcases eq_nil_or_concat after with rfl | ⟨after', last, rfl⟩
  · obtain ⟨rfl, hlast⟩ := append_inj' hsplit rfl
    exact he n x (singleton_inj.1 hlast)
  · have hsplit' : t ++ [e] = (before ++ .sent n x :: after') ++ [last] := by simpa using hsplit
    exact h before n x after' (append_inj' hsplit' rfl).1

/-- Replies wait for the association that produced them, and every association has heard from its peer. -/
structure Own (s : Relay f) : Prop where
  queued : ∀ r ∈ s.replies, ∀ a, s.look r.id = some a → r.association = s.serving r.id
  own : ∀ n x, .sent n x ∈ s.trace → x.reply.association = n
  heard : ∀ id a, s.look id = some a → (peersOf (s.serving id) s.trace).getLast? = some a.peer
  addressed : Addressed s.trace

theorem Own.empty (clock : Nat) : (Relay.empty clock : Relay f).Own where
  queued _ h := nomatch h
  own _ _ h := nomatch h
  heard _ _ h := nomatch h
  addressed before n x after h := by
    cases before <;> cases h

theorem Does.peersOf_ne {replies : List Reply} {id n m : Nat} {a a' : Association f} {extra : List Happened}
    (h : Does replies id n a a' extra) (hne : n ≠ m) : peersOf m extra = [] := by
  cases h with
  | nothing => rfl
  | accepts => simp [peersOf, hne]
  | sends => rfl

theorem Own.steps (hnumbered : s.Numbered) (h : s.Own) (hclear : clear) (hstep : Steps clear s s') : s'.Own := by
  cases hstep with
  | shrinks hlook _ hserving htrace hreplies =>
    refine ⟨fun r hr a ha => ?_, ?_, fun id a ha => ?_, ?_⟩
    · rw [hserving]
      exact h.queued r (hreplies hr) a (hlook _ a ha)
    · rw [htrace]
      exact h.own
    · rw [hserving, htrace]
      exact h.heard id a (hlook id a ha)
    · rw [htrace]
      exact h.addressed
  | queues _ _ _ _ hqueues hs =>
    subst hs
    refine ⟨fun r hr a ha => ?_, h.own, h.heard, h.addressed⟩
    rcases mem_append.1 hr with hr | hr
    · exact h.queued r hr a ha
    · rw [mem_singleton.1 hr]
      exact (hqueues hclear).2.symm
  | continues id a _ _ ha hlook _ hdoes _ hserving htrace hreplies =>
    have hheard := h.heard id a ha
    refine ⟨fun r hr b hb => ?_, fun n x hx => ?_, fun k b hb => ?_, ?_⟩
    · rw [hserving]
      rw [hlook] at hb
      split_ifs at hb with hk
      · exact h.queued r (hreplies hr) a (hk ▸ ha)
      · exact h.queued r (hreplies hr) b hb
    · rw [htrace] at hx
      rcases mem_append.1 hx with hx | hx
      · exact h.own n x hx
      · cases hdoes with
        | nothing => cases hx
        | accepts => cases mem_singleton.1 hx
        | sends r hr hid =>
          cases mem_singleton.1 hx
          rw [← hid]
          exact h.queued r hr a (hid ▸ ha)
    · rw [hserving, htrace, peersOf_append]
      rw [hlook] at hb
      split_ifs at hb with hk
      · subst hk
        obtain rfl := some.inj hb
        cases hdoes with
        | nothing hpeer =>
          rw [hpeer]
          simpa [peersOf] using hheard
        | accepts => simp [peersOf]
        | sends _ _ _ hpeer =>
          rw [hpeer]
          simpa [peersOf] using hheard
      · rw [hdoes.peersOf_ne (hnumbered.serving_ne ha hb hk).symm, append_nil]
        exact h.heard k b hb
    · rw [htrace]
      cases hdoes with
      | nothing =>
        rw [append_nil]
        exact h.addressed
      | accepts => exact h.addressed.snoc fun n x he => nomatch he
      | sends =>
        refine h.addressed.snoc fun n x he => ?_
        cases he
        exact hheard
  | opens _ a' accepted _ hopens hlook _ _ hserving htrace hreplies =>
    obtain ⟨rfl, hnone⟩ := hopens hclear
    rw [if_pos rfl] at htrace
    refine ⟨fun r hr b hb => ?_, fun n x hx => ?_, fun k b hb => ?_, ?_⟩
    · rw [hreplies] at hr
      have hne := hnone r hr
      rw [hlook, if_neg hne] at hb
      rw [hserving, update_of_ne hne]
      exact h.queued r hr b hb
    · rw [htrace] at hx
      rcases mem_append.1 hx with hx | hx
      · exact h.own n x hx
      · cases mem_singleton.1 hx
    · rw [hserving, htrace, peersOf_append]
      rw [hlook] at hb
      split_ifs at hb with hk
      · subst hk
        obtain rfl := some.inj hb
        rw [update_self]
        simp [peersOf]
      · rw [update_of_ne hk]
        have hne : s.made.length ≠ s.serving k := Nat.ne_of_gt (hnumbered.serving_lt hb)
        have hothers : peersOf (s.serving k) [.accepted s.made.length a'.peer] = [] := by simp [peersOf, hne]
        rw [hothers, append_nil]
        exact h.heard k b hb
    · rw [htrace]
      exact h.addressed.snoc fun n x he => nomatch he

theorem Run.numbered (hf : f.Lawful) {ok : Relay f → Event → Prop} (h : Run f timeout ok s) : s.Numbered := by
  induction h with
  | empty clock => exact .empty clock
  | step event _ _ _ ih => exact ih.steps (step_steps hf event)

theorem Run.own (hf : f.Lawful) (h : Run f timeout Clear s) : s.Own := by
  induction h with
  | empty clock => exact .empty clock
  | step event hrun _ hclear ih => exact ih.steps (hrun.numbered hf) hclear (step_steps hf event)

/-- **Replies belong to a live association** in every run in which no session is taken up again while a reply of it
waits, and every association begins with a packet that its window accepts. -/
theorem Run.replies_sound (hf : f.Lawful) (h : Run f timeout Clear s) : s.Sound where
  traced := h.traced
  own := (h.own hf).own
  ordered := (h.numbered hf).ordered
  below := (h.numbered hf).below
  addressed := (h.own hf).addressed

def sealed (packetId timestamp : Nat) : Datagram := .packet ⟨7, packetId, timestamp, ⟨.domain "a" 53, [1]⟩⟩

def answer : Packet := ⟨.domain "a" 53, [2]⟩

theorem sound_answered : ∃ s, Run exactFilter (60 * second) Clear s ∧
    s.trace = [.accepted 0 nobody, .sent 0 ⟨⟨0, 7, answer⟩, nobody, 1, 1⟩] ∧
    s.server.outputs.filter Output.isReply = [.reply nobody 7 1 1 answer] ∧ s.Sound := by
  have h₁ := (Run.empty 0 : Run exactFilter (60 * second) Clear _).step (.received nobody (sealed 0 0) 0 0 0 1)
    ⟨rfl, le_rfl, le_rfl, le_rfl⟩ (fun p hp _ => by cases hp; exact ⟨by decide, fun r hr => nomatch hr⟩)
  have h₂ := h₁.step (.produced 0 answer) trivial (fun id hid => by cases hid; exact ⟨by decide, rfl⟩)
  have h₃ := h₂.step (.replied true 0) le_rfl trivial
  have hsound := h₃.replies_sound exactFilter_lawful
  exact ⟨_, h₃, rfl, hsound.traced, hsound⟩

/-- **A reply is sent by a later association**: the handler of the first association of a session answers as the
association expires; a packet of the session arrives before the reply is taken from the channel. -/
theorem reply_crosses : ∃ s, Run exactFilter (60 * second) (fun _ _ => True) s ∧
    s.trace = [.accepted 0 nobody, .accepted 1 nobody, .sent 1 ⟨⟨0, 7, answer⟩, nobody, 2, 1⟩] ∧
    s.server.outputs.filter Output.isReply = [.reply nobody 7 2 1 answer] ∧ ¬s.Sound := by
  have h₁ := (Run.empty 0 : Run exactFilter (60 * second) (fun _ _ => True) _).step
    (.received nobody (sealed 0 0) 0 0 0 1) ⟨rfl, le_rfl, le_rfl, le_rfl⟩ trivial
  have h₂ := h₁.step (.produced 0 answer) trivial trivial
  have h₃ := h₂.step (.expired (60 * second)) ⟨rfl, by decide, _, mem_cons_self, by decide⟩ trivial
  have h₄ := h₃.step (.received nobody (sealed 1 60) (60 * second) (60 * second) (60 * second) 2)
    ⟨rfl, by decide, le_rfl, le_rfl⟩ trivial
  have h₅ := h₄.step (.replied true (60 * second)) le_rfl trivial
  refine ⟨_, h₅, rfl, rfl, fun hsound => ?_⟩
  cases hsound.own 1 ⟨⟨0, 7, answer⟩, nobody, 2, 1⟩ (by decide)

end Relay

end Kotoconn.Shadowsocks2022
