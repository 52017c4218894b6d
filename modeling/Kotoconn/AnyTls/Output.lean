import Kotoconn.AnyTls.Session

/-! # The frames of a session -/

namespace Kotoconn.AnyTls
open Lib List Option Function

def Ordered (written : List Frame) : Prop :=
  ∀ ⦃before after : List Frame⦄ ⦃f : Frame⦄, written = before ++ f :: after → f.cmd = .fin →
    ∀ g ∈ after, g.sid = f.sid → g.ofStream = false

theorem ordered_nil : Ordered [] := by
  intro before after f h
  cases before <;> cases h

theorem Ordered.snoc {written : List Frame} {g : Frame} (h : Ordered written)
    (hg : g.ofStream = true → ∀ f ∈ written, f.cmd = .fin → f.sid ≠ g.sid) : Ordered (written ++ [g]) := by
  intro before after f hsplit hfin g' hg' hsid
  rcases eq_nil_or_concat after with rfl | ⟨after', last, rfl⟩
  · cases hg'
  · have hsplit' : written ++ [g] = (before ++ f :: after') ++ [last] := by simpa using hsplit
    obtain ⟨hwritten, hlast⟩ := append_inj' hsplit' rfl
    cases hlast
    rcases mem_append.1 (concat_eq_append ▸ hg') with hin | hin
    · exact h hwritten hfin g' hin hsid
    · rw [mem_singleton.1 hin] at hsid ⊢
      refine Bool.eq_false_iff.2 fun hof => hg hof f ?_ hfin hsid.symm
      rw [hwritten]
      exact mem_append_right _ mem_cons_self

theorem Ordered.append {written frames : List Frame} (h : Ordered written) (hframes : ∀ f ∈ frames, f.ofStream = false) :
    Ordered (written ++ frames) := by
  induction frames generalizing written with
  | nil => simpa using h
  | cons g _ ih =>
    have hg := hframes g mem_cons_self
    have hone : Ordered (written ++ [g]) := h.snoc fun hof => by cases hg.symm.trans hof
    have hall := ih hone fun f hf => hframes f (mem_cons_of_mem _ hf)
    simpa using hall

namespace Session

/-! ## What calls on a stream do -/

inductive Polled (s : Session) (sid : Nat) (stream : Stream) : Session → Prop
  | same : Polled s sid stream s
  | taken {result : Except String Unit} (hack : stream.ack = .ready result) :
      Polled s sid stream (s.put sid { stream with ack := .none })
  | wrote (hopen : stream.closed = none) (hshutdown : stream.shutdown = false) (hrunning : s.ended = false)
      (hack : stream.ack = .none ∨ ∃ result, stream.ack = .ready result) (bytes : Bytes) : Polled s sid stream
        ((s.put sid { stream with ack := .none, wrote := stream.wrote ++ bytes }).post (.data sid bytes))
  | flush (hopen : stream.closed = none) (hack : stream.ack = .none) (hrunning : s.ended = false) :
      Polled s sid stream ((s.put sid { stream with ack := .waiting }).post (.flush sid))
  | shutdown (hopen : stream.closed = none) (hshutdown : stream.shutdown = false) (hrunning : s.ended = false)
      (hack : stream.ack = .none ∨ ∃ result, stream.ack = .ready result) :
      Polled s sid stream ((s.put sid { stream with shutdown := true, ack := .waiting }).post (.close sid))

variable {s s' : Session} {sid : Nat} {stream : Stream} {event : Event}

theorem put_same (h : s.streams sid = some stream) : s.put sid stream = s := by
  unfold put
  rw [← h, update_eq_self]

theorem reserve_ok (h : s.reserve = .ready (.ok ())) : s.ended = false := by
  unfold reserve at h
  cases hended : s.ended with
  | false => rfl
  | true =>
    rw [hended] at h
    cases h

variable {result : Except String Unit}

theorem pollAck_ready {stream' : Stream} (h : stream.pollAck = (.ready result, stream')) :
    stream' = { stream with ack := .none } ∧
      ((stream.ack = .none ∧ result = .ok ()) ∨ stream.ack = .ready result) := by
  unfold Stream.pollAck at h
  cases hack : stream.ack with
  | none =>
    simp only [hack] at h
    cases h
    refine ⟨?_, .inl ⟨rfl, rfl⟩⟩
    rw [← hack]
  | waiting =>
    simp only [hack] at h
    cases h
  | flushing =>
    simp only [hack] at h
    cases h
  | ready =>
    simp only [hack] at h
    cases h
    exact ⟨rfl, .inr rfl⟩

/-- A write call adds to `wrote` the bytes that it accepts. -/
theorem pollWrite_wrote {bytes : Bytes} {n : Nat} (h : s.pollWrite sid stream bytes = (.ready (.ok n), s')) :
    ∃ stream', s'.streams sid = some stream' ∧ stream'.wrote = stream.wrote ++ bytes.take n := by
  unfold pollWrite at h
  split at h
  · cases h
  split at h
  · cases h
  · cases h
  · next heq =>
    obtain ⟨rfl, -⟩ := pollAck_ready heq
    split at h
    · cases h
      exact ⟨_, update_self .., by simp⟩
    · split at h <;> cases h
      exact ⟨_, update_self .., by simp [take_eq_take_iff]⟩

variable (hstream : s.streams sid = some stream)
include hstream

theorem Polled.acked
    (h : (stream.ack = .none ∧ result = .ok ()) ∨ stream.ack = .ready result) :
    Polled s sid stream (s.put sid { stream with ack := .none }) := by
  rcases h with ⟨hnone, -⟩ | hready
  · rw [← hnone, put_same hstream]
    exact .same
  · exact .taken hready

theorem pollWrite_polled (bytes : Bytes) :
    Polled s sid stream (s.pollWrite sid stream bytes).2 := by
  unfold pollWrite
  by_cases hclosed : stream.shutdown = true ∨ stream.closed.isSome = true
  · rw [if_pos hclosed]
    exact .same
  · rw [if_neg hclosed]
    have hopen : stream.closed = none ∧ stream.shutdown = false := by
      constructor
      · exact not_isSome_iff_eq_none.1 fun h => hclosed (.inr h)
      · exact Bool.eq_false_iff.2 fun h => hclosed (.inl h)
    split
    · exact .same
    · next heq =>
      obtain ⟨rfl, hack⟩ := pollAck_ready heq
      exact .acked hstream hack
    · next heq =>
      obtain ⟨rfl, hack⟩ := pollAck_ready heq
      split_ifs
      · exact .acked hstream hack
      · split
        · exact .acked hstream hack
        · exact .acked hstream hack
        · next hreserve => exact .wrote hopen.1 hopen.2 (reserve_ok hreserve) (hack.imp And.left fun h => ⟨_, h⟩) _

theorem pollFlush_polled : Polled s sid stream (s.pollFlush sid stream).2 := by
  unfold pollFlush
  split
  · next hnone =>
    split_ifs with hclosed
    · exact .same
    · split
      · exact .same
      · exact .same
      · next hreserve => exact .flush (not_isSome_iff_eq_none.1 hclosed) hnone (reserve_ok hreserve)
  · unfold Stream.pollAck
    split
    · rw [put_same hstream]
      exact .same
    · rw [put_same hstream]
      exact .same
    · rw [put_same hstream]
      exact .same
    · next hready => exact .taken hready

theorem pollShutdown_polled :
    Polled s sid stream (s.pollShutdown sid stream).2 := by
  unfold pollShutdown
  split
  · exact .same
  · next heq =>
    obtain ⟨rfl, hack⟩ := pollAck_ready heq
    exact .acked hstream hack
  · next heq =>
    obtain ⟨rfl, hack⟩ := pollAck_ready heq
    split_ifs with hclosed
    · exact .acked hstream hack
    · split
      · exact .acked hstream hack
      · exact .acked hstream hack
      · next hreserve =>
        refine .shutdown ?_ ?_ (reserve_ok hreserve) (hack.imp And.left fun h => ⟨_, h⟩)
        · exact not_isSome_iff_eq_none.1 fun h => hclosed (.inr h)
        · exact Bool.eq_false_iff.2 fun h => hclosed (.inl h)

omit hstream

/-! ## What the task opens -/

theorem message_opening {start : List Frame} {address : Bytes} (h : s.message start (.opening address) = .ok s') :
    s.client = true ∧ s.entries = ∅ ∧ s' = { (s.stream (s.nextSid + 1) false).send
      ((if s.started then [] else start) ++ [⟨.syn, s.nextSid + 1, []⟩, ⟨.psh, s.nextSid + 1, address⟩]) with
        nextSid := s.nextSid + 1, started := true, doing := .opening (s.nextSid + 1) } := by
  simp only [Session.message] at h
  by_cases hidle : s.client = true ∧ s.entries = ∅
  · rw [if_pos hidle] at h
    by_cases hnext : s.nextSid + 1 < 2 ^ 32
    · rw [if_pos hnext] at h
      exact ⟨hidle.1, hidle.2, (Except.ok.inj h).symm⟩
    · rw [if_neg hnext] at h
      cases h
  · rw [if_neg hidle] at h
    cases h

/-- A new stream of the peer is refused over the limit, or opened; an id that is not new is an error. -/
theorem act_ensureIncomingStream {rest : List Action} {full admitted : Bool}
    (h : s.act rest full admitted (.ensureIncomingStream sid) = (result, s')) :
    (s.nextSid < sid ∧ maxStreams ≤ s.entries.card ∧
      s' = { s.send [⟨.synAck, sid, "stream limit reached".toUTF8.toList⟩, ⟨.fin, sid, []⟩] with
        nextSid := sid, doing := .acting rest }) ∨
    (s.nextSid < sid ∧ s.entries.card < maxStreams ∧
      s' = { (s.stream sid admitted).send [⟨.synAck, sid, []⟩] with nextSid := sid, doing := .acting rest } ∧
      (admitted = true ∨ ∃ e, result = .error e)) ∨
    (s' = s ∧ ∃ e, result = .error e) := by
  simp only [Session.act] at h
  by_cases hnext : s.nextSid < sid
  · rw [if_pos hnext] at h
    by_cases hfull : maxStreams ≤ s.entries.card
    · rw [if_pos hfull] at h
      exact .inl ⟨hnext, hfull, (Prod.mk.inj h).2.symm⟩
    · rw [if_neg hfull] at h
      obtain ⟨hresult, rfl⟩ := Prod.mk.inj h
      refine .inr (.inl ⟨hnext, Nat.not_le.1 hfull, rfl, ?_⟩)
      cases admitted with
      | false => exact .inr ⟨_, hresult.symm⟩
      | true => exact .inl rfl
  · rw [if_neg hnext] at h
    exact .inr (.inr ⟨(Prod.mk.inj h).2.symm, _, (Prod.mk.inj h).1.symm⟩)

/-! ## Entries and output -/

def SameClosed (streams streams' : Nat → Option Stream) : Prop :=
  ∀ sid, (streams' sid).map Stream.closed = (streams sid).map Stream.closed

theorem SameClosed.refl (streams : Nat → Option Stream) : SameClosed streams streams := fun _ => rfl

theorem SameClosed.put {stream' : Stream} (h : s.streams sid = some stream) (hclosed : stream'.closed = stream.closed) :
    SameClosed s.streams (s.put sid stream').streams := by
  intro v
  rw [streams_put]
  split_ifs with hv
  · rw [hv, h, map_some, map_some, hclosed]
  · rfl

theorem SameClosed.modify {f : Stream → Stream} (hclosed : ∀ stream, (f stream).closed = stream.closed) :
    SameClosed s.streams (s.modify sid f).streams := by
  intro v
  rw [streams_modify]
  split_ifs
  · rw [Option.map_map]
    exact congrFun (congrArg Option.map (funext hclosed)) _
  · rfl

end Session

def Doing.rest : Doing → List Action
  | acting rest | closing _ rest => rest
  | opening _ => []

namespace Session
variable {s s' : Session} {sid : Nat} {stream : Stream} {event : Event}

structure Inv (s : Session) : Prop where
  entries : ∀ sid ∈ s.entries, (s.streams sid).map Stream.closed = some none
  known : ∀ {sid closed}, (s.streams sid).map Stream.closed = some closed →
    sid ≤ s.nextSid ∧ (closed = none → sid ∈ s.entries)
  opened : s.opened.Pairwise (· < ·) ∧ ∀ sid ∈ s.opened, sid ≤ s.nextSid
  bound : s.entries.card ≤ if s.client then 1 else maxStreams
  frames : ∀ f ∈ s.written, f.ofStream = true → f.sid ≤ s.nextSid
  fin : ∀ f ∈ s.written, f.cmd = .fin → f.sid ∉ s.entries
  ordered : Ordered s.written
  allowed : ∀ action ∈ s.doing.rest, action.Allowed s.client
  opening : ∀ {sid}, s.doing = .opening sid → sid ∈ s.entries

theorem inv_new (client : Bool) : (new client).Inv where
  entries _ h := absurd h (Finset.notMem_empty _)
  known h := by cases h
  opened := ⟨.nil, nofun⟩
  bound := zero_le
  frames := nofun
  fin := nofun
  ordered := ordered_nil
  allowed := nofun
  opening := nofun

variable (h : s.Inv)
include h

theorem Inv.frame (hclient : s'.client = s.client) (hentries : s'.entries = s.entries)
    (hnext : s'.nextSid = s.nextSid) (hwritten : s'.written = s.written) (hopened : s'.opened = s.opened)
    (hstreams : SameClosed s.streams s'.streams) (hallowed : ∀ action ∈ s'.doing.rest, action.Allowed s.client)
    (hopening : ∀ {sid}, s'.doing = .opening sid → s.doing = .opening sid) : s'.Inv where
  entries sid hsid := (hstreams sid).trans (h.entries sid (hentries ▸ hsid))
  known {sid closed} hsid := by
    rw [hnext, hentries]
    exact h.known ((hstreams sid).symm.trans hsid)
  opened := by
    rw [hopened, hnext]
    exact h.opened
  bound := by
    rw [hentries, hclient]
    exact h.bound
  frames := by
    rw [hwritten, hnext]
    exact h.frames
  fin := by
    rw [hwritten, hentries]
    exact h.fin
  ordered := hwritten ▸ h.ordered
  allowed action haction := hclient ▸ hallowed action haction
  opening hsid := hentries ▸ h.opening (hopening hsid)

theorem Inv.send {frames : List Frame} (hframes : ∀ f ∈ frames, f.ofStream = false) :
    (s.send frames).Inv := by
  have hnotFin : ∀ f ∈ frames, f.cmd ≠ .fin := by
    intro f hf hfin
    have := hframes f hf
    simp [Frame.ofStream, hfin] at this
  refine { h with frames := fun f hf hof => ?_, fin := fun f hf hfin => ?_, ordered := h.ordered.append hframes }
  · rcases mem_append.1 hf with hf | hf
    · exact h.frames f hf hof
    · cases (hframes f hf).symm.trans hof
  · rcases mem_append.1 hf with hf | hf
    · exact h.fin f hf hfin
    · exact absurd hfin (hnotFin f hf)

theorem Inv.unfinished (hsid : sid ∈ s.entries) : ∀ f ∈ s.written, f.cmd = .fin → f.sid ≠ sid :=
  fun f hf hfin heq => h.fin f hf hfin (heq ▸ hsid)

theorem Inv.le_next (hsid : sid ∈ s.entries) : sid ≤ s.nextSid := (h.known (h.entries sid hsid)).1

theorem Inv.psh (hsid : sid ∈ s.entries) (bytes : Bytes) : (s.send [⟨.psh, sid, bytes⟩]).Inv := by
  refine { h with
    frames := fun f hf hof => ?_
    fin := fun f hf hfin => ?_
    ordered := h.ordered.snoc fun _ => h.unfinished hsid }
  · rcases mem_append.1 hf with hf | hf
    · exact h.frames f hf hof
    · rw [mem_singleton.1 hf]
      exact h.le_next hsid
  · rcases mem_append.1 hf with hf | hf
    · exact h.fin f hf hfin
    · rw [mem_singleton.1 hf] at hfin
      cases hfin

theorem Inv.remove (sid : Nat) (cause : Cause) (error : Option String) {doing : Doing}
    (hallowed : ∀ action ∈ doing.rest, action.Allowed s.client) (hopening : ∀ {sid}, doing ≠ .opening sid) :
    Inv { s.modify sid (·.close cause error) with entries := s.entries.erase sid, doing } := by
  have hclosed : ∀ v, ((s.modify sid (·.close cause error)).streams v).map Stream.closed =
      if v = sid then ((s.streams v).map Stream.closed).map fun closed => closed <|> some cause
      else (s.streams v).map Stream.closed := by
    intro v
    rw [streams_modify]
    split_ifs
    · rw [Option.map_map, Option.map_map]
      rfl
    · rfl
  refine ⟨fun v hv => ?_, fun {v closed} hv => ?_, h.opened, ?_, h.frames, fun f hf hfin hin => ?_, h.ordered, hallowed,
    fun hsid => absurd hsid hopening⟩
  · obtain ⟨hne, hv⟩ := Finset.mem_erase.1 hv
    rw [hclosed, if_neg hne]
    exact h.entries v hv
  · rw [hclosed] at hv
    split_ifs at hv with heq
    · obtain ⟨closed', hclosed', rfl⟩ := map_eq_some_iff.1 hv
      refine ⟨(h.known hclosed').1, fun hnone => ?_⟩
      cases closed' <;> cases hnone
    · exact ⟨(h.known hv).1, fun hnone => Finset.mem_erase.2 ⟨heq, (h.known hv).2 hnone⟩⟩
  · exact le_trans (Finset.card_le_card (Finset.erase_subset _ _)) h.bound
  · exact h.fin f hf hfin (Finset.mem_of_mem_erase hin)

theorem Inv.answer (reply : Option Nat) {doing : Doing}
    (hallowed : ∀ action ∈ doing.rest, action.Allowed s.client) (hopening : ∀ {sid}, doing ≠ .opening sid) :
    Inv { s.answer reply with doing } := by
  unfold Session.answer
  cases reply with
  | none => exact h.frame rfl rfl rfl rfl rfl (.refl _) hallowed fun hsid => absurd hsid hopening
  | some => exact h.frame rfl rfl rfl rfl rfl (.modify fun _ => rfl) hallowed fun hsid => absurd hsid hopening

theorem Inv.finish (hle : sid ≤ s.nextSid) (hsid : sid ∉ s.entries)
    (hunfinished : ∀ f ∈ s.written, f.cmd = .fin → f.sid ≠ sid) : (s.send [⟨.fin, sid, []⟩]).Inv := by
  refine { h with
    frames := fun f hf hof => ?_
    fin := fun f hf hfin => ?_
    ordered := h.ordered.snoc fun _ => hunfinished }
  · rcases mem_append.1 hf with hf | hf
    · exact h.frames f hf hof
    · rw [mem_singleton.1 hf]
      exact hle
  · rcases mem_append.1 hf with hf | hf
    · exact h.fin f hf hfin
    · rw [mem_singleton.1 hf]
      exact hsid

variable {rest : List Action}

theorem Inv.close (sid : Nat) (cause : Cause) (error : Option String) (reply : Option Nat)
    (hallowed : ∀ action ∈ rest, action.Allowed s.client) : (s.close sid cause error reply rest).Inv := by
  unfold Session.close
  split_ifs with hsid
  · have hremoved : Inv { s.modify sid (·.close cause error) with
        entries := s.entries.erase sid, doing := .closing reply rest } := h.remove sid cause error hallowed nofun
    exact hremoved.finish (h.le_next hsid) (Finset.notMem_erase _ _) (h.unfinished hsid)
  · exact h.answer reply hallowed nofun

theorem Inv.advance (hnext : s.nextSid < sid) : Inv { s with nextSid := sid } where
  entries := h.entries
  known hv := ⟨le_trans (h.known hv).1 (le_of_lt hnext), (h.known hv).2⟩
  opened := ⟨h.opened.1, fun v hv => le_trans (h.opened.2 v hv) (le_of_lt hnext)⟩
  bound := h.bound
  frames f hf hof := le_trans (h.frames f hf hof) (le_of_lt hnext)
  fin := h.fin
  ordered := h.ordered
  allowed := h.allowed
  opening := h.opening

theorem Inv.fresh (hnext : s.nextSid < sid) :
    sid ∉ s.entries ∧ ∀ f ∈ s.written, f.cmd = .fin → f.sid ≠ sid := by
  refine ⟨fun hsid => absurd (h.le_next hsid) (not_le.2 hnext), fun f hf hfin heq => ?_⟩
  have hle := h.frames f hf (by simp [Frame.ofStream, hfin])
  rw [heq] at hle
  exact absurd hle (not_le.2 hnext)

theorem Inv.addStream (hnext : s.nextSid < sid) (hroom : s.entries.card < if s.client then 1 else maxStreams)
    (live : Bool) {doing : Doing} (hallowed : ∀ action ∈ doing.rest, action.Allowed s.client)
    (hopening : ∀ {v}, doing = .opening v → v = sid) : Inv { s.stream sid live with nextSid := sid, doing } := by
  have hstreams : ∀ v, v ≠ sid → (s.stream sid live).streams v = s.streams v := fun v hv => update_of_ne hv _ _
  have hused := h.advance hnext
  obtain ⟨hfresh, hunfinished⟩ := h.fresh hnext
  refine ⟨fun v hv => ?_, fun {v closed} hv => ?_, ⟨?_, fun v hv => ?_⟩, ?_, hused.frames,
    fun f hf hfin hin => ?_, h.ordered, hallowed, fun hsid => hopening hsid ▸ Finset.mem_insert_self _ _⟩
  · rcases Finset.mem_insert.1 hv with rfl | hv
    · exact congrArg (Option.map Stream.closed) (update_self _ _ s.streams)
    · have hne : v ≠ sid := fun heq => hfresh (heq ▸ hv)
      simp only [hstreams v hne]
      exact h.entries v hv
  · by_cases hne : v = sid
    · exact ⟨le_of_eq hne, fun _ => hne ▸ Finset.mem_insert_self _ _⟩
    · simp only [hstreams v hne] at hv
      exact ⟨(hused.known hv).1, fun hnone => Finset.mem_insert_of_mem ((h.known hv).2 hnone)⟩
  · refine pairwise_append.2 ⟨h.opened.1, pairwise_singleton _ _, fun v hv w hw => ?_⟩
    rw [mem_singleton.1 hw]
    exact lt_of_le_of_lt (h.opened.2 v hv) hnext
  · rcases mem_append.1 hv with hv | hv
    · exact hused.opened.2 v hv
    · exact le_of_eq (mem_singleton.1 hv)
  · exact le_trans (Finset.card_insert_le _ _) hroom
  · rcases Finset.mem_insert.1 hin with heq | hin
    · exact hunfinished f hf hfin heq
    · exact h.fin f hf hfin hin

theorem Inv.polled (hstream : s.streams sid = some stream) (hpolled : Polled s sid stream s') : s'.Inv := by
  cases hpolled with
  | same => exact h
  | taken => exact h.frame rfl rfl rfl rfl rfl (.put hstream rfl) h.allowed id
  | wrote => exact h.frame rfl rfl rfl rfl rfl (.put hstream rfl) h.allowed id
  | flush => exact h.frame rfl rfl rfl rfl rfl (.put hstream rfl) h.allowed id
  | shutdown => exact h.frame rfl rfl rfl rfl rfl (.put hstream rfl) h.allowed id

theorem Inv.acting (hallowed : ∀ action ∈ rest, action.Allowed s.client) :
    Inv { s with doing := .acting rest } :=
  h.frame rfl rfl rfl rfl rfl (.refl _) hallowed nofun

theorem Inv.refuse (hnext : s.nextSid < sid) (reason : Bytes)
    (hallowed : ∀ action ∈ rest, action.Allowed s.client) :
    Inv { s.send [⟨.synAck, sid, reason⟩, ⟨.fin, sid, []⟩] with nextSid := sid, doing := .acting rest } := by
  obtain ⟨hfresh, hunfinished⟩ := h.fresh hnext
  have hacked := (h.advance hnext).send (forall_mem_singleton.2 (rfl : Frame.ofStream ⟨.synAck, sid, reason⟩ = false))
  have hfinished := hacked.finish le_rfl hfresh fun f hf hfin => by
    rcases mem_append.1 hf with hf | hf
    · exact hunfinished f hf hfin
    · rw [mem_singleton.1 hf] at hfin
      cases hfin
  refine hfinished.frame rfl rfl rfl ?_ rfl (.refl _) hallowed nofun
  simp only [Session.send, append_assoc, singleton_append]

omit h

variable {start : List Frame}

theorem starting (hstart : ∀ f ∈ start, f.ofStream = false) :
    ∀ f ∈ if s.started then [] else start, f.ofStream = false := by
  split_ifs
  · exact nofun
  · exact hstart

theorem Inv.message (h : s.Inv) {message : Message}
    (hstart : ∀ f ∈ start, f.ofStream = false) (hmessage : s.message start message = .ok s') : s'.Inv := by
  cases message with
  | opening address =>
    obtain ⟨hclient, hidle, rfl⟩ := message_opening hmessage
    have hroom : s.entries.card < if s.client then 1 else maxStreams := by
      rw [hidle, if_pos hclient]
      exact Nat.one_pos
    have hstream : Inv { s.stream (s.nextSid + 1) false with
        nextSid := s.nextSid + 1, doing := .opening (s.nextSid + 1) } :=
      h.addStream (lt_add_one _) hroom false nofun fun heq => (Doing.opening.inj heq).symm
    have hstarted : ∀ f ∈ (if s.started then [] else start) ++ [⟨.syn, s.nextSid + 1, []⟩], f.ofStream = false :=
      forall_mem_append.2 ⟨starting hstart, forall_mem_singleton.2 rfl⟩
    have hsent := (hstream.send hstarted).psh (Finset.mem_insert_self _ _) address
    refine hsent.frame rfl rfl rfl ?_ rfl (.refl _) nofun id
    simp only [Session.send, append_assoc, singleton_append]
  | data _ bytes =>
    cases hmessage
    split_ifs with hsid
    · exact h.psh hsid bytes
    · exact h
  | flush =>
    cases hmessage
    exact h.frame rfl rfl rfl rfl rfl (.modify fun _ => rfl) h.allowed id
  | close sid =>
    cases hmessage
    exact h.close sid .closed none (some sid) nofun

theorem Inv.act (h : s.Inv) {action : Action} {full admitted : Bool} {result : Except String Unit}
    (hdoing : s.doing = .acting (action :: rest)) (hact : s.act rest full admitted action = (result, s')) : s'.Inv := by
  have hallowed : ∀ action' ∈ action :: rest, action'.Allowed s.client := by
    have := h.allowed
    rw [hdoing] at this
    exact this
  obtain ⟨haction, hrest⟩ := forall_mem_cons.1 hallowed
  cases action with
  | sendFrame =>
    cases hact
    exact (h.send (forall_mem_singleton.2 haction)).acting hrest
  | sendFrameSync =>
    cases hact
    exact (h.send (forall_mem_singleton.2 haction)).acting hrest
  | pushStreamData sid =>
    cases hact
    split_ifs
    · exact h.close sid _ _ _ hrest
    · exact h.acting hrest
  | ensureIncomingStream sid =>
    have hserver : s.client = false := haction
    rcases act_ensureIncomingStream hact with ⟨hnext, -, rfl⟩ | ⟨hnext, hcard, rfl, -⟩ | ⟨rfl, -⟩
    · exact h.refuse hnext _ hrest
    · have hroom : s.entries.card < if s.client then 1 else maxStreams := by
        rw [hserver]
        exact hcard
      have hopened : Inv { s.stream sid admitted with nextSid := sid, doing := .acting rest } :=
        h.addStream hnext hroom admitted hrest nofun
      exact hopened.send (forall_mem_singleton.2 rfl)
    · exact h
  | closeLocalStream sid =>
    cases hact
    split_ifs
    · exact h.remove sid .peer none hrest nofun
    · exact h.acting hrest
  | closeRemoteStream sid =>
    cases hact
    exact h.close sid _ _ _ hrest
  | alertAndFail =>
    cases hact
    exact h.send fun f hf => by
      rw [mem_singleton.1 hf]
      rfl
  | releaseWriteBuffering =>
    cases hact
    exact h.acting hrest

theorem lose_eq (stream : Stream) : ∃ ack, stream.lose = { stream with ack } := by
  unfold Stream.lose
  split
  · exact ⟨_, rfl⟩
  · exact ⟨_, rfl⟩
  · exact ⟨_, rfl⟩

theorem closed_lose (stream : Stream) : stream.lose.closed = stream.closed := by
  obtain ⟨_, hlose⟩ := lose_eq stream
  rw [hlose]

theorem Inv.fail (h : s.Inv) : s.fail.Inv := by
  have hclosed : ∀ v, (s.fail.streams v).map Stream.closed =
      if v ∈ s.entries then ((s.streams v).map Stream.closed).map fun closed => closed <|> some .error
      else (s.streams v).map Stream.closed := by
    intro v
    unfold Session.fail
    simp only [Option.map_map]
    split_ifs with hv
    · refine congrFun (congrArg Option.map (funext fun stream => ?_)) _
      exact closed_lose _
    · refine congrFun (congrArg Option.map (funext fun stream => ?_)) _
      exact closed_lose _
  refine ⟨nofun, fun {v closed} hv => ?_, h.opened, zero_le, h.frames, fun f hf hfin => Finset.notMem_empty _,
    h.ordered, nofun, nofun⟩
  rw [hclosed] at hv
  split_ifs at hv with hentry
  · obtain ⟨closed', hclosed', rfl⟩ := map_eq_some_iff.1 hv
    refine ⟨(h.known hclosed').1, fun hnone => ?_⟩
    cases closed' <;> cases hnone
  · exact ⟨(h.known hv).1, fun hnone => absurd ((h.known hv).2 hnone) hentry⟩

/-- **Every step keeps the output well formed.** -/
theorem Step.inv (hstep : Step s event s') (h : s.Inv) : s'.Inv := by
  cases hstep with
  | opening => exact h.frame rfl rfl rfl rfl rfl (.refl _) h.allowed id
  | write hstream _ bytes => exact h.polled hstream (pollWrite_polled hstream bytes)
  | flush hstream => exact h.polled hstream (pollFlush_polled hstream)
  | shutdown hstream => exact h.polled hstream (pollShutdown_polled hstream)
  | drop hstream => exact h.frame rfl rfl rfl rfl rfl (.put hstream rfl) h.allowed id
  | flushed hstream => exact h.frame rfl rfl rfl rfl rfl (.put hstream rfl) h.allowed id
  | message _ _ hstart hmessage =>
    refine Inv.message ?_ hstart hmessage
    exact h.frame rfl rfl rfl rfl rfl (.refl _) h.allowed id
  | opened _ hstream => exact h.frame rfl rfl rfl rfl rfl (.put hstream rfl) nofun nofun
  | dropped =>
    refine Inv.close ?_ _ .dropped none none nofun
    exact h.frame rfl rfl rfl rfl rfl (.refl _) h.allowed id
  | closed hdoing =>
    have hrest := h.allowed
    rw [hdoing] at hrest
    exact h.answer _ hrest nofun
  | received _ _ _ hactions => exact h.acting hactions
  | act hdoing hact => exact h.act hdoing hact
  | actFailed hdoing hact => exact (h.act hdoing hact).fail
  | failed => exact h.fail

theorem Reachable.inv {client : Bool} (h : Reachable client s) : s.Inv := by
  induction h with
  | new => exact inv_new client
  | step _ hstep ih => exact hstep.inv ih

/-! ## Streams without an entry -/

/-- What a run can add: entries above the last id, and frames of entries or of such ids. -/
structure Later (s s' : Session) : Prop where
  client : s'.client = s.client
  next : s.nextSid ≤ s'.nextSid
  entries : ∀ sid ∈ s'.entries, sid ∈ s.entries ∨ s.nextSid < sid
  written : ∃ more, s'.written = s.written ++ more ∧
    ∀ f ∈ more, f.ofStream = true → f.sid ∈ s.entries ∨ s.nextSid < f.sid

theorem Later.trans {s'' : Session} (h : Later s s') (h' : Later s' s'') : Later s s'' := by
  have hback : ∀ sid, sid ∈ s'.entries ∨ s'.nextSid < sid → sid ∈ s.entries ∨ s.nextSid < sid := by
    rintro sid (hsid | hsid)
    · exact h.entries sid hsid
    · exact .inr (lt_of_le_of_lt h.next hsid)
  obtain ⟨more, hmore, hframes⟩ := h.written
  obtain ⟨more', hmore', hframes'⟩ := h'.written
  refine ⟨h'.client.trans h.client, le_trans h.next h'.next, fun sid hsid => hback sid (h'.entries sid hsid),
    more ++ more', ?_, ?_⟩
  · rw [hmore', hmore, append_assoc]
  · refine forall_mem_append.2 ⟨hframes, fun f hf hof => hback f.sid (hframes' f hf hof)⟩

theorem Later.less (hclient : s'.client = s.client) (hnext : s'.nextSid = s.nextSid) (hentries : s'.entries ⊆ s.entries)
    (hwritten : s'.written = s.written) : Later s s' :=
  ⟨hclient, le_of_eq hnext.symm, fun _ hsid => .inl (hentries hsid), [], by rw [hwritten, append_nil], nofun⟩

theorem Later.frame (hclient : s'.client = s.client) (hnext : s'.nextSid = s.nextSid) (hentries : s'.entries = s.entries)
    (hwritten : s'.written = s.written) : Later s s' :=
  .less hclient hnext (Finset.subset_of_eq hentries) hwritten

theorem Later.send {frames : List Frame} (hclient : s'.client = s.client) (hnext : s.nextSid ≤ s'.nextSid)
    (hentries : ∀ sid ∈ s'.entries, sid ∈ s.entries ∨ s.nextSid < sid) (hwritten : s'.written = s.written ++ frames)
    (hframes : ∀ f ∈ frames, f.ofStream = true → f.sid ∈ s.entries ∨ s.nextSid < f.sid) : Later s s' :=
  ⟨hclient, hnext, hentries, frames, hwritten, hframes⟩

theorem Polled.later (h : Polled s sid stream s') : Later s s' := by
  cases h <;> exact .frame rfl rfl rfl rfl

theorem answer_later (s : Session) (reply : Option Nat) (doing : Doing) : Later s { s.answer reply with doing } := by
  unfold Session.answer
  cases reply <;> exact .frame rfl rfl rfl rfl

theorem close_later (s : Session) (sid : Nat) (cause : Cause) (error : Option String) (reply : Option Nat)
    (rest : List Action) : Later s (s.close sid cause error reply rest) := by
  unfold Session.close
  split_ifs with hsid
  · exact .send rfl le_rfl (fun v hv => .inl (Finset.mem_of_mem_erase hv)) rfl
      (forall_mem_singleton.2 fun _ => .inl hsid)
  · exact answer_later _ _ _

theorem message_later {message : Message} (hstart : ∀ f ∈ start, f.ofStream = false)
    (h : s.message start message = .ok s') : Later s s' := by
  cases message with
  | opening =>
    obtain ⟨-, -, rfl⟩ := message_opening h
    have hnew : s.nextSid < s.nextSid + 1 := lt_add_one _
    refine .send rfl (le_of_lt hnew) (fun v hv => ?_) rfl ?_
    · rcases Finset.mem_insert.1 hv with rfl | hv
      · exact .inr hnew
      · exact .inl hv
    · refine forall_mem_append.2 ⟨fun f hf hof => ?_, ?_⟩
      · cases (starting hstart f hf).symm.trans hof
      · exact forall_mem_cons.2 ⟨fun _ => .inr hnew, forall_mem_singleton.2 fun _ => .inr hnew⟩
  | data =>
    cases h
    split_ifs with hsid
    · exact .send rfl le_rfl (fun _ hv => .inl hv) rfl (forall_mem_singleton.2 fun _ => .inl hsid)
    · exact .frame rfl rfl rfl rfl
  | flush =>
    cases h
    exact .frame rfl rfl rfl rfl
  | close sid =>
    cases h
    exact close_later s sid _ _ _ _

theorem act_later {action : Action} {full admitted : Bool} {result : Except String Unit}
    (haction : action.Allowed s.client) (h : s.act rest full admitted action = (result, s')) : Later s s' := by
  have hquiet : ∀ {f : Frame}, f.ofStream = false → Later s { s.send [f] with doing := .acting rest } := by
    intro f hf
    refine .send rfl le_rfl (fun _ hv => .inl hv) rfl (forall_mem_singleton.2 fun hof => ?_)
    cases hf.symm.trans hof
  cases action with
  | sendFrame =>
    cases h
    exact hquiet haction
  | sendFrameSync =>
    cases h
    exact hquiet haction
  | pushStreamData sid =>
    cases h
    split_ifs
    · exact close_later s sid _ _ _ _
    · exact .frame rfl rfl rfl rfl
  | ensureIncomingStream =>
    rcases act_ensureIncomingStream h with ⟨hnext, -, rfl⟩ | ⟨hnext, -, rfl, -⟩ | ⟨rfl, -⟩
    · exact .send rfl (le_of_lt hnext) (fun _ hv => .inl hv) rfl
        (forall_mem_cons.2 ⟨fun _ => .inr hnext, forall_mem_singleton.2 fun _ => .inr hnext⟩)
    · refine .send rfl (le_of_lt hnext) (fun v hv => ?_) rfl (forall_mem_singleton.2 fun _ => .inr hnext)
      rcases Finset.mem_insert.1 hv with rfl | hv
      · exact .inr hnext
      · exact .inl hv
    · exact .frame rfl rfl rfl rfl
  | closeLocalStream =>
    cases h
    split_ifs
    · exact .less rfl rfl (Finset.erase_subset _ _) rfl
    · exact .frame rfl rfl rfl rfl
  | closeRemoteStream sid =>
    cases h
    exact close_later s sid _ _ _ _
  | alertAndFail =>
    cases h
    refine .send rfl le_rfl (fun _ hv => .inl hv) rfl (forall_mem_singleton.2 nofun)
  | releaseWriteBuffering =>
    cases h
    exact .frame rfl rfl rfl rfl

theorem fail_later (s : Session) : Later s s.fail := .less rfl rfl (Finset.empty_subset _) rfl

theorem Step.later (hstep : Step s event s') (h : s.Inv) : Later s s' := by
  have haction : ∀ {action rest}, s.doing = .acting (action :: rest) → action.Allowed s.client := by
    intro action rest hdoing
    refine h.allowed action ?_
    rw [hdoing]
    exact mem_cons_self
  cases hstep with
  | opening => exact .frame rfl rfl rfl rfl
  | write hstream _ bytes => exact (pollWrite_polled hstream bytes).later
  | flush hstream => exact (pollFlush_polled hstream).later
  | shutdown hstream => exact (pollShutdown_polled hstream).later
  | drop => exact .frame rfl rfl rfl rfl
  | flushed => exact .frame rfl rfl rfl rfl
  | message _ _ hstart hmessage =>
    refine Later.trans ?_ (message_later hstart hmessage)
    exact .frame rfl rfl rfl rfl
  | opened => exact .frame rfl rfl rfl rfl
  | dropped =>
    refine Later.trans ?_ (close_later _ _ _ _ _ _)
    exact .frame rfl rfl rfl rfl
  | closed => exact answer_later _ _ _
  | received => exact .frame rfl rfl rfl rfl
  | act hdoing hact => exact act_later (haction hdoing) hact
  | actFailed hdoing hact => exact (act_later (haction hdoing) hact).trans (fail_later _)
  | failed => exact fail_later s

theorem Reachable.client {client : Bool} (h : Reachable client s) : s.client = client := by
  induction h with
  | new => rfl
  | step hs hstep ih => exact (hstep.later hs.inv).client.trans ih

theorem Run.later (hrun : Run s s') (h : s.Inv) : Later s s' ∧ s'.Inv := by
  induction hrun with
  | refl => exact ⟨.frame rfl rfl rfl rfl, h⟩
  | tail _ hstep ih =>
    obtain ⟨_, hstep⟩ := hstep
    exact ⟨ih.1.trans (hstep.later ih.2), hstep.inv ih.2⟩

/-- **A stream without an entry sends nothing more.** -/
theorem Run.silent (hrun : Run s s') (h : s.Inv) (hsid : sid ≤ s.nextSid) (hentry : sid ∉ s.entries) :
    ∃ more, s'.written = s.written ++ more ∧ ∀ f ∈ more, f.sid = sid → f.ofStream = false := by
  obtain ⟨more, hmore, hframes⟩ := (Run.later hrun h).1.written
  refine ⟨more, hmore, fun f hf heq => Bool.eq_false_iff.2 fun hof => ?_⟩
  rcases hframes f hf hof with hin | hnext
  · exact hentry (heq ▸ hin)
  · exact not_lt.2 hsid (heq ▸ hnext)

end Session

end Kotoconn.AnyTls
