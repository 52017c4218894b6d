import Kotoconn.AnyTls.Output

/-! # The bytes of a stream -/

namespace Kotoconn.AnyTls
open Lib List Option Function

def Message.sid : Message → Option Nat
  | opening _ => none
  | data sid _ | flush sid | close sid => some sid

def own (sid : Nat) (messages : List Message) : List Message := messages.filter (·.sid = some sid)

theorem own_append (sid : Nat) (messages more : List Message) :
    own sid (messages ++ more) = own sid messages ++ own sid more := filter_append _ _

variable {message : Message} {sid : Nat}

theorem own_cons_self (h : message.sid = some sid) (messages : List Message) :
    own sid (message :: messages) = message :: own sid messages := filter_cons_of_pos (decide_eq_true h)

theorem own_cons_other (h : message.sid ≠ some sid) (messages : List Message) :
    own sid (message :: messages) = own sid messages :=
  filter_cons_of_neg fun heq => h (of_decide_eq_true heq)

def payloads (sid : Nat) (written : List Frame) : List Bytes :=
  written.filterMap fun f => if f.cmd = .psh ∧ f.sid = sid then some f.data else none

theorem payloads_append (sid : Nat) (written more : List Frame) :
    payloads sid (written ++ more) = payloads sid written ++ payloads sid more := filterMap_append

theorem payloads_quiet {frames : List Frame} (h : ∀ f ∈ frames, f.sid = sid → f.ofStream = false) :
    payloads sid frames = [] := by
  refine filterMap_eq_nil_iff.2 fun f hf => if_neg fun ⟨hpsh, hsid⟩ => ?_
  have hquiet := h f hf hsid
  simp [Frame.ofStream, hpsh] at hquiet

theorem payloads_psh (sid : Nat) (bytes : Bytes) : payloads sid [⟨.psh, sid, bytes⟩] = [bytes] := by
  simp [payloads]

theorem payloads_psh_other {sid v : Nat} (hv : v ≠ sid) (bytes : Bytes) : payloads v [⟨.psh, sid, bytes⟩] = [] :=
  payloads_quiet (forall_mem_singleton.2 fun heq => absurd heq.symm hv)

def body (client : Bool) (sid : Nat) (written : List Frame) : Bytes :=
  ((payloads sid written).drop (if client then 1 else 0)).flatten

variable {client : Bool}

theorem body_of_none {written : List Frame} (h : payloads sid written = []) : body client sid written = [] := by
  unfold body
  rw [h, drop_nil]
  rfl

theorem body_psh {written : List Frame} (h : client = true → payloads sid written ≠ [])
    (bytes : Bytes) : body client sid (written ++ [⟨.psh, sid, bytes⟩]) = body client sid written ++ bytes := by
  have hdrop : (if client then 1 else 0) ≤ (payloads sid written).length := by
    split_ifs with hclient
    · exact length_pos_iff.2 (h hclient)
    · exact zero_le
  unfold body
  rw [payloads_append, payloads_psh, drop_append_of_le_length hdrop, flatten_append, flatten_singleton]

namespace Session

inductive Tail (stream : Stream) (sid : Nat) : List Message → Prop
  | data (h : stream.shutdown = true → stream.closed ≠ none) : Tail stream sid []
  | flush (hack : stream.ack = .waiting) (h : stream.shutdown = false) : Tail stream sid [.flush sid]
  | close (hack : stream.ack = .waiting) (h : stream.shutdown = true) : Tail stream sid [.close sid]

structure Tracks (s : Session) (sid : Nat) (stream : Stream) : Prop where
  queue : ∃ (datas : List Bytes) (tail : List Message), own sid s.messages = datas.map (.data sid) ++ tail ∧
    Tail stream sid tail ∧ (stream.closed = none → body s.client sid s.written ++ datas.flatten = stream.wrote)
  sent : stream.closed = some .closed → body s.client sid s.written = stream.wrote
  address : s.client = true → payloads sid s.written ≠ []
  live : stream.live = true → stream.closed ≠ some .dropped ∧ sid ∉ s.dropped
  opening : s.doing = .opening sid → stream.live = false ∧ sid ∉ s.dropped
  closing : ∀ {rest}, s.doing = .closing (some sid) rest →
    stream.closed ≠ none ∧ ∃ datas : List Bytes, own sid s.messages = datas.map (.data sid)

def Accounted (s : Session) (sid : Nat) : Prop :=
  match s.streams sid with
  | none => own sid s.messages = [] ∧ sid ∉ s.dropped
  | some stream => Tracks s sid stream

def Accounts (s : Session) : Prop := ∀ sid, Accounted s sid

variable {s s' : Session} {sid : Nat} {stream stream' : Stream} {event : Event}

theorem streams_modify_self (h : s.streams sid = some stream) (f : Stream → Stream) :
    (s.modify sid f).streams sid = some (f stream) := by
  rw [streams_modify, if_pos rfl, h]
  rfl

variable {v : Nat}

theorem streams_modify_of_ne (hv : v ≠ sid) (f : Stream → Stream) : (s.modify sid f).streams v = s.streams v :=
  (streams_modify s sid f v).trans (if_neg hv)

theorem Accounted.tracks (h : Accounted s sid) (hstream : s.streams sid = some stream) : Tracks s sid stream := by
  unfold Accounted at h
  rw [hstream] at h
  exact h

theorem Tracks.accounted (h : Tracks s sid stream) (hstream : s.streams sid = some stream) : Accounted s sid := by
  unfold Accounted
  rw [hstream]
  exact h

theorem Accounted.vacant (h : Accounted s sid) (hstream : s.streams sid = none) :
    own sid s.messages = [] ∧ sid ∉ s.dropped := by
  unfold Accounted at h
  rw [hstream] at h
  exact h

variable {messages : List Message}

theorem Accounted.of_message (h : Accounted s sid)
    (hmsgs : s.messages = message :: messages) (hsid : message.sid = some sid) :
    ∃ stream, s.streams sid = some stream ∧ Tracks s sid stream := by
  cases hstream : s.streams sid with
  | none =>
    have hown := (h.vacant hstream).1
    rw [hmsgs, own_cons_self hsid] at hown
    cases hown
  | some stream => exact ⟨stream, rfl, h.tracks hstream⟩

/-! ## Frames -/

structure Around (sid : Nat) (s s' : Session) : Prop where
  client : s'.client = s.client
  messages : own sid s'.messages = own sid s.messages
  written : payloads sid s'.written = payloads sid s.written
  dropped : sid ∈ s'.dropped → sid ∈ s.dropped
  opening : s'.doing = .opening sid → s.doing = .opening sid
  closing : ∀ {rest}, s'.doing = .closing (some sid) rest → s.doing = .closing (some sid) rest

theorem Around.body (h : Around sid s s') : body s'.client sid s'.written = body s.client sid s.written := by
  unfold AnyTls.body
  rw [h.client, h.written]

theorem Tracks.around (h : Tracks s sid stream) (hsame : Around sid s s') : Tracks s' sid stream where
  queue := by
    rw [hsame.messages, hsame.body]
    exact h.queue
  sent := by
    rw [hsame.body]
    exact h.sent
  address := by
    rw [hsame.client, hsame.written]
    exact h.address
  live hlive := ⟨(h.live hlive).1, fun hin => (h.live hlive).2 (hsame.dropped hin)⟩
  opening hdoing := ⟨(h.opening (hsame.opening hdoing)).1, fun hin =>
    (h.opening (hsame.opening hdoing)).2 (hsame.dropped hin)⟩
  closing hdoing := by
    rw [hsame.messages]
    exact h.closing (hsame.closing hdoing)

theorem Accounted.around (h : Accounted s sid) (hsame : Around sid s s') (hstream : s'.streams sid = s.streams sid) :
    Accounted s' sid := by
  unfold Accounted
  rw [hstream]
  cases hs : s.streams sid with
  | none =>
    refine ⟨hsame.messages.trans (h.vacant hs).1, fun hin => (h.vacant hs).2 (hsame.dropped hin)⟩
  | some => exact (h.tracks hs).around hsame

theorem Accounts.change (h : Accounts s) (sid : Nat) (hother : ∀ v, v ≠ sid → Around v s s' ∧ s'.streams v = s.streams v)
    (hsid : Accounted s' sid) : Accounts s' := by
  intro v
  by_cases hv : v = sid
  · exact hv ▸ hsid
  · exact (h v).around (hother v hv).1 (hother v hv).2

/-! ## Calls -/

variable {tail : List Message}

theorem Tail.settled (h : Tail stream sid tail) (hack : stream.ack ≠ .waiting) :
    tail = [] ∧ (stream.shutdown = true → stream.closed ≠ none) := by
  cases h with
  | data h => exact ⟨rfl, h⟩
  | flush hwaiting => exact absurd hwaiting hack
  | close hwaiting => exact absurd hwaiting hack

theorem Tracks.settled (h : Tracks s sid stream) (hack : stream.ack ≠ .waiting) :
    ∃ datas : List Bytes, own sid s.messages = datas.map (.data sid) ∧ (stream.shutdown = true → stream.closed ≠ none) ∧
      (stream.closed = none → body s.client sid s.written ++ datas.flatten = stream.wrote) := by
  obtain ⟨datas, _, hown, htail, hopen⟩ := h.queue
  obtain ⟨rfl, hshutdown⟩ := htail.settled hack
  exact ⟨datas, by rw [hown, append_nil], hshutdown, hopen⟩

variable {datas : List Bytes}

theorem Tracks.acked (h : Tracks s sid stream) (hown : own sid s.messages = datas.map (.data sid))
    (hshutdown : stream.shutdown = true → stream.closed ≠ none)
    (hopen : stream.closed = none → body s.client sid s.written ++ datas.flatten = stream.wrote) (ack : Ack) :
    Tracks s sid { stream with ack } where
  queue := ⟨datas, [], by rw [hown, append_nil], .data hshutdown, hopen⟩
  sent := h.sent
  address := h.address
  live := h.live
  opening := h.opening
  closing := h.closing

theorem Tracks.post (h : Tracks s sid stream) (hopen : stream.closed = none)
    (hown : own sid s'.messages = datas.map (.data sid) ++ tail) (htail : Tail stream' sid tail)
    (hwrote : body s.client sid s.written ++ datas.flatten = stream'.wrote) (hclosed : stream'.closed = stream.closed)
    (hlive : stream'.live = stream.live) (hclient : s'.client = s.client) (hwritten : s'.written = s.written)
    (hdropped : s'.dropped = s.dropped) (hdoing : s'.doing = s.doing) : Tracks s' sid stream' where
  queue := by
    refine ⟨datas, tail, hown, htail, fun _ => ?_⟩
    rw [hclient, hwritten]
    exact hwrote
  sent hsent := by
    rw [hclosed, hopen] at hsent
    cases hsent
  address := by
    rw [hclient, hwritten]
    exact h.address
  live := by
    rw [hlive, hclosed, hdropped]
    exact h.live
  opening := by
    rw [hdoing, hlive, hdropped]
    exact h.opening
  closing hclosing := by
    rw [hdoing] at hclosing
    exact absurd hopen (h.closing hclosing).1

theorem Around.post (hmessage : message.sid ≠ some v)
    (hmsgs : s'.messages = s.messages ++ [message]) (hclient : s'.client = s.client) (hwritten : s'.written = s.written)
    (hdropped : s'.dropped = s.dropped) (hdoing : s'.doing = s.doing) : Around v s s' where
  client := hclient
  messages := by
    rw [hmsgs, own_append, own_cons_other hmessage]
    exact append_nil _
  written := by rw [hwritten]
  dropped := by
    rw [hdropped]
    exact id
  opening := by
    rw [hdoing]
    exact id
  closing := by
    intro rest
    rw [hdoing]
    exact id

theorem ready_ne_waiting {ack : Ack} (h : ack = .none ∨ ∃ result, ack = .ready result) : ack ≠ .waiting := by
  rcases h with rfl | ⟨result, rfl⟩ <;> exact nofun

theorem Accounts.put (h : Accounts s) (htracks : Tracks s sid stream') : Accounts (s.put sid stream') := by
  have hput : Tracks (s.put sid stream') sid stream' := htracks.around ⟨rfl, rfl, rfl, id, id, id⟩
  refine h.change sid (fun v hv => ⟨⟨rfl, rfl, rfl, id, id, id⟩, ?_⟩) (hput.accounted ?_)
  · rw [streams_put, if_neg hv]
  · rw [streams_put, if_pos rfl]

theorem Accounts.post (h : Accounts s) (hmessage : message.sid = some sid)
    (htracks : Tracks ((s.put sid stream').post message) sid stream') : Accounts ((s.put sid stream').post message) := by
  refine h.change sid (fun v hv => ⟨.post ?_ rfl rfl rfl rfl rfl, ?_⟩) (htracks.accounted ?_)
  · rw [hmessage]
    exact fun heq => hv (some.inj heq).symm
  · exact (streams_put s sid stream' v).trans (if_neg hv)
  · exact (streams_put s sid stream' sid).trans (if_pos rfl)

theorem Accounts.polled (h : Accounts s) (hstream : s.streams sid = some stream) (hpolled : Polled s sid stream s') :
    Accounts s' := by
  have htracks := (h sid).tracks hstream
  have hposted : ∀ {datas : List Bytes} {message : Message}, own sid s.messages = datas.map (.data sid) →
      message.sid = some sid → own sid (s.messages ++ [message]) = datas.map (.data sid) ++ [message] := by
    intro datas message hown hmessage
    rw [own_append, hown, own_cons_self hmessage]
    rfl
  cases hpolled with
  | same => exact h
  | taken hack =>
    obtain ⟨datas, hown, hshutdown, hopen⟩ := htracks.settled (ready_ne_waiting (.inr ⟨_, hack⟩))
    exact h.put (htracks.acked hown hshutdown hopen .none)
  | wrote hopen _ _ hack bytes =>
    obtain ⟨datas, hown, hshutdown, hwrote⟩ := htracks.settled (ready_ne_waiting hack)
    have hdatas : (datas ++ [bytes]).map (.data sid) ++ [] = datas.map (.data sid) ++ [Message.data sid bytes] := by
      simp
    refine h.post rfl (htracks.post hopen ((hposted hown rfl).trans hdatas.symm) (.data hshutdown) ?_ rfl rfl rfl rfl rfl rfl)
    rw [flatten_append, flatten_singleton, ← append_assoc, hwrote hopen]
  | flush hopen hack =>
    obtain ⟨datas, hown, hshutdown, hwrote⟩ := htracks.settled (ready_ne_waiting (.inl hack))
    have hshut : stream.shutdown = false := Bool.eq_false_iff.2 fun h => hshutdown h hopen
    exact h.post rfl (htracks.post hopen (hposted hown rfl) (.flush rfl hshut) (hwrote hopen) rfl rfl rfl rfl rfl rfl)
  | shutdown hopen _ _ hack =>
    obtain ⟨_, hown, _, hwrote⟩ := htracks.settled (ready_ne_waiting hack)
    exact h.post rfl (htracks.post hopen (hposted hown rfl) (.close rfl rfl) (hwrote hopen) rfl rfl rfl rfl rfl rfl)

/-! ## The task -/

theorem Accounts.around (h : Accounts s) (hsame : ∀ v, Around v s s') (hstreams : s'.streams = s.streams) :
    Accounts s' :=
  fun v => (h v).around (hsame v) (congrFun hstreams v)

theorem Tracks.shut (h : Tracks s sid stream) (hsame : Around sid s s') {cause : Cause} (error : Option String)
    (hcause : cause ≠ .closed) (hlive : cause = .dropped → stream.live = false) :
    Tracks s' sid (stream.close cause error) := by
  have hs' := h.around hsame
  have hclosed : (stream.close cause error).closed ≠ none := by
    unfold Stream.close
    cases stream.closed <;> exact nofun
  have hold : ∀ {other}, cause ≠ other → (stream.close cause error).closed = some other → stream.closed = some other := by
    intro other hne heq
    unfold Stream.close at heq
    cases hs : stream.closed with
    | none =>
      simp only [hs] at heq
      exact absurd (some.inj heq) hne
    | some =>
      simp only [hs] at heq
      exact heq
  obtain ⟨datas, tail, hown, htail, -⟩ := hs'.queue
  refine ⟨⟨datas, tail, hown, ?_, fun hnone => absurd hnone hclosed⟩, fun hsent => hs'.sent (hold hcause hsent), hs'.address,
    fun hl => ⟨fun hdropped => ?_, (hs'.live hl).2⟩, hs'.opening, fun hdoing => ⟨hclosed, (hs'.closing hdoing).2⟩⟩
  · cases htail with
    | data => exact .data fun _ => hclosed
    | flush hack hshutdown => exact .flush hack hshutdown
    | close hack hshutdown => exact .close hack hshutdown
  · by_cases hc : cause = .dropped
    · exact Bool.false_ne_true ((hlive hc).symm.trans hl)
    · exact (hs'.live hl).1 (hold hc hdropped)

theorem Accounts.shut (h : Accounts s) (hstream : s.streams sid = some stream) (hsame : ∀ v, Around v s s') {cause : Cause}
    {error : Option String} (hstreams : s'.streams = (s.modify sid (·.close cause error)).streams)
    (hcause : cause ≠ .closed) (hlive : cause = .dropped → stream.live = false) : Accounts s' := by
  have hshut := ((h sid).tracks hstream).shut (hsame sid) error hcause hlive
  refine h.change sid (fun v hv => ⟨hsame v, ?_⟩) (hshut.accounted ?_)
  · rw [hstreams, streams_modify, if_neg hv]
  · rw [hstreams, streams_modify, if_pos rfl, hstream]
    rfl

theorem Around.send {frames : List Frame} (hquiet : ∀ f ∈ frames, f.cmd ≠ .psh) (hwritten : s'.written = s.written ++ frames)
    (hmsgs : s'.messages = s.messages) (hclient : s'.client = s.client) (hdropped : s'.dropped = s.dropped)
    (hopening : ∀ {sid}, s'.doing ≠ .opening sid) (hclosing : ∀ {sid rest}, s'.doing ≠ .closing (some sid) rest) :
    Around v s s' where
  client := hclient
  messages := by rw [hmsgs]
  written := by
    have hnone : payloads v frames = [] :=
      filterMap_eq_nil_iff.2 fun f hf => if_neg fun hpsh => hquiet f hf hpsh.1
    rw [hwritten, payloads_append, hnone, append_nil]
  dropped := by
    rw [hdropped]
    exact id
  opening hdoing := absurd hdoing hopening
  closing hdoing := absurd hdoing hclosing

variable {rest : List Action}

theorem Around.acting (hdoing : s'.doing = .acting rest) (hmsgs : s'.messages = s.messages)
    (hwritten : s'.written = s.written) (hclient : s'.client = s.client) (hdropped : s'.dropped = s.dropped) :
    Around v s s' := by
  have hsent : s'.written = s.written ++ [] := hwritten.trans (append_nil _).symm
  refine .send ?_ hsent hmsgs hclient hdropped ?_ ?_
  · exact fun _ hf => nomatch hf
  · rw [hdoing]
    exact nofun
  · rw [hdoing]
    exact nofun

theorem Accounts.close (h : Accounts s) (hinv : s.Inv) (sid : Nat) {cause : Cause} (error : Option String) (rest : List Action)
    (hcause : cause ≠ .closed) (hlive : cause = .dropped → ∀ {stream}, s.streams sid = some stream → stream.live = false) :
    Accounts (s.close sid cause error none rest) := by
  unfold Session.close
  split_ifs with hsid
  · obtain ⟨_, hstream, -⟩ := map_eq_some_iff.1 (hinv.entries sid hsid)
    refine h.shut hstream (fun _ => .send ?_ rfl rfl rfl rfl nofun nofun) rfl hcause fun hc => hlive hc hstream
    exact forall_mem_singleton.2 nofun
  · exact h.around (fun _ => .acting rfl rfl rfl rfl rfl) rfl

theorem Inv.unused (h : s.Inv) (hnext : s.nextSid < sid) : s.streams sid = none ∧ payloads sid s.written = [] := by
  constructor
  · cases hstream : s.streams sid with
    | none => rfl
    | some =>
      have hknown := h.known (congrArg (Option.map Stream.closed) hstream)
      exact absurd hknown.1 (not_le.2 hnext)
  · refine payloads_quiet fun f hf hsid => Bool.eq_false_iff.2 fun hof => ?_
    exact absurd (hsid ▸ h.frames f hf hof) (not_le.2 hnext)

theorem Accounted.new {live : Bool} (hstream : s.streams sid = some { Stream.new with live })
    (hown : own sid s.messages = []) (hdropped : sid ∉ s.dropped) (hbody : body s.client sid s.written = [])
    (haddress : s.client = true → payloads sid s.written ≠ []) (hopening : s.doing = .opening sid → live = false)
    (hclosing : ∀ {rest}, s.doing ≠ .closing (some sid) rest) : Accounted s sid := by
  have hnew : Tracks s sid { Stream.new with live } :=
    ⟨⟨[], [], hown, .data nofun, fun _ => (append_nil _).trans hbody⟩, nofun, haddress,
      fun _ => ⟨nofun, hdropped⟩, fun hdoing => ⟨hopening hdoing, hdropped⟩, fun hdoing => absurd hdoing hclosing⟩
  exact hnew.accounted hstream

theorem Tracks.head (h : Tracks s sid stream)
    (hmsgs : s.messages = message :: messages) (hsid : message.sid = some sid) :
    (∃ bytes datas tail, message = .data sid bytes ∧ own sid messages = List.map (.data sid) datas ++ tail ∧
      Tail stream sid tail ∧ (stream.closed = none → body s.client sid s.written ++ (bytes ++ datas.flatten) = stream.wrote)) ∨
    (own sid messages = [] ∧ Tail stream sid [message] ∧
      (stream.closed = none → body s.client sid s.written = stream.wrote)) := by
  obtain ⟨datas, tail, hown, htail, hopen⟩ := h.queue
  rw [hmsgs, own_cons_self hsid] at hown
  cases datas with
  | nil =>
    have htail' : message :: own sid messages = tail := hown
    subst htail'
    refine .inr ?_
    have hrest : own sid messages = [] := by
      generalize own sid messages = rest at htail
      cases htail <;> rfl
    rw [hrest] at htail
    exact ⟨hrest, htail, fun hclosed => (append_nil _).symm.trans (hopen hclosed)⟩
  | cons bytes datas =>
    obtain ⟨rfl, hrest⟩ := List.cons.inj hown
    exact .inl ⟨bytes, datas, tail, rfl, hrest, htail, hopen⟩

theorem Inv.closed_iff (h : s.Inv) (hstream : s.streams sid = some stream) : stream.closed = none ↔ sid ∈ s.entries := by
  constructor
  · exact (h.known (congrArg (Option.map Stream.closed) hstream)).2
  · intro hsid
    have hentry := h.entries sid hsid
    rw [hstream] at hentry
    exact some.inj hentry

theorem Around.taken (hmsgs : s.messages = message :: messages)
    (hne : message.sid ≠ some v) (hmsgs' : s'.messages = messages) (hclient : s'.client = s.client)
    (hwritten : payloads v s'.written = payloads v s.written) (hdropped : s'.dropped = s.dropped)
    (hopening : s'.doing ≠ .opening v) (hclosing : ∀ {rest}, s'.doing ≠ .closing (some v) rest) : Around v s s' where
  client := hclient
  messages := by rw [hmsgs, hmsgs', own_cons_other hne]
  written := hwritten
  dropped := by
    rw [hdropped]
    exact id
  opening hdoing := absurd hdoing hopening
  closing hdoing := absurd hdoing hclosing

theorem Tracks.taken (h : Tracks s sid stream) (hstream : s'.streams sid = some stream')
    (hown : own sid s'.messages = datas.map (.data sid) ++ tail) (htail : Tail stream' sid tail)
    (hopen : stream'.closed = none → body s'.client sid s'.written ++ datas.flatten = stream'.wrote)
    (hsent : stream'.closed = some .closed → body s'.client sid s'.written = stream'.wrote)
    (haddress : s'.client = true → payloads sid s'.written ≠ []) (hlive : stream'.live = stream.live)
    (hclosed : stream'.closed = some .dropped → stream.closed = some .dropped) (hdropped : s'.dropped = s.dropped)
    (hopening : s'.doing ≠ .opening sid)
    (hclosing : ∀ {rest}, s'.doing = .closing (some sid) rest → stream'.closed ≠ none ∧ tail = []) :
    Accounted s' sid := by
  have htracks : Tracks s' sid stream' := by
    refine ⟨⟨datas, tail, hown, htail, hopen⟩, hsent, haddress, fun hl => ?_, fun hdoing => absurd hdoing hopening,
      fun hdoing => ?_⟩
    · rw [hlive] at hl
      exact ⟨fun hd => (h.live hl).1 (hclosed hd), hdropped ▸ (h.live hl).2⟩
    · obtain ⟨hne, rfl⟩ := hclosing hdoing
      exact ⟨hne, datas, by rw [hown, append_nil]⟩
  exact htracks.accounted hstream

section Message
variable {messages : List Message} {start : List Frame}

theorem Accounts.messageOpening (h : Accounts s) (hinv : s.Inv) {address : Bytes}
    (hmsgs : s.messages = .opening address :: messages) (hstart : ∀ f ∈ start, f.ofStream = false)
    (hmessage : { s with messages }.message start (.opening address) = .ok s') : Accounts s' := by
  obtain ⟨hclient, -, rfl⟩ := message_opening hmessage
  obtain ⟨hnone, hpayloads⟩ := hinv.unused (lt_add_one s.nextSid)
  obtain ⟨hown, hdropped⟩ := (h _).vacant hnone
  have hsent : ∀ v, payloads v (s.written ++ ((if s.started then [] else start) ++ [⟨.syn, s.nextSid + 1, []⟩,
      ⟨.psh, s.nextSid + 1, address⟩])) = payloads v s.written ++ payloads v [⟨.psh, s.nextSid + 1, address⟩] := by
    intro v
    have hquiet : payloads v (if s.started then [] else start) = [] :=
      payloads_quiet fun f hf _ => starting hstart f hf
    rw [payloads_append, payloads_append, hquiet]
    rfl
  have hnew := hsent (s.nextSid + 1)
  rw [hpayloads, payloads_psh] at hnew
  have hbody := congrArg (fun payloads => (payloads.drop (if s.client then 1 else 0)).flatten) hnew
  have hopening : (Message.opening address).sid ≠ some (s.nextSid + 1) := nofun
  rw [hmsgs, own_cons_other hopening] at hown
  refine h.change (s.nextSid + 1) (fun v hv => ⟨.taken hmsgs nofun rfl rfl ?_ rfl ?_ nofun, ?_⟩)
    (.new (update_self _ _ _) hown hdropped ?_ ?_ (fun _ => rfl) nofun)
  · exact (hsent v).trans (by rw [payloads_psh_other hv, append_nil])
  · exact fun heq => hv (Doing.opening.inj heq).symm
  · exact update_of_ne hv _ _
  · refine hbody.trans ?_
    rw [if_pos hclient]
    rfl
  · intro _
    exact hnew ▸ cons_ne_nil _ _

theorem Accounts.messageData (h : Accounts s) (hinv : s.Inv) (hdoing : s.doing = .acting []) {bytes : Bytes}
    (hmsgs : s.messages = .data sid bytes :: messages)
    (hmessage : { s with messages }.message start (.data sid bytes) = .ok s') : Accounts s' := by
  cases hmessage
  obtain ⟨stream, hstream, htracks⟩ := (h sid).of_message hmsgs rfl
  have hopening : ∀ {v}, s.doing ≠ .opening v := by
    rw [hdoing]
    exact nofun
  have hclosing : ∀ {v rest}, s.doing ≠ .closing (some v) rest := by
    rw [hdoing]
    exact nofun
  rcases htracks.head hmsgs rfl with ⟨bytes', datas, tail, heq, hown, htail, hopen⟩ | ⟨-, htail, -⟩
  · cases heq
    by_cases hsid : sid ∈ s.entries
    · rw [if_pos hsid]
      have hclosed := (hinv.closed_iff hstream).2 hsid
      have hbody := body_psh htracks.address bytes
      refine h.change sid (fun v hv => ⟨.taken hmsgs ?_ rfl rfl ?_ rfl hopening hclosing, rfl⟩)
        (htracks.taken hstream hown htail ?_ ?_ ?_ rfl id rfl hopening fun hd => absurd hd hclosing)
      · exact fun heq => hv (some.inj heq).symm
      · exact (payloads_append _ _ _).trans (by rw [payloads_psh_other hv, append_nil])
      · intro _
        rw [← hopen hclosed, ← append_assoc, ← hbody]
        rfl
      · rw [hclosed]
        exact nofun
      · intro _ hnil
        have happend := (payloads_append sid s.written [⟨.psh, sid, bytes⟩]).symm.trans hnil
        rw [payloads_psh] at happend
        exact append_ne_nil_of_right_ne_nil _ (cons_ne_nil _ _) happend
    · rw [if_neg hsid]
      have hclosed : stream.closed ≠ none := fun hnone => hsid ((hinv.closed_iff hstream).1 hnone)
      refine h.change sid (fun v hv => ⟨.taken hmsgs ?_ rfl rfl rfl rfl hopening hclosing, rfl⟩)
        (htracks.taken hstream hown htail ?_ htracks.sent htracks.address rfl id rfl hopening
          fun hd => absurd hd hclosing)
      · exact fun heq => hv (some.inj heq).symm
      · exact fun hnone => absurd hnone hclosed
  · cases htail

theorem Accounts.messageFlush (h : Accounts s) (hdoing : s.doing = .acting [])
    (hmsgs : s.messages = .flush sid :: messages)
    (hmessage : { s with messages }.message start (.flush sid) = .ok s') : Accounts s' := by
  cases hmessage
  obtain ⟨_, hstream, htracks⟩ := (h sid).of_message hmsgs rfl
  have hopening : ∀ {v}, s.doing ≠ .opening v := by
    rw [hdoing]
    exact nofun
  have hclosing : ∀ {v rest}, s.doing ≠ .closing (some v) rest := by
    rw [hdoing]
    exact nofun
  rcases htracks.head hmsgs rfl with ⟨bytes', datas, tail, heq, -⟩ | ⟨hown, htail, hopen⟩
  · cases heq
  · cases htail with
    | flush _ hshutdown =>
      have hown' : own sid messages = [].map (.data sid) ++ [] := hown
      refine h.change sid (fun v hv => ⟨.taken hmsgs ?_ rfl rfl rfl rfl hopening hclosing, streams_modify_of_ne hv _⟩)
        (htracks.taken (streams_modify_self hstream _) hown' (.data ?_) ?_ htracks.sent htracks.address rfl id rfl hopening
          fun hd => absurd hd hclosing)
      · exact fun heq => hv (some.inj heq).symm
      · exact fun hs => absurd (hshutdown.symm.trans hs) Bool.false_ne_true
      · exact fun hnone => (append_nil _).trans (hopen hnone)

theorem Accounts.messageClose (h : Accounts s) (hinv : s.Inv) (hmsgs : s.messages = .close sid :: messages)
    (hmessage : { s with messages }.message start (.close sid) = .ok s') : Accounts s' := by
  cases hmessage
  obtain ⟨stream, hstream, htracks⟩ := (h sid).of_message hmsgs rfl
  rcases htracks.head hmsgs rfl with ⟨bytes', datas, tail, heq, -⟩ | ⟨hown, htail, hopen⟩
  · cases heq
  · cases htail with
    | close =>
      have hown' : own sid messages = [].map (.data sid) ++ [] := hown
      unfold Session.close
      by_cases hsid : sid ∈ s.entries
      · rw [if_pos hsid]
        have hclosed := (hinv.closed_iff hstream).2 hsid
        have hnow : (stream.close .closed none).closed = some .closed := by
          unfold Stream.close
          rw [hclosed]
          rfl
        have hfin : ∀ v, payloads v (s.written ++ [⟨.fin, sid, []⟩]) = payloads v s.written := by
          intro v
          rw [payloads_append]
          exact append_nil _
        have hbody : body s.client sid (s.written ++ [⟨.fin, sid, []⟩]) = body s.client sid s.written := by
          unfold body
          rw [hfin]
        refine h.change sid (fun v hv => ⟨.taken hmsgs ?_ rfl rfl (hfin v) rfl nofun ?_, streams_modify_of_ne hv _⟩)
          (htracks.taken (streams_modify_self hstream _) hown' (.data ?_) ?_ ?_ ?_ rfl ?_ rfl nofun ?_)
        · exact fun heq => hv (some.inj heq).symm
        · exact fun hd => hv (some.inj (Doing.closing.inj hd).1).symm
        · exact fun _ => hnow ▸ nofun
        · exact fun hnone => absurd (hnow.symm.trans hnone) nofun
        · exact fun _ => hbody.trans (hopen hclosed)
        · exact fun hclient hnil => htracks.address hclient ((hfin sid).symm.trans hnil)
        · exact fun hd => absurd (hnow.symm.trans hd) nofun
        · exact fun _ => ⟨hnow ▸ nofun, rfl⟩
      · rw [if_neg hsid]
        have hclosed : stream.closed ≠ none := fun hnone => hsid ((hinv.closed_iff hstream).1 hnone)
        refine h.change sid (fun v hv => ⟨.taken hmsgs ?_ rfl rfl rfl rfl nofun nofun, streams_modify_of_ne hv _⟩)
          (htracks.taken (streams_modify_self hstream _) hown' (.data ?_) ?_ htracks.sent htracks.address rfl id rfl
            nofun nofun)
        · exact fun heq => hv (some.inj heq).symm
        · exact fun _ => hclosed
        · exact fun hnone => absurd hnone hclosed

end Message

theorem cmd_ne_psh {f : Frame} (hf : f.ofStream = false) : f.cmd ≠ .psh := by
  intro hpsh
  simp [Frame.ofStream, hpsh] at hf

theorem Accounts.act (h : Accounts s) (hinv : s.Inv) {action : Action} {full admitted : Bool}
    {result : Except String Unit} (hdoing : s.doing = .acting (action :: rest))
    (hact : s.act rest full admitted action = (result, s')) : Accounts s' := by
  have haction : action.Allowed s.client := hinv.allowed action (by rw [hdoing]; exact mem_cons_self)
  cases action with
  | sendFrame =>
    cases hact
    exact h.around (fun _ => .send (forall_mem_singleton.2 (cmd_ne_psh haction)) rfl rfl rfl rfl nofun nofun) rfl
  | sendFrameSync =>
    cases hact
    exact h.around (fun _ => .send (forall_mem_singleton.2 (cmd_ne_psh haction)) rfl rfl rfl rfl nofun nofun) rfl
  | pushStreamData sid =>
    cases hact
    split_ifs
    · exact h.close hinv sid _ rest nofun nofun
    · exact h.around (fun _ => .acting rfl rfl rfl rfl rfl) rfl
  | ensureIncomingStream sid =>
    rcases act_ensureIncomingStream hact with ⟨hnext, -, rfl⟩ | ⟨hnext, -, rfl, -⟩ | ⟨rfl, -⟩
    · refine h.around (fun _ => .send ?_ rfl rfl rfl rfl nofun nofun) rfl
      exact forall_mem_cons.2 ⟨nofun, forall_mem_singleton.2 nofun⟩
    · have hserver : s.client = false := haction
      obtain ⟨hnone, hpayloads⟩ := hinv.unused hnext
      obtain ⟨hown, hdropped⟩ := (h _).vacant hnone
      have hsent : payloads sid (s.written ++ [⟨.synAck, sid, []⟩]) = [] := by
        rw [payloads_append, hpayloads]
        rfl
      refine h.change sid (fun v hv => ⟨?_, update_of_ne hv _ _⟩)
        (.new (update_self _ _ _) hown hdropped ?_ ?_ nofun nofun)
      · refine .send ?_ rfl rfl rfl rfl nofun nofun
        exact forall_mem_singleton.2 nofun
      · exact body_of_none hsent
      · exact fun hclient => absurd (hserver.symm.trans hclient) Bool.false_ne_true
    · exact h
  | closeLocalStream sid =>
    cases hact
    by_cases hsid : sid ∈ s.entries
    · rw [if_pos hsid]
      obtain ⟨_, hstream, -⟩ := map_eq_some_iff.1 (hinv.entries sid hsid)
      exact h.shut hstream (fun _ => .acting rfl rfl rfl rfl rfl) rfl nofun nofun
    · rw [if_neg hsid]
      exact h.around (fun _ => .acting rfl rfl rfl rfl rfl) rfl
  | closeRemoteStream sid =>
    cases hact
    exact h.close hinv sid _ rest nofun nofun
  | alertAndFail =>
    cases hact
    refine h.around (fun _ => .send ?_ rfl rfl rfl rfl ?_ ?_) rfl
    · exact forall_mem_singleton.2 nofun
    · exact fun {sid} hd => nomatch hdoing.symm.trans hd
    · exact fun {sid rest} hd => nomatch hdoing.symm.trans hd
  | releaseWriteBuffering =>
    cases hact
    exact h.around (fun _ => .acting rfl rfl rfl rfl rfl) rfl

theorem Accounts.fail (h : Accounts s) (hinv : s.Inv) : Accounts s.fail := by
  intro v
  cases hstream : s.streams v with
  | none =>
    unfold Accounted
    simp only [Session.fail, hstream]
    exact ⟨rfl, not_mem_nil⟩
  | some stream =>
    have htracks := (h v).tracks hstream
    by_cases hv : v ∈ s.entries
    · obtain ⟨ack, hlose⟩ := lose_eq (stream.close .error (some "AnyTLS session closed"))
      have hfailed : s.fail.streams v = some { stream.close .error (some "AnyTLS session closed") with ack } := by
        simp only [Session.fail, hstream, map_some, if_pos hv, hlose]
      have hclosed : (stream.close .error (some "AnyTLS session closed")).closed = some .error := by
        unfold Stream.close
        rw [(hinv.closed_iff hstream).2 hv]
        rfl
      refine Tracks.accounted ?_ hfailed
      refine ⟨⟨[], [], rfl, .data ?_, ?_⟩, ?_, htracks.address, fun _ => ⟨?_, not_mem_nil⟩, nofun, nofun⟩
      all_goals
        simp only [hclosed]
        exact nofun
    · obtain ⟨ack, hlose⟩ := lose_eq stream
      have hfailed : s.fail.streams v = some { stream with ack } := by
        simp only [Session.fail, hstream, map_some, if_neg hv, hlose]
      have hclosed : stream.closed ≠ none := fun hnone => hv ((hinv.closed_iff hstream).1 hnone)
      refine Tracks.accounted ?_ hfailed
      exact ⟨⟨[], [], rfl, .data fun _ => hclosed, fun hnone => absurd hnone hclosed⟩, htracks.sent, htracks.address,
        fun hlive => ⟨(htracks.live hlive).1, not_mem_nil⟩, nofun, nofun⟩

theorem Tail.congr (h : Tail stream sid tail) (hack : stream'.ack = stream.ack)
    (hshutdown : stream'.shutdown = stream.shutdown) (hclosed : stream'.closed = stream.closed) : Tail stream' sid tail := by
  cases h with
  | data h => exact .data (by rw [hshutdown, hclosed]; exact h)
  | flush hwaiting h => exact .flush (hack.trans hwaiting) (hshutdown.trans h)
  | close hwaiting h => exact .close (hack.trans hwaiting) (hshutdown.trans h)

theorem Accounts.owner (h : Accounts s) (hstream : s.streams sid = some stream) (live : Bool) {dropped : List Nat}
    {doing : Doing} (hother : ∀ v, v ≠ sid → v ∈ dropped → v ∈ s.dropped)
    (hlive : live = true → stream.closed ≠ some .dropped ∧ sid ∉ dropped)
    (hopening : ∀ {v}, doing = .opening v → v ≠ sid ∧ s.doing = .opening v)
    (hclosing : ∀ {v rest}, doing = .closing (some v) rest → s.doing = .closing (some v) rest) :
    Accounts { s.put sid { stream with live } with dropped, doing } := by
  have htracks := (h sid).tracks hstream
  refine h.change sid (fun v hv => ⟨⟨rfl, rfl, rfl, hother v hv, fun hd => (hopening hd).2, hclosing⟩, ?_⟩) ?_
  · exact (streams_put s sid _ v).trans (if_neg hv)
  · obtain ⟨datas, tail, hown, htail, hopen⟩ := htracks.queue
    have howned : Tracks { s.put sid { stream with live } with dropped, doing } sid { stream with live } :=
      ⟨⟨datas, tail, hown, htail.congr rfl rfl rfl, hopen⟩, htracks.sent, htracks.address, hlive,
        fun hd => absurd rfl (hopening hd).1, fun hd => htracks.closing (hclosing hd)⟩
    exact howned.accounted ((streams_put s sid _ sid).trans (if_pos rfl))

theorem Accounts.answer (h : Accounts s) {reply : Option Nat} (hdoing : s.doing = .closing reply rest) :
    Accounts { s.answer reply with doing := .acting rest } := by
  cases reply with
  | none => exact h.around (fun _ => .acting rfl rfl rfl rfl rfl) rfl
  | some sid =>
    have hsame : ∀ v, Around v s { s.answer (some sid) with doing := .acting rest } :=
      fun _ => .acting rfl rfl rfl rfl rfl
    cases hstream : s.streams sid with
    | none =>
      refine h.change sid (fun v hv => ⟨hsame v, streams_modify_of_ne hv _⟩) ((h sid).around (hsame sid) ?_)
      refine (streams_modify s sid _ sid).trans ?_
      rw [if_pos rfl, hstream]
      rfl
    | some =>
      have htracks := (h sid).tracks hstream
      obtain ⟨hclosed, _, hown⟩ := htracks.closing hdoing
      have hacked := htracks.acked hown (fun _ => hclosed) (fun hnone => absurd hnone hclosed) (.ready (.ok ()))
      exact h.change sid (fun v hv => ⟨hsame v, streams_modify_of_ne hv _⟩)
        ((hacked.around (hsame sid)).accounted (streams_modify_self hstream _))

theorem Step.accounts (hstep : Step s event s') (hinv : s.Inv) (h : Accounts s) : Accounts s' := by
  cases hstep with
  | opening =>
    refine h.around (fun v => .post ?_ rfl rfl rfl rfl rfl) rfl
    exact nofun
  | write hstream _ bytes => exact h.polled hstream (pollWrite_polled hstream bytes)
  | flush hstream => exact h.polled hstream (pollFlush_polled hstream)
  | shutdown hstream => exact h.polled hstream (pollShutdown_polled hstream)
  | @drop _ _ hstream hlive =>
    refine h.owner hstream false (fun v hv hin => ?_) nofun (fun {v} hd => ⟨?_, hd⟩) id
    · split_ifs at hin
      · exact hin
      · exact (mem_append.1 hin).resolve_right fun heq => hv (mem_singleton.1 heq)
    · rintro rfl
      exact Bool.false_ne_true ((((h v).tracks hstream).opening hd).1.symm.trans hlive)
  | flushed hstream hack =>
    have htracks := (h _).tracks hstream
    obtain ⟨_, hown, hshutdown, hopen⟩ := htracks.settled (hack ▸ nofun)
    exact h.put (htracks.acked hown hshutdown hopen _)
  | @message _ message _ _ hdoing hmsgs hstart hmessage =>
    cases message with
    | opening => exact h.messageOpening hinv hmsgs hstart hmessage
    | data => exact h.messageData hinv hdoing hmsgs hmessage
    | flush => exact h.messageFlush hdoing hmsgs hmessage
    | close => exact h.messageClose hinv hmsgs hmessage
  | @opened sid _ hdoing hstream delivered =>
    have htracks := (h sid).tracks hstream
    refine h.owner hstream delivered (fun v hv hin => ?_) (fun hd => ?_) nofun nofun
    · split_ifs at hin
      · exact hin
      · exact (mem_append.1 hin).resolve_right fun heq => hv (mem_singleton.1 heq)
    · rw [(hinv.closed_iff hstream).2 (hinv.opening hdoing), if_pos hd]
      exact ⟨nofun, (htracks.opening hdoing).2⟩
  | @dropped sid dropped _ hdropped =>
    have hin : ∀ v, v ∈ dropped → v ∈ s.dropped := fun v hv => hdropped ▸ mem_cons_of_mem _ hv
    have hrest : Accounts { s with dropped } := h.around (fun v => ⟨rfl, rfl, rfl, hin v, id, id⟩) rfl
    have hinv' : Inv { s with dropped } := hinv.frame rfl rfl rfl rfl rfl (.refl _) hinv.allowed id
    refine hrest.close hinv' sid none [] nofun fun _ stream hstream => Bool.eq_false_iff.2 fun hlive => ?_
    exact (((h sid).tracks hstream).live hlive).2 (hdropped ▸ mem_cons_self)
  | closed hdoing => exact h.answer hdoing
  | received => exact h.around (fun _ => .acting rfl rfl rfl rfl rfl) rfl
  | act hdoing hact => exact h.act hinv hdoing hact
  | actFailed hdoing hact => exact (h.act hinv hdoing hact).fail (hinv.act hdoing hact)
  | failed => exact h.fail hinv

theorem accounts_new (client : Bool) : Accounts (new client) := fun _ => ⟨rfl, not_mem_nil⟩

theorem Reachable.accounts (h : Reachable client s) : Accounts s := by
  induction h with
  | new => exact accounts_new client
  | step hs hstep ih => exact hstep.accounts hs.inv ih

/-! ## The output of a session -/

structure WellFormed (client : Bool) (s : Session) : Prop where
  ordered : ∀ ⦃before after : List Frame⦄ ⦃f : Frame⦄, s.written = before ++ f :: after → f.cmd = .fin →
    ∀ g ∈ after, g.sid = f.sid → g.cmd ≠ .psh ∧ g.cmd ≠ .fin
  /-- Nothing is sent for a stream after the peer's FIN. All ids that were ever opened are at most `nextSid`. -/
  silent : ∀ ⦃sid : Nat⦄ ⦃rest : List Action⦄ ⦃full admitted : Bool⦄ ⦃s₁ s₂ : Session⦄,
    s.doing = .acting (.closeLocalStream sid :: rest) → sid ≤ s.nextSid →
    s.act rest full admitted (.closeLocalStream sid) = (.ok (), s₁) → Run s₁ s₂ →
    ∃ more, s₂.written = s.written ++ more ∧ ∀ f ∈ more, f.sid = sid → f.cmd ≠ .psh ∧ f.cmd ≠ .fin
  opened : s.opened.Pairwise (· < ·) ∧ ∀ sid ∈ s.opened, sid ≤ s.nextSid
  entries : s.entries.card ≤ if client then 1 else maxStreams
  complete : ∀ ⦃sid : Nat⦄ ⦃stream : Stream⦄, s.streams sid = some stream → stream.live = true →
    (s.pollShutdown sid stream).1 = .ready (.ok ()) → stream.closed ≠ some .peer → stream.closed ≠ some .error →
    body client sid s.written = stream.wrote

theorem not_ofStream {f : Frame} (h : f.ofStream = false) : f.cmd ≠ .psh ∧ f.cmd ≠ .fin := by
  constructor
  · intro hpsh
    simp [Frame.ofStream, hpsh] at h
  · intro hfin
    simp [Frame.ofStream, hfin] at h

/-- A shutdown succeeds once the stream is closed, or was already shut down and has its answer. -/
theorem pollShutdown_ok (h : (s.pollShutdown sid stream).1 = .ready (.ok ())) :
    stream.ack ≠ .waiting ∧ (stream.shutdown = true ∨ stream.closed.isSome = true) := by
  unfold pollShutdown at h
  split at h
  · cases h
  · cases h
  · next stream' heq =>
    obtain ⟨rfl, hack⟩ := pollAck_ready heq
    refine ⟨ready_ne_waiting (hack.imp And.left fun h => ⟨_, h⟩), ?_⟩
    by_contra hclosed
    rw [if_neg hclosed] at h
    split at h <;> cases h

theorem Tracks.complete (h : Tracks s sid stream) (hlive : stream.live = true)
    (hdone : (s.pollShutdown sid stream).1 = .ready (.ok ())) (hpeer : stream.closed ≠ some .peer)
    (herror : stream.closed ≠ some .error) : body s.client sid s.written = stream.wrote := by
  obtain ⟨hack, hshut⟩ := pollShutdown_ok hdone
  obtain ⟨_, _, hshutdown, -⟩ := h.settled hack
  have hclosed : stream.closed ≠ none := by
    rcases hshut with hshut | hsome
    · exact hshutdown hshut
    · exact isSome_iff_ne_none.1 hsome
  obtain ⟨cause, hcause⟩ := ne_none_iff_exists'.1 hclosed
  cases cause with
  | closed => exact h.sent hcause
  | dropped => exact absurd hcause (h.live hlive).1
  | peer => exact absurd hcause hpeer
  | error => exact absurd hcause herror

theorem Inv.silent (h : s.Inv) {full admitted : Bool} {s₁ s₂ : Session}
    (hdoing : s.doing = .acting (.closeLocalStream sid :: rest)) (hsid : sid ≤ s.nextSid)
    (hact : s.act rest full admitted (.closeLocalStream sid) = (.ok (), s₁)) (hrun : Run s₁ s₂) :
    ∃ more, s₂.written = s.written ++ more ∧ ∀ f ∈ more, f.sid = sid → f.ofStream = false := by
  have hinv := h.act hdoing hact
  cases hact
  by_cases hentry : sid ∈ s.entries
  · rw [if_pos hentry] at hrun hinv
    have hsilent := Run.silent hrun hinv hsid (Finset.notMem_erase _ _)
    exact hsilent
  · rw [if_neg hentry] at hrun hinv
    have hsilent := Run.silent hrun hinv hsid hentry
    exact hsilent

/-- **The output of a session is well formed**: streams end with one FIN, or the peer's; ids are used once; and what a
shutdown confirms was sent. -/
theorem Reachable.well_formed {client : Bool} (h : Reachable client s) : WellFormed client s where
  ordered before after f hsplit hfin g hg hsid := not_ofStream (h.inv.ordered hsplit hfin g hg hsid)
  silent sid rest full admitted s₁ s₂ hdoing hsid hact hrun := by
    obtain ⟨more, hmore, hframes⟩ := h.inv.silent hdoing hsid hact hrun
    exact ⟨more, hmore, fun f hf heq => not_ofStream (hframes f hf heq)⟩
  opened := h.inv.opened
  entries := h.client ▸ h.inv.bound
  complete sid stream hstream hlive hdone hpeer herror := by
    rw [← h.client]
    exact ((h.accounts sid).tracks hstream).complete hlive hdone hpeer herror

theorem well_formed_one_byte : ∃ s stream, Reachable true s ∧ s.streams 1 = some stream ∧ stream.live = true ∧
    (s.pollShutdown 1 stream).1 = .ready (.ok ()) ∧ body true 1 s.written = [7] := by
  have hstart : ∀ frame ∈ ([] : List Frame), frame.ofStream = false := nofun
  have hopening := Reachable.step .new (@Step.opening (new true) rfl [1])
  have hmessage := hopening.step (@Step.message _ _ _ _ [] rfl rfl hstart rfl)
  have hopened := hmessage.step (@Step.opened _ 1 _ rfl rfl true)
  have hwrite := hopened.step (@Step.write _ 1 _ rfl rfl [7])
  have hdata := hwrite.step (@Step.message _ _ _ _ [] rfl rfl hstart rfl)
  have hshutdown := hdata.step (@Step.shutdown _ 1 _ rfl rfl)
  have hclose := hshutdown.step (@Step.message _ _ _ _ [] rfl rfl hstart rfl)
  have hclosed := hclose.step (@Step.closed _ _ _ rfl)
  have hcomplete := @hclosed.well_formed.complete 1 ⟨[7], true, .ready (.ok ()), some .closed, none, true⟩ rfl rfl rfl
  exact ⟨_, _, hclosed, rfl, rfl, rfl, hcomplete nofun nofun⟩

end Session

end Kotoconn.AnyTls
