import Kotoconn.Lib.Bytes
import Kotoconn.Lib.Channel

/-!
# `session.rs`, `stream.rs`: an AnyTLS session and its streams

`Session.Step`: one step of the task, of the writer or of an owner of a stream. The task may end at any time.

The engine answers frames with any actions that `Action.Allowed` admits. The writer confirms a flush at any time, or
ends the session; receive credit may run out at any time; what a stream receives is left out.
-/

namespace Kotoconn.AnyTls
open Lib Function

inductive Command where
  | syn
  | psh
  | fin
  | synAck
  | alert
  | other (code : UInt8)
  deriving DecidableEq

structure Frame where
  cmd : Command
  sid : Nat
  data : Bytes
  deriving DecidableEq

def Frame.ofStream (f : Frame) : Bool := f.cmd = .psh || f.cmd = .fin

/-- `ProtocolAction` -/
inductive Action where
  | sendFrame (frame : Frame)
  | sendFrameSync (frame : Frame)
  | pushStreamData (sid : Nat) (data : Bytes)
  | ensureIncomingStream (sid : Nat)
  | closeLocalStream (sid : Nat)
  | closeRemoteStream (sid : Nat) (message : String)
  | alertAndFail (message : String)
  | releaseWriteBuffering

def Action.Allowed (client : Bool) : Action → Prop
  | sendFrame frame | sendFrameSync frame => frame.ofStream = false
  | ensureIncomingStream _ => client = false
  | _ => True

inductive Message where
  | opening (address : Bytes)
  | data (sid : Nat) (bytes : Bytes)
  | flush (sid : Nat)
  | close (sid : Nat)
  deriving DecidableEq

/-- `LogicalStream::flushing` -/
inductive Ack where
  | none
  | waiting
  | flushing
  | ready (result : Except String Unit)

inductive Cause where
  /-- its own `Close` -/
  | closed
  | dropped
  | peer
  | error
  deriving DecidableEq

/-- A `LogicalStream` and its `Status`. -/
structure Stream where
  /-- ghost: the bytes that `poll_write` accepted -/
  wrote : Bytes
  shutdown : Bool
  ack : Ack
  /-- `some` once the token is cancelled; by what is a ghost -/
  closed : Option Cause
  error : Option String
  live : Bool

namespace Stream

def new : Stream := ⟨[], false, .none, none, none, false⟩

def close (s : Stream) (cause : Cause) (error : Option String) : Stream :=
  { s with closed := s.closed <|> some cause, error := s.error <|> error }

/-- The text of `Status::error`. -/
def errorText (s : Stream) : String := s.error.getD "AnyTLS stream closed"

def pollAck (s : Stream) : Poll (Except String Unit) × Stream :=
  match s.ack with
  | .none => (.ready (.ok ()), s)
  | .waiting | .flushing => (.pending, s)
  | .ready result => (.ready result, { s with ack := .none })

def lose (s : Stream) : Stream :=
  match s.ack with
  | .waiting | .flushing => { s with ack := .ready (.error "broken pipe") }
  | _ => s

end Stream

inductive Doing where
  | acting (rest : List Action)
  | opening (sid : Nat)
  /-- waits for the writer, and then answers the `Close` of a stream -/
  | closing (reply : Option Nat) (rest : List Action)

structure Session where
  client : Bool
  entries : Finset Nat
  nextSid : Nat
  started : Bool
  messages : List Message
  dropped : List Nat
  doing : Doing
  ended : Bool
  streams : Nat → Option Stream
  /-- ghost: the frames handed to the writer, and the streams in the order of their opening -/
  written : List Frame
  opened : List Nat

namespace Session

def maxStreams : Nat := 128

def new (client : Bool) : Session where
  client
  entries := ∅
  nextSid := 0
  started := false
  messages := []
  dropped := []
  doing := .acting []
  ended := false
  streams _ := none
  written := []
  opened := []

def put (s : Session) (sid : Nat) (stream : Stream) : Session :=
  { s with streams := update s.streams sid (some stream) }

def modify (s : Session) (sid : Nat) (f : Stream → Stream) : Session :=
  { s with streams := update s.streams sid ((s.streams sid).map f) }

theorem streams_put (s : Session) (sid : Nat) (stream : Stream) (v : Nat) :
    (s.put sid stream).streams v = if v = sid then some stream else s.streams v := update_apply _ _ _ _

theorem streams_modify (s : Session) (sid : Nat) (f : Stream → Stream) (v : Nat) :
    (s.modify sid f).streams v = if v = sid then (s.streams v).map f else s.streams v := by
  unfold modify
  by_cases hv : v = sid
  · subst hv
    simp
  · simp [hv]

/-! ## The session task -/

def stream (s : Session) (sid : Nat) (live : Bool) : Session :=
  { s with
    entries := insert sid s.entries
    streams := update s.streams sid (some { Stream.new with live })
    opened := s.opened ++ [sid] }

def send (s : Session) (frames : List Frame) : Session := { s with written := s.written ++ frames }

/-- `complete.send(Ok(()))` for the `Close` of a stream. -/
def answer (s : Session) (reply : Option Nat) : Session :=
  match reply with
  | none => s
  | some sid => s.modify sid fun stream => { stream with ack := .ready (.ok ()) }

/-- `Session::close`, until it waits for the writer. -/
def close (s : Session) (sid : Nat) (cause : Cause) (error : Option String) (reply : Option Nat) (rest : List Action) :
    Session :=
  if sid ∈ s.entries then
    { (s.modify sid (·.close cause error)).send [⟨.fin, sid, []⟩] with
      entries := s.entries.erase sid, doing := .closing reply rest }
  else { s.answer reply with doing := .acting rest }

/-- `Session::message`; `start` are the frames of `Engine::on_session_start`. -/
def message (s : Session) (start : List Frame) : Message → Except String Session
  | .opening address =>
    if s.client ∧ s.entries = ∅ then
      if s.nextSid + 1 < 2 ^ 32 then
        let sid := s.nextSid + 1
        let frames := (if s.started then [] else start) ++ [⟨.syn, sid, []⟩, ⟨.psh, sid, address⟩]
        .ok { (s.stream sid false).send frames with nextSid := sid, started := true, doing := .opening sid }
      else .error "AnyTLS stream IDs exhausted"
    else .error "AnyTLS session is busy"
  | .data sid bytes => .ok (if sid ∈ s.entries then s.send [⟨.psh, sid, bytes⟩] else s)
  | .flush sid =>
    .ok (s.modify sid fun stream =>
      { stream with ack := if sid ∈ s.entries then .flushing else .ready (.error "broken pipe") })
  | .close sid => .ok (s.close sid .closed none (some sid) [])

/-- One action of a frame. `full`: the stream takes no data; `admitted`: `incoming` takes the stream. An error ends the
session. -/
def act (s : Session) (rest : List Action) (full admitted : Bool) : Action → Except String Unit × Session
  | .sendFrame frame | .sendFrameSync frame => (.ok (), { s.send [frame] with doing := .acting rest })
  | .pushStreamData sid _ =>
    (.ok (), if full then s.close sid .error (some "AnyTLS receive queue full or consumer closed") none rest
      else { s with doing := .acting rest })
  | .ensureIncomingStream sid =>
    if s.nextSid < sid then
      if maxStreams ≤ s.entries.card then
        (.ok (), { s.send [⟨.synAck, sid, "stream limit reached".toUTF8.toList⟩, ⟨.fin, sid, []⟩] with
          nextSid := sid, doing := .acting rest })
      else (if admitted then .ok () else .error "incoming",
        { (s.stream sid admitted).send [⟨.synAck, sid, []⟩] with nextSid := sid, doing := .acting rest })
    else (.error "AnyTLS stream IDs must increase", s)
  | .closeLocalStream sid =>
    (.ok (), if sid ∈ s.entries then
      { s.modify sid (·.close .peer none) with entries := s.entries.erase sid, doing := .acting rest }
      else { s with doing := .acting rest })
  | .closeRemoteStream sid message => (.ok (), s.close sid .error (some message) none rest)
  | .alertAndFail message => (.error message, s.send [⟨.alert, 0, message.toUTF8.toList⟩])
  | .releaseWriteBuffering => (.ok (), { s with doing := .acting rest })

def fail (s : Session) : Session :=
  { s with
    entries := ∅
    messages := []
    dropped := []
    doing := .acting []
    ended := true
    streams := fun sid => (s.streams sid).map fun stream =>
      (if sid ∈ s.entries then stream.close .error (some "AnyTLS session closed") else stream).lose }

/-! ## The streams -/

def reserve (s : Session) : Poll (Except Unit Unit) :=
  if s.ended then .ready (.error ()) else if s.messages.length < 64 then .ready (.ok ()) else .pending

def post (s : Session) (message : Message) : Session := { s with messages := s.messages ++ [message] }

def chunk : Nat := 16 * 1024

def pollWrite (s : Session) (sid : Nat) (stream : Stream) (bytes : Bytes) : Poll (Except String Nat) × Session :=
  if stream.shutdown ∨ stream.closed.isSome then (.ready (.error stream.errorText), s)
  else match stream.pollAck with
    | (.pending, _) => (.pending, s)
    | (.ready (.error e), stream) => (.ready (.error e), s.put sid stream)
    | (.ready (.ok ()), stream) =>
      if bytes = [] then (.ready (.ok 0), s.put sid stream)
      else match s.reserve with
        | .pending => (.pending, s.put sid stream)
        | .ready (.error ()) => (.ready (.error stream.errorText), s.put sid stream)
        | .ready (.ok ()) =>
          (.ready (.ok (bytes.take chunk).length),
            (s.put sid { stream with wrote := stream.wrote ++ bytes.take chunk }).post (.data sid (bytes.take chunk)))

def pollFlush (s : Session) (sid : Nat) (stream : Stream) : Poll (Except String Unit) × Session :=
  match stream.ack with
  | .none =>
    if stream.closed.isSome then (.ready (.error stream.errorText), s)
    else match s.reserve with
      | .pending => (.pending, s)
      | .ready (.error ()) => (.ready (.error stream.errorText), s)
      | .ready (.ok ()) => (.pending, (s.put sid { stream with ack := .waiting }).post (.flush sid))
  | _ => (stream.pollAck.1, s.put sid stream.pollAck.2)

def pollShutdown (s : Session) (sid : Nat) (stream : Stream) : Poll (Except String Unit) × Session :=
  match stream.pollAck with
  | (.pending, _) => (.pending, s)
  | (.ready (.error e), stream) => (.ready (.error e), s.put sid stream)
  | (.ready (.ok ()), stream) =>
    if stream.shutdown ∨ stream.closed.isSome then (.ready (.ok ()), s.put sid stream)
    else match s.reserve with
      | .pending => (.pending, s.put sid stream)
      | .ready (.error ()) => (.ready (.error stream.errorText), s.put sid stream)
      | .ready (.ok ()) => (.pending, (s.put sid { stream with shutdown := true, ack := .waiting }).post (.close sid))

/-! ## Interleavings -/

inductive Event where
  /-- an `Open` is queued -/
  | opening
  /-- the callback `idle` is called -/
  | idle
  | other
  deriving DecidableEq

/-- `Session::idle` is called with these entries. -/
def idleEvent (s : Session) (entries : Finset Nat) : Event := if s.client ∧ entries = ∅ then .idle else .other

def actEvent (s : Session) : Action → Event
  | .closeLocalStream sid => if sid ∈ s.entries then s.idleEvent (s.entries.erase sid) else .other
  | _ => .other

inductive Step : Session → Event → Session → Prop
  -- `Handle::open`, the streams and the writer
  | opening {s : Session} (hroom : s.reserve = .ready (.ok ())) (address : Bytes) :
      Step s .opening (s.post (.opening address))
  | write {s : Session} {sid : Nat} {stream : Stream} (hstream : s.streams sid = some stream) (hlive : stream.live = true)
      (bytes : Bytes) : Step s .other (s.pollWrite sid stream bytes).2
  | flush {s : Session} {sid : Nat} {stream : Stream} (hstream : s.streams sid = some stream)
      (hlive : stream.live = true) : Step s .other (s.pollFlush sid stream).2
  | shutdown {s : Session} {sid : Nat} {stream : Stream} (hstream : s.streams sid = some stream)
      (hlive : stream.live = true) : Step s .other (s.pollShutdown sid stream).2
  | drop {s : Session} {sid : Nat} {stream : Stream} (hstream : s.streams sid = some stream) (hlive : stream.live = true) :
      Step s .other { s.put sid { stream with live := false } with
        dropped := if s.ended then s.dropped else s.dropped ++ [sid] }
  | flushed {s : Session} {sid : Nat} {stream : Stream} (hstream : s.streams sid = some stream)
      (hack : stream.ack = .flushing) (result : Except String Unit) :
      Step s .other (s.put sid { stream with ack := .ready result })
  -- the session task
  | message {s s' : Session} {message : Message} {messages : List Message} {start : List Frame}
      (hdoing : s.doing = .acting []) (hmsgs : s.messages = message :: messages)
      (hstart : ∀ frame ∈ start, frame.ofStream = false)
      (h : { s with messages }.message start message = .ok s') : Step s .other s'
  | opened {s : Session} {sid : Nat} {stream : Stream} (hdoing : s.doing = .opening sid)
      (hstream : s.streams sid = some stream) (delivered : Bool) :
      Step s .other { s.put sid { stream with live := delivered } with
        doing := .acting [], dropped := if delivered then s.dropped else s.dropped ++ [sid] }
  | dropped {s : Session} {sid : Nat} {dropped : List Nat} (hdoing : s.doing = .acting [])
      (hdropped : s.dropped = sid :: dropped) : Step s .other ({ s with dropped }.close sid .dropped none none [])
  | closed {s : Session} {reply : Option Nat} {rest : List Action} (hdoing : s.doing = .closing reply rest) :
      Step s (s.idleEvent s.entries) { s.answer reply with doing := .acting rest }
  | received {s : Session} (hdoing : s.doing = .acting []) (hrunning : s.ended = false) (actions : List Action)
      (hactions : ∀ action ∈ actions, action.Allowed s.client) : Step s .other { s with doing := .acting actions }
  | act {s s' : Session} {action : Action} {rest : List Action} {full admitted : Bool}
      (hdoing : s.doing = .acting (action :: rest)) (h : s.act rest full admitted action = (.ok (), s')) :
      Step s (s.actEvent action) s'
  | actFailed {s s' : Session} {action : Action} {rest : List Action} {full admitted : Bool} {e : String}
      (hdoing : s.doing = .acting (action :: rest)) (h : s.act rest full admitted action = (.error e, s')) :
      Step s .other s'.fail
  | failed {s : Session} (hrunning : s.ended = false) : Step s .other s.fail

abbrev Run : Session → Session → Prop := Relation.ReflTransGen fun s s' => ∃ event, Step s event s'

inductive Reachable (client : Bool) : Session → Prop
  | new : Reachable client (new client)
  | step {s s' : Session} {event : Event} (h : Reachable client s) (hstep : Step s event s') : Reachable client s'

end Session

end Kotoconn.AnyTls
