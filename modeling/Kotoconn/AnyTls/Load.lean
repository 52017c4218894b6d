import Kotoconn.AnyTls.Output

/-!
# The load of a client session

`Session.load` counts what a session was opened for and has not finished: an `Open` that waits, a stream with an entry,
a FIN that waits for the writer. Only an `Open` adds to it, and a call of `idle` takes from it (`Session.Step.load`).
-/

namespace Kotoconn.AnyTls

def Message.isOpening : Message → Bool
  | opening _ => true
  | _ => false

def Doing.closes : Doing → Nat
  | closing _ _ => 1
  | _ => 0

namespace Session

def load (s : Session) : Nat := s.messages.countP Message.isOpening + s.entries.card + s.doing.closes

def Event.enters : Event → Nat
  | .opening => 1
  | _ => 0

def Event.leaves : Event → Nat
  | .idle => 1
  | _ => 0

variable {s s' : Session} {sid : Nat} {stream : Stream} {event : Event}

theorem load_post {message : Message} (h : message.isOpening = false) (s : Session) : (s.post message).load = s.load := by
  unfold load post
  rw [List.countP_append, List.countP_singleton, h]
  rfl

theorem Polled.load (h : Polled s sid stream s') : s'.load = s.load := by
  cases h with
  | same => rfl
  | taken => rfl
  | wrote => exact load_post rfl _
  | flush => exact load_post rfl _
  | shutdown => exact load_post rfl _

theorem load_answer (s : Session) (reply : Option Nat) (rest : List Action) :
    load { s.answer reply with doing := .acting rest } = s.messages.countP Message.isOpening + s.entries.card := by
  cases reply <;> rfl

theorem load_acting {actions : List Action} (h : s.doing = .acting actions) :
    s.load = s.messages.countP Message.isOpening + s.entries.card := by
  unfold load
  rw [h]
  rfl

theorem load_close (hdoing : s.doing.closes = 0) (sid : Nat) (cause : Cause) (error : Option String) (reply : Option Nat)
    (rest : List Action) : (s.close sid cause error reply rest).load ≤ s.load := by
  unfold Session.close
  split_ifs with hsid
  · have hcard := Finset.card_erase_add_one hsid
    show s.messages.countP Message.isOpening + (s.entries.erase sid).card + 1 ≤ s.load
    unfold load
    omega
  · rw [load_answer]
    exact le_self_add

theorem load_message (hdoing : s.doing = .acting []) {message : Message} {messages : List Message} {start : List Frame}
    (hmsgs : s.messages = message :: messages) (h : { s with messages }.message start message = .ok s') :
    s'.load ≤ s.load := by
  have hload := load_acting hdoing
  rw [hmsgs, List.countP_cons] at hload
  have htaken : load { s with messages } = messages.countP Message.isOpening + s.entries.card := load_acting hdoing
  have hrest : load { s with messages } ≤ s.load := by omega
  cases message with
  | opening address =>
    obtain ⟨-, -, rfl⟩ := message_opening h
    have hcard := Finset.card_insert_le (s.nextSid + 1) s.entries
    have hone : (if (Message.opening address).isOpening = true then 1 else 0) = 1 := rfl
    show messages.countP Message.isOpening + (insert (s.nextSid + 1) s.entries).card + 0 ≤ s.load
    omega
  | data =>
    cases h
    refine le_trans (le_of_eq ?_) hrest
    split_ifs <;> rfl
  | flush =>
    cases h
    exact hrest
  | close sid =>
    cases h
    refine le_trans (load_close ?_ sid .closed none (some sid) []) hrest
    show s.doing.closes = 0
    rw [hdoing]
    rfl

theorem leaves_le (event : Event) : event.leaves ≤ 1 := by
  cases event <;> decide

theorem load_act {action : Action} {rest : List Action} {full admitted : Bool} (hclient : s.client = true)
    (hallowed : action.Allowed s.client) (hdoing : s.doing = .acting (action :: rest))
    (h : s.act rest full admitted action = (.ok (), s')) : s'.load + (s.actEvent action).leaves ≤ s.load := by
  have hacting : load { s with doing := .acting rest } = s.load := by
    rw [load_acting hdoing]
    rfl
  have hcloses : s.doing.closes = 0 := by
    rw [hdoing]
    rfl
  cases action with
  | sendFrame =>
    cases h
    exact le_of_eq hacting
  | sendFrameSync =>
    cases h
    exact le_of_eq hacting
  | pushStreamData =>
    cases h
    split_ifs
    · exact load_close hcloses _ _ _ _ _
    · exact le_of_eq hacting
  | ensureIncomingStream => exact absurd (hclient.symm.trans hallowed) nofun
  | closeLocalStream sid =>
    cases h
    by_cases hsid : sid ∈ s.entries
    · have hcard := Finset.card_erase_add_one hsid
      have hleaves := leaves_le (s.actEvent (.closeLocalStream sid))
      rw [if_pos hsid, load_acting hdoing]
      show s.messages.countP Message.isOpening + (s.entries.erase sid).card + 0 + _ ≤ _
      omega
    · have hevent : s.actEvent (.closeLocalStream sid) = .other := if_neg hsid
      rw [if_neg hsid, hevent]
      exact le_of_eq hacting
  | closeRemoteStream =>
    cases h
    exact load_close hcloses _ _ _ _ _
  | alertAndFail => cases h
  | releaseWriteBuffering =>
    cases h
    exact le_of_eq hacting

/-- **What a step does to the load of a client session.** -/
theorem Step.load (hstep : Step s event s') (hinv : s.Inv) (hclient : s.client = true) :
    s'.load + event.leaves ≤ s.load + event.enters := by
  cases hstep with
  | opening =>
    unfold Session.load post
    rw [List.countP_append]
    show s.messages.countP Message.isOpening + 1 + s.entries.card + s.doing.closes + 0 ≤ _
    show _ ≤ s.messages.countP Message.isOpening + s.entries.card + s.doing.closes + 1
    omega
  | write hstream _ bytes => exact le_of_eq (pollWrite_polled hstream bytes).load
  | flush hstream => exact le_of_eq (pollFlush_polled hstream).load
  | shutdown hstream => exact le_of_eq (pollShutdown_polled hstream).load
  | drop => exact le_rfl
  | flushed => exact le_rfl
  | message hdoing hmsgs _ hmessage => exact load_message hdoing hmsgs hmessage
  | opened hdoing =>
    unfold Session.load
    rw [hdoing]
    exact le_rfl
  | dropped hdoing =>
    refine load_close ?_ _ _ _ _ _
    show s.doing.closes = 0
    rw [hdoing]
    rfl
  | closed hdoing =>
    have hleaves := leaves_le (s.idleEvent s.entries)
    rw [load_answer]
    unfold Session.load
    rw [hdoing]
    show _ + _ + _ ≤ _ + _ + 1 + _
    omega
  | received hdoing =>
    rw [load_acting hdoing]
    exact le_rfl
  | act hdoing hact =>
    refine le_trans (load_act hclient ?_ hdoing hact) le_self_add
    refine hinv.allowed _ ?_
    rw [hdoing]
    exact List.mem_cons_self
  | actFailed => exact zero_le
  | failed => exact zero_le

end Session

end Kotoconn.AnyTls
