import Kotoconn.Lib.Bytes
import Kotoconn.Lib.Channel
import Kotoconn.Lib.Totals

/-!
# What a stream receives

The session queues the data of a stream and charges its receive credit for it; the stream gives the credit back as it
reads.

`Run.received_sound`: this holds after every run that pushes no empty data; `empty_ends_early`: an empty message reads
like the end.
-/

namespace Kotoconn.AnyTls
open Lib List Table

/-- `Received`: data with the credit that it holds. -/
structure Received where
  bytes : Bytes
  credit : Nat
  deriving DecidableEq

structure Inbox where
  listed : Bool
  live : Bool
  queue : List Received
  pending : Option Received
  /-- the text in `Status` -/
  error : Option String
  /-- ghost: the data pushed while the entry was there, the messages queued and the bytes read -/
  pushed : List Bytes
  accepted : List Received
  read : Bytes

def bytesOf (messages : List Received) : Bytes := (messages.map Received.bytes).flatten

def creditOf (messages : List Received) : Nat := (messages.map Received.credit).sum

namespace Inbox

def new : Inbox := ⟨true, true, [], none, none, [], [], []⟩

def held (b : Inbox) : List Received := b.pending.toList ++ b.queue

def close (b : Inbox) (error : Option String) : Inbox := { b with listed := false, error := b.error <|> error }

def consume (b : Inbox) (m : Received) (n : Nat) : Bytes × Inbox × Nat :=
  let b := { b with read := b.read ++ m.bytes.take n }
  if m.bytes.drop n = [] then (m.bytes.take n, { b with pending := none }, m.credit)
  else (m.bytes.take n, { b with pending := some { m with bytes := m.bytes.drop n } }, 0)

/-- `poll_read` into `n` free bytes, and the credit given back. -/
def pollRead (b : Inbox) (n : Nat) : Poll (Except String Bytes) × Inbox × Nat :=
  if n = 0 then (.ready (.ok []), b, 0)
  else
    match b.pending, b.queue with
    | some m, _ => ((.ready (.ok (b.consume m n).1)), (b.consume m n).2)
    | none, m :: queue => ((.ready (.ok ({ b with queue }.consume m n).1)), ({ b with queue }.consume m n).2)
    | none, [] =>
      if b.listed then (.pending, b, 0)
      else
        match b.error with
        | some e => (.ready (.error e), b, 0)
        | none => (.ready (.ok []), b, 0)

end Inbox

structure Intake where
  credit : Nat
  streams : Table Nat Inbox

inductive Intake.Event where
  | opened (sid : Nat)
  /-- `PushStreamData` -/
  | push (sid : Nat) (data : Bytes)
  /-- the entry goes: a FIN of the peer, `Session::close`, or the end of the session -/
  | remove (sid : Nat) (error : Option String)
  | read (sid n : Nat)
  | dropped (sid : Nat)

namespace Intake

def receiveBytes : Nat := 4 * 1024 * 1024

def new : Intake := ⟨receiveBytes, ∅⟩

def put (s : Intake) (sid : Nat) (b : Inbox) : Intake := { s with streams := s.streams.insert sid b }

/-- Data for a stream that has an entry. `overhead` is the size of a `Received`. -/
def push (overhead : Nat) (s : Intake) (sid : Nat) (b : Inbox) (data : Bytes) : Intake :=
  let b := { b with pushed := b.pushed ++ [data] }
  let m : Received := ⟨data, (data.length + overhead) % 2 ^ 32⟩
  if m.credit ≤ s.credit ∧ b.live then
    { s.put sid { b with queue := b.queue ++ [m], accepted := b.accepted ++ [m] } with credit := s.credit - m.credit }
  else s.put sid (b.close (some "AnyTLS receive queue full or consumer closed"))

def step (overhead : Nat) (s : Intake) : Event → Option Intake
  | .opened sid => if sid ∈ s.streams then none else some (s.put sid .new)
  | .push sid data =>
    match s.streams.lookup sid with
    | none => some s
    | some b => if b.listed then some (s.push overhead sid b data) else some s
  | .remove sid error =>
    match s.streams.lookup sid with
    | none => some s
    | some b => if b.listed then some (s.put sid (b.close error)) else some s
  | .read sid n =>
    match s.streams.lookup sid with
    | none => none
    | some b =>
      if b.live then some { s.put sid (b.pollRead n).2.1 with credit := s.credit + (b.pollRead n).2.2 } else none
  | .dropped sid =>
    match s.streams.lookup sid with
    | none => none
    | some b =>
      if b.live then some { s.put sid { b with live := false, queue := [], pending := none } with
        credit := s.credit + creditOf b.held }
      else none

/-- The runs whose events all satisfy `ok`. -/
inductive Run (overhead : Nat) (ok : Event → Prop) : Intake → Prop
  | new : Run overhead ok new
  | step {s s' : Intake} {e : Event} : Run overhead ok s → ok e → s.step overhead e = some s' → Run overhead ok s'

end Intake

/-- The messages `done` have been read, those of `left` hold their credit: none of them is read to its last byte. -/
structure Inbox.Credited (b : Inbox) (done left : List Received) : Prop where
  accepted : b.accepted = done ++ left
  credit : creditOf b.held = creditOf left
  read : (bytesOf done).length ≤ b.read.length
  unread : ∀ m ∈ left.head?, b.read.length < (bytesOf done).length + m.bytes.length

structure Intake.Sound (s : Intake) : Prop where
  bytes : ∀ sid b, s.streams.lookup sid = some b → b.read <+: b.pushed.flatten
  ends : ∀ sid b n, s.streams.lookup sid = some b → b.live = true → n ≠ 0 → (b.pollRead n).1 = .ready (.ok []) →
    b.listed = false ∧ b.read = b.pushed.flatten
  credited : ∀ sid b, s.streams.lookup sid = some b →
    (b.live = true → ∃ done left, b.Credited done left) ∧ (b.live = false → b.held = [])
  credit : s.credit + Table.total (fun b => creditOf b.held) s.streams = Intake.receiveBytes

def Intake.Filled : Intake.Event → Prop
  | .push _ data => data ≠ []
  | _ => True

/-! ## One stream -/

theorem bytesOf_append (l r : List Received) : bytesOf (l ++ r) = bytesOf l ++ bytesOf r := by
  simp [bytesOf]

theorem creditOf_append (l r : List Received) : creditOf (l ++ r) = creditOf l + creditOf r := by
  simp [creditOf]

theorem bytesOf_cons (m : Received) (l : List Received) : bytesOf (m :: l) = m.bytes ++ bytesOf l := rfl

theorem creditOf_cons (m : Received) (l : List Received) : creditOf (m :: l) = m.credit + creditOf l := sum_cons

namespace Inbox
variable {b : Inbox}

/-- Where the reader of a live stream is: between two messages, or inside `first`, of which `part` has been read. -/
inductive Reading (b : Inbox) : Prop
  | between (done : List Received) (haccepted : b.accepted = done ++ b.queue) (hpending : b.pending = none)
      (hread : b.read = bytesOf done)
  | inside (done : List Received) (first m : Received) (part : Bytes)
      (haccepted : b.accepted = done ++ first :: b.queue) (hpending : b.pending = some m)
      (hfirst : first.bytes = part ++ m.bytes) (hcredit : m.credit = first.credit)
      (hm : m.bytes ≠ []) (hread : b.read = bytesOf done ++ part)

structure Inv (b : Inbox) : Prop where
  queued : b.accepted.map Received.bytes <+: b.pushed
  all : b.error = none → b.pushed = b.accepted.map Received.bytes
  listed : b.listed = true → b.error = none
  filled : ∀ m ∈ b.accepted, m.bytes ≠ []
  reading : b.live = true → b.Reading
  dropped : b.live = false → b.held = [] ∧ b.read <+: bytesOf b.accepted

theorem new_inv : new.Inv where
  queued := nil_prefix
  all _ := rfl
  listed _ := rfl
  filled _ h := nomatch h
  reading _ := .between [] rfl rfl rfl
  dropped h := nomatch h

theorem Reading.bytes (h : b.Reading) : bytesOf b.accepted = b.read ++ bytesOf b.held := by
  cases h with
  | between _ haccepted hpending hread =>
    rw [haccepted, hread, held, hpending, bytesOf_append]
    rfl
  | inside _ _ _ _ haccepted hpending hfirst _ _ hread =>
    rw [haccepted, hread, held, hpending, bytesOf_append, bytesOf_cons, hfirst]
    simp [bytesOf_cons]

theorem Reading.frame {b' : Inbox} (h : b.Reading) (haccepted : b'.accepted = b.accepted) (hqueue : b'.queue = b.queue)
    (hpending : b'.pending = b.pending) (hread : b'.read = b.read) : b'.Reading := by
  cases h with
  | between done haccepted' hpending' hread' =>
    exact .between done (by rw [haccepted, hqueue, haccepted']) (hpending.trans hpending') (hread.trans hread')
  | inside done first m part haccepted' hpending' hfirst hcredit hm hread' =>
    exact .inside done first m part (by rw [haccepted, hqueue, haccepted']) (hpending.trans hpending') hfirst hcredit
      hm (hread.trans hread')

theorem Inv.read (h : b.Inv) : b.read <+: bytesOf b.accepted := by
  cases hlive : b.live with
  | true => exact ⟨_, (h.reading hlive).bytes.symm⟩
  | false => exact (h.dropped hlive).2

theorem Inv.read_pushed (h : b.Inv) : b.read <+: b.pushed.flatten := h.read.trans h.queued.flatten

theorem Inv.close (h : b.Inv) (error : Option String) (hlisted : b.listed = true) : (b.close error).Inv where
  queued := h.queued
  all _ := h.all (h.listed hlisted)
  listed h := nomatch h
  filled := h.filled
  reading hlive := (h.reading hlive).frame rfl rfl rfl rfl
  dropped := h.dropped

theorem Inv.refuse (h : b.Inv) (hlisted : b.listed = true) (data : Bytes) (error : String) :
    (Inbox.close { b with pushed := b.pushed ++ [data] } (some error)).Inv where
  queued := h.queued.trans (prefix_append _ _)
  all herror := by
    have hnone := h.listed hlisted
    simp [Inbox.close, hnone] at herror
  listed h := nomatch h
  filled := h.filled
  reading hlive := (h.reading hlive).frame rfl rfl rfl rfl
  dropped := h.dropped

theorem Inv.accept (h : b.Inv) (hlisted : b.listed = true) (hlive : b.live = true) (m : Received) (hm : m.bytes ≠ []) :
    Inv { b with pushed := b.pushed ++ [m.bytes], queue := b.queue ++ [m], accepted := b.accepted ++ [m] } where
  queued := by
    rw [h.all (h.listed hlisted), map_append]
    exact prefix_rfl
  all _ := by
    rw [h.all (h.listed hlisted), map_append]
    rfl
  listed := h.listed
  filled m' hm' := by
    rcases mem_append.1 hm' with hm' | hm'
    · exact h.filled m' hm'
    · rwa [mem_singleton.1 hm']
  reading _ := by
    cases h.reading hlive with
    | between done haccepted hpending hread =>
      exact .between done (by rw [haccepted, append_assoc]) hpending hread
    | inside done first m' part haccepted hpending hfirst hcredit hm' hread =>
      exact .inside done first m' part (by rw [haccepted, append_assoc, cons_append]) hpending hfirst
        hcredit hm' hread
  dropped hdead := by
    rw [hlive] at hdead
    cases hdead

theorem Inv.drop (h : b.Inv) : Inv { b with live := false, queue := [], pending := none } where
  queued := h.queued
  all := h.all
  listed := h.listed
  filled := h.filled
  reading hlive := nomatch hlive
  dropped _ := ⟨rfl, h.read⟩

theorem consume_spec {done : List Received} {first m : Received} {part : Bytes} {n : Nat}
    (haccepted : b.accepted = done ++ first :: b.queue) (hfirst : first.bytes = part ++ m.bytes)
    (hcredit : m.credit = first.credit) (hread : b.read = bytesOf done ++ part) :
    (b.consume m n).1 = m.bytes.take n ∧ (b.consume m n).2.1.Reading ∧
      creditOf (b.consume m n).2.1.held + (b.consume m n).2.2 = creditOf (m :: b.queue) := by
  unfold consume
  split_ifs with hrest
  · have htake : m.bytes.take n = m.bytes := by
      rw [← take_append_drop n m.bytes, hrest, append_nil, take_take, Nat.min_self]
    refine ⟨rfl, .between (done ++ [first]) ?_ rfl ?_, ?_⟩
    · rw [haccepted, append_assoc]
      rfl
    · rw [bytesOf_append, htake, hread, append_assoc, ← hfirst]
      simp [bytesOf]
    · rw [creditOf_cons, add_comm]
      rfl
  · refine ⟨rfl, .inside done first _ (part ++ m.bytes.take n) haccepted rfl ?_ hcredit hrest ?_, ?_⟩
    · rw [append_assoc, take_append_drop]
      exact hfirst
    · rw [hread, append_assoc]
    · exact creditOf_cons _ _

theorem consume_frame (m : Received) (n : Nat) :
    (b.consume m n).2.1.accepted = b.accepted ∧ (b.consume m n).2.1.pushed = b.pushed ∧
      (b.consume m n).2.1.listed = b.listed ∧ (b.consume m n).2.1.live = b.live ∧
      (b.consume m n).2.1.error = b.error := by
  unfold consume
  split_ifs
  · exact ⟨rfl, rfl, rfl, rfl, rfl⟩
  · exact ⟨rfl, rfl, rfl, rfl, rfl⟩

theorem Inv.consume (h : b.Inv) (hlive : b.live = true) {queue : List Received} {m : Received} {n : Nat}
    (hreading : ({ b with queue }.consume m n).2.1.Reading) : ({ b with queue }.consume m n).2.1.Inv := by
  obtain ⟨haccepted, hpushed, hlisted, hlive', herror⟩ := consume_frame (b := { b with queue }) m n
  refine ⟨?_, ?_, ?_, ?_, fun _ => hreading, fun hdead => ?_⟩
  · rw [haccepted, hpushed]
    exact h.queued
  · rw [haccepted, hpushed, herror]
    exact h.all
  · rw [hlisted, herror]
    exact h.listed
  · rw [haccepted]
    exact h.filled
  · rw [hlive', hlive] at hdead
    cases hdead

/-- **A read**: credit is given back for what is read to its end, and a read that adds nothing is at the end. -/
theorem pollRead_spec (h : b.Inv) (hlive : b.live = true) (n : Nat) : (b.pollRead n).2.1.Inv ∧
    creditOf (b.pollRead n).2.1.held + (b.pollRead n).2.2 = creditOf b.held ∧
    (n ≠ 0 → (b.pollRead n).1 = .ready (.ok []) → b.listed = false ∧ b.read = b.pushed.flatten) := by
  -- a read from a message that is not empty adds a byte
  have hadds : ∀ {m : Received} {out : Bytes}, m.bytes ≠ [] → n ≠ 0 → out = m.bytes.take n →
      Poll.ready (Except.ok (ε := String) out) ≠ .ready (.ok []) := by
    intro m out hm hn hout heq
    obtain rfl : out = [] := Except.ok.inj (Poll.ready.inj heq)
    rcases take_eq_nil_iff.1 hout.symm with hzero | hnil
    · exact hn hzero
    · exact hm hnil
  unfold pollRead
  by_cases hn : n = 0
  · rw [if_pos hn]
    exact ⟨h, rfl, fun hne => absurd hn hne⟩
  · rw [if_neg hn]
    cases h.reading hlive with
    | inside _ _ m _ haccepted hpending hfirst hcredit hm hread =>
      obtain ⟨hout, hreading, hcost⟩ := consume_spec (n := n) haccepted hfirst hcredit hread
      simp only [hpending]
      have hinv : ({ b with queue := b.queue }.consume m n).2.1.Inv := h.consume hlive hreading
      refine ⟨hinv, ?_, fun _ hempty => absurd hempty (hadds hm hn hout)⟩
      rw [hcost, held, hpending]
      rfl
    | between _ haccepted hpending hread =>
      cases hqueue : b.queue with
      | cons m queue =>
        rw [hqueue] at haccepted
        have hm : m.bytes ≠ [] := h.filled m (by rw [haccepted]; simp)
        have hpart : m.bytes = [] ++ m.bytes := rfl
        obtain ⟨hout, hreading, hcost⟩ := consume_spec (b := { b with queue }) (n := n) haccepted hpart rfl
          (by rw [hread, append_nil])
        simp only [hpending]
        refine ⟨h.consume hlive hreading, hcost.trans ?_, fun _ hempty => absurd hempty (hadds hm hn hout)⟩
        rw [held, hpending, hqueue]
        rfl
      | nil =>
        simp only [hpending]
        split_ifs with hlisted
        · exact ⟨h, rfl, fun _ hready => nomatch hready⟩
        · cases herror : b.error with
          | some => exact ⟨h, rfl, fun _ hready => nomatch hready⟩
          | none =>
            refine ⟨h, rfl, fun _ _ => ⟨by simpa using hlisted, ?_⟩⟩
            rw [hread, h.all herror, haccepted, hqueue, append_nil]
            rfl

theorem Reading.credited (h : b.Reading) (hfilled : ∀ m ∈ b.accepted, m.bytes ≠ []) :
    ∃ done left, b.Credited done left := by
  cases h with
  | between done haccepted hpending hread =>
    refine ⟨done, b.queue, haccepted, by rw [held, hpending]; rfl, by rw [hread], fun m hm => ?_⟩
    have hm' : m.bytes ≠ [] := hfilled m (by
      rw [haccepted]
      exact mem_append_right _ (mem_of_head? hm))
    rw [hread]
    have := length_pos_iff.2 hm'
    omega
  | inside done first _ _ haccepted hpending hfirst hcredit hm hread =>
    refine ⟨done, first :: b.queue, haccepted, ?_, ?_, fun m' hm' => ?_⟩
    · rw [held, hpending, creditOf_cons, ← hcredit]
      exact creditOf_cons _ _
    · rw [hread, length_append]
      exact le_self_add
    · obtain rfl := Option.some.inj hm'
      rw [hread, hfirst, length_append, length_append]
      have := length_pos_iff.2 hm
      omega

end Inbox

/-! ## All streams -/

namespace Intake
variable {s s' : Intake} {overhead : Nat}

def outstanding (s : Intake) : Nat := Table.total (fun b => creditOf b.held) s.streams

structure Inv (s : Intake) : Prop where
  streams : ∀ sid b, s.streams.lookup sid = some b → b.Inv
  credit : s.credit + s.outstanding = receiveBytes

theorem new_inv : new.Inv := ⟨fun _ _ h => (nomatch h), rfl⟩

theorem Inv.put (h : s.Inv) {sid : Nat} {b b' : Inbox} (hb : s.streams.lookup sid = some b) (hb' : b'.Inv)
    {credit : Nat} (hcredit : credit + creditOf b'.held = s.credit + creditOf b.held) :
    Inv { s.put sid b' with credit } := by
  refine ⟨fun sid' c hc => ?_, ?_⟩
  · rcases lookup_insert_iff.1 hc with ⟨rfl, rfl⟩ | ⟨-, hc⟩
    · exact hb'
    · exact h.streams sid' c hc
  · have htotal := total_replace (fun b : Inbox => creditOf b.held) hb b'
    have hsum := h.credit
    simp only [outstanding, Intake.put] at hsum ⊢
    omega

theorem Inv.push (h : s.Inv) {sid : Nat} {b : Inbox} (hb : s.streams.lookup sid = some b) (hlisted : b.listed = true)
    {data : Bytes} (hdata : data ≠ []) : (s.push overhead sid b data).Inv := by
  have hinv := h.streams sid b hb
  unfold Intake.push
  simp only
  split_ifs with hroom
  · refine h.put hb (hinv.accept hlisted hroom.2 ⟨data, _⟩ hdata) ?_
    have hheld : creditOf (b.pending.toList ++ (b.queue ++ [⟨data, (data.length + overhead) % 2 ^ 32⟩])) =
        creditOf b.held + (data.length + overhead) % 2 ^ 32 := by
      rw [← append_assoc, creditOf_append]
      rfl
    have hle := hroom.1
    simp only [Inbox.held] at hheld hle ⊢
    omega
  · exact h.put hb (hinv.refuse hlisted data _) rfl

theorem Inv.step {e : Event} (h : s.Inv) (he : Filled e) (hstep : s.step overhead e = some s') : s'.Inv := by
  cases e with
  | opened =>
    simp only [Intake.step] at hstep
    split_ifs at hstep with hmem
    cases hstep
    refine ⟨fun sid' c hc => ?_, ?_⟩
    · rcases lookup_insert_iff.1 hc with ⟨rfl, rfl⟩ | ⟨-, hc⟩
      · exact Inbox.new_inv
      · exact h.streams sid' c hc
    · have htotal := total_insert_vacant (fun b : Inbox => creditOf b.held) (AList.lookup_eq_none.2 hmem) .new
      have hnew : creditOf Inbox.new.held = 0 := rfl
      have hsum := h.credit
      simp only [outstanding, Intake.put] at hsum ⊢
      omega
  | push =>
    simp only [Intake.step] at hstep
    split at hstep
    case h_1 =>
      cases hstep
      exact h
    case h_2 b hb =>
      split_ifs at hstep with hlisted
      · cases hstep
        exact h.push hb hlisted he
      · cases hstep
        exact h
  | remove sid error =>
    simp only [Intake.step] at hstep
    split at hstep
    case h_1 =>
      cases hstep
      exact h
    case h_2 b hb =>
      split_ifs at hstep with hlisted
      · cases hstep
        exact h.put hb ((h.streams sid b hb).close error hlisted) rfl
      · cases hstep
        exact h
  | read sid n =>
    simp only [Intake.step] at hstep
    split at hstep
    case h_1 => cases hstep
    case h_2 b hb =>
      split_ifs at hstep with hlive
      cases hstep
      obtain ⟨hinv, _, -⟩ := Inbox.pollRead_spec (h.streams sid b hb) hlive n
      exact h.put hb hinv (by omega)
  | dropped sid =>
    simp only [Intake.step] at hstep
    split at hstep
    case h_1 => cases hstep
    case h_2 b hb =>
      split_ifs at hstep with hlive
      cases hstep
      refine h.put hb (h.streams sid b hb).drop ?_
      rfl

theorem Run.inv (h : Run overhead Filled s) : s.Inv := by
  induction h with
  | new => exact new_inv
  | step _ he hstep ih => exact ih.step he hstep

/-- **A stream reports its end only at its end**, after every run that pushes no empty data: what was read begins what
was pushed, a read that adds nothing comes after the entry was removed and all was read, and each message holds its
credit until its last byte is read or the stream is dropped. -/
theorem Run.received_sound (h : Run overhead Filled s) : s.Sound where
  bytes sid b hb := (h.inv.streams sid b hb).read_pushed
  ends sid b n hb hlive hn hempty := (Inbox.pollRead_spec (h.inv.streams sid b hb) hlive n).2.2 hn hempty
  credited sid b hb := by
    have hinv := h.inv.streams sid b hb
    exact ⟨fun hlive => (hinv.reading hlive).credited hinv.filled, fun hdead => (hinv.dropped hdead).1⟩
  credit := h.inv.credit

theorem received_sound_pieces : ∃ s b, Run 48 Filled s ∧ s.streams.lookup 1 = some b ∧ b.read = [1, 2, 3] ∧
    (b.pollRead 9).1 = .ready (.ok []) ∧ s.Sound := by
  have h₁ := (Run.new : Run 48 Filled _).step (e := .opened 1) trivial rfl
  have h₂ := h₁.step (e := .push 1 [1, 2]) (by simp [Filled]) rfl
  have h₃ := h₂.step (e := .push 1 [3]) (by simp [Filled]) rfl
  have h₄ := h₃.step (e := .read 1 1) trivial rfl
  have h₅ := h₄.step (e := .read 1 9) trivial rfl
  have h₆ := h₅.step (e := .remove 1 none) trivial rfl
  have h₇ := h₆.step (e := .read 1 9) trivial rfl
  exact ⟨_, _, h₇, rfl, rfl, rfl, h₇.received_sound⟩

/-- **An empty message reads like the end** of a stream that has an entry and more to come. -/
theorem empty_ends_early : ∃ s b, Run 48 (fun _ => True) s ∧ s.streams.lookup 1 = some b ∧ b.live = true ∧
    b.listed = true ∧ (b.pollRead 9).1 = .ready (.ok []) ∧ b.pushed = [[], [1]] ∧ ¬s.Sound := by
  have h₁ := (Run.new : Run 48 (fun _ => True) _).step (e := .opened 1) trivial rfl
  have h₂ := h₁.step (e := .push 1 []) trivial rfl
  have h₃ := h₂.step (e := .push 1 [1]) trivial rfl
  refine ⟨_, _, h₃, rfl, rfl, rfl, rfl, rfl, fun hsound => ?_⟩
  cases (hsound.ends 1 _ 9 rfl rfl (by decide) rfl).1

end Intake

end Kotoconn.AnyTls
