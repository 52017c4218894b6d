import Kotoconn.Protocol.Capacity

/-!
# `queue.rs`: byte-weighted queues

A queue is used by any number of senders and one receiver at once. Every access to a shared atomic is one step, but for
those of `refresh` and of `complete`, which are one step each.
-/

namespace Kotoconn.Protocol.Queue

/-- The shared state. `published` and `popped` are logs: the items in the order in which they were published and taken
out, the latter with whether it was a discard. -/
structure Shared (T : Type) where
  items : List (T × Nat)
  initial : Nat
  updated : Nat
  completed : Nat
  bytes : Nat
  senders : Nat
  closed : Bool
  target : Nat
  published : List T
  popped : List (T × Bool)

variable {T : Type}

namespace Shared

/-- `channel` -/
def new (initial : Nat) : Shared T := ⟨[], initial, 0, 0, 0, 1, false, initial, [], []⟩

/-- The allowance after an interval; `now` counts from the making of the queue. -/
def refresh (s : Shared T) (now : Nat) : Shared T :=
  let elapsed := now - s.updated
  if elapsed < feedbackInterval then s
  else
    let sample := min (s.completed * targetDelay / elapsed) usizeMax
    let periods := min (elapsed / feedbackInterval) 63
    { s with target := max (max sample (s.target / 2 ^ periods)) s.initial, completed := 0, updated := now }

/-- `fetch_sub` wraps below zero. -/
def release (s : Shared T) (cost : Nat) : Shared T :=
  { s with bytes := if cost ≤ s.bytes then s.bytes - cost else s.bytes + 2 ^ 64 - cost }

/-- The test and the sum inside `try_update`. -/
def reserve (s : Shared T) (cost target : Nat) : Option (Shared T) :=
  if s.bytes ≠ 0 ∧ target - s.bytes < cost then none
  else if s.bytes + cost ≤ usizeMax then some { s with bytes := s.bytes + cost }
  else none

/-- Take the first item out; `discarded` tells who does. -/
def pop (s : Shared T) (discarded : Bool) : Option ((T × Nat) × Shared T) :=
  match s.items with
  | [] => none
  | item :: rest => some (item, { s with items := rest, popped := s.popped ++ [(item.1, discarded)] })

def push (s : Shared T) (item : T) (cost : Nat) : Shared T :=
  { s with items := s.items ++ [(item, cost)], published := s.published ++ [item] }

end Shared

/-! ## Senders -/

inductive Call (T : Type) where
  /-- `try_reserve` found the queue open -/
  | checked (cost : Nat)
  | loaded (cost target : Nat)
  /-- it has raised `bytes` and looks at `closed` again -/
  | admitted (cost : Nat)
  | permit (cost : Nat)
  /-- `Permit::send` found the queue open -/
  | sending (cost : Nat) (item : T)
  /-- it has published the item and looks at `closed` again -/
  | pushed
  | discarding
  | releasing (cost : Nat)

namespace Call

def next (s : Shared T) : Call T → Option (Call T) × Shared T
  | checked cost => (some (loaded cost s.target), s)
  | loaded cost target =>
    match s.reserve cost target with
    | none => (none, s)
    | some s => (some (admitted cost), s)
  | admitted cost => if s.closed then (none, s.release cost) else (some (permit cost), s)
  | permit cost => (some (permit cost), s)
  | sending cost item => (some pushed, s.push item cost)
  | pushed => if s.closed then (some discarding, s) else (none, s)
  | discarding =>
    match s.pop true with
    | none => (none, s)
    | some ((_, cost), s) => (some (releasing cost), s)
  | releasing cost => (some discarding, s.release cost)

/-- `Permit::send`; a permit for a closed queue is dropped. -/
def send (s : Shared T) (cost : Nat) (item : T) : Option (Call T) × Shared T :=
  if s.closed then (none, s.release cost) else (some (sending cost item), s)

end Call

/-! ## The receiver -/

/-- Where the receiver is; `wanted` counts the items still wanted, one for `poll_recv` and `try_recv`. -/
inductive Rx (T : Type) where
  | idle
  /-- `try_recv`, which looks once -/
  | trying
  | first (wanted : Nat)
  | looked (wanted : Nat)
  | last (wanted : Nat)
  | due (cost : Nat) (item : T) (wanted : Nat)
  /-- the loop of `poll_recv_many`; `cost` is released at its end -/
  | batch (cost wanted : Nat)
  /-- `Drop`: it discards what is left -/
  | closing
  | closingDue (cost : Nat)
  | gone

/-- `Receiver`; `front` holds the prepended items. -/
structure Receiver (T : Type) where
  front : List T
  rx : Rx T

namespace Rx

def more (wanted : Nat) : Rx T := if wanted ≤ 1 then idle else batch 0 (wanted - 1)

end Rx

def Shared.complete (s : Shared T) (cost : Nat) : Shared T :=
  let s := s.release cost
  { s with completed := s.completed + cost }

namespace Receiver

/-- The end of `poll_recv_many`. -/
def finish (r : Receiver T) (s : Shared T) (cost : Nat) : Receiver T × Shared T :=
  ({ r with rx := .idle }, if cost ≠ 0 then s.complete cost else s)

/-- The next step of the receiver, with what the call returns to its caller: `some none` is the end of the queue. -/
def next (r : Receiver T) (s : Shared T) : Receiver T × Shared T × Option (Option T) :=
  match r.rx with
  | .idle => (r, s, none)
  | .trying =>
    match r.front with
    | item :: front => (⟨front, .idle⟩, s, some (some item))
    | [] =>
      match s.pop false with
      | some ((item, cost), s) => ({ r with rx := .due cost item 1 }, s, none)
      | none => ({ r with rx := .idle }, s, none)
  | .first wanted =>
    match r.front with
    | item :: front => (⟨front, .more wanted⟩, s, some (some item))
    | [] =>
      match s.pop false with
      | some ((item, cost), s) => ({ r with rx := .due cost item wanted }, s, none)
      | none => ({ r with rx := .looked wanted }, s, none)
  | .looked wanted => ({ r with rx := if s.senders = 0 then .last wanted else .idle }, s, none)
  | .last wanted =>
    match s.pop false with
    | some ((item, cost), s) => ({ r with rx := .due cost item wanted }, s, none)
    | none => ({ r with rx := .idle }, s, some none)
  | .due cost item wanted => ({ r with rx := .more wanted }, s.complete cost, some (some item))
  | .batch cost wanted =>
    if wanted = 0 then ((r.finish s cost).1, (r.finish s cost).2, none)
    else
      match r.front with
      | item :: front => (⟨front, .batch cost (wanted - 1)⟩, s, some (some item))
      | [] =>
        match s.pop false with
        | some ((item, more), s) => ({ r with rx := .batch (cost + more) (wanted - 1) }, s, some (some item))
        | none => ((r.finish s cost).1, (r.finish s cost).2, none)
  | .closing =>
    match s.pop true with
    | some ((_, cost), s) => ({ r with rx := .closingDue cost }, s, none)
    | none => ({ r with rx := .gone }, s, none)
  | .closingDue cost => ({ r with rx := .closing }, s.release cost, none)
  | .gone => (r, s, none)

def prepend (r : Receiver T) (items : List T) : Receiver T := { r with front := items ++ r.front }

end Receiver

def delivered : Option (Option T) → List T
  | some (some item) => [item]
  | some none | none => []

/-! ## All together -/

/-- `handles` are the live senders; a call belongs to the sender it borrows. -/
structure State (T : Type) where
  shared : Shared T
  receiver : Receiver T
  handles : List Nat
  calls : List (Nat × Call T)

namespace State

def new (initial : Nat) : State T := ⟨.new initial, ⟨[], .idle⟩, [0], []⟩

/-- The call goes on as `after`, or is over. -/
def resume (s : State T) (left : List (Nat × Call T)) (h : Nat) (right : List (Nat × Call T))
    (after : Option (Call T) × Shared T) : State T :=
  { s with shared := after.2, calls := left ++ (after.1.toList.map fun c => (h, c)) ++ right }

/-- One step of anyone, with what it returns from a receive call. `size` is `size_of::<(T, usize)>()`. -/
inductive Step (size : Nat) (s : State T) : Option (Option T) → State T → Prop
  | clone (new : Nat) (hs : s.handles ≠ []) (hnew : new ∉ s.handles) :
      Step size s none
        { s with shared := { s.shared with senders := s.shared.senders + 1 }, handles := new :: s.handles }
  | dropSender (h : Nat) (hh : h ∈ s.handles) (hfree : ∀ call ∈ s.calls, call.1 ≠ h) :
      Step size s none
        { s with shared := { s.shared with senders := s.shared.senders - 1 }, handles := s.handles.erase h }
  | reserve (h bytes : Nat) (hh : h ∈ s.handles) (hopen : s.shared.closed = false)
      (hcost : bytes + max size 1 ≤ usizeMax) :
      Step size s none { s with calls := s.calls ++ [(h, .checked (bytes + max size 1))] }
  | call (left : List (Nat × Call T)) (h : Nat) (c : Call T) (right : List (Nat × Call T))
      (hc : s.calls = left ++ (h, c) :: right) : Step size s none (s.resume left h right (c.next s.shared))
  | send (left : List (Nat × Call T)) (h cost : Nat) (item : T) (right : List (Nat × Call T))
      (hc : s.calls = left ++ (h, .permit cost) :: right) :
      Step size s none (s.resume left h right (Call.send s.shared cost item))
  | dropPermit (left : List (Nat × Call T)) (h cost : Nat) (right : List (Nat × Call T))
      (hc : s.calls = left ++ (h, .permit cost) :: right) :
      Step size s none (s.resume left h right (none, s.shared.release cost))
  | refresh (now : Nat) : Step size s none { s with shared := s.shared.refresh now }
  | receive (wanted : Nat) (hidle : s.receiver.rx = .idle) (hw : 0 < wanted) :
      Step size s none { s with receiver := { s.receiver with rx := .first wanted } }
  | tryReceive (hidle : s.receiver.rx = .idle) :
      Step size s none { s with receiver := { s.receiver with rx := .trying } }
  | next : Step size s (s.receiver.next s.shared).2.2
      { s with receiver := (s.receiver.next s.shared).1, shared := (s.receiver.next s.shared).2.1 }
  | prepend (items : List T) (hidle : s.receiver.rx = .idle) :
      Step size s none { s with receiver := s.receiver.prepend items }
  | dropReceiver (hidle : s.receiver.rx = .idle) :
      Step size s none
        { s with shared := { s.shared with closed := true }, receiver := { s.receiver with rx := .closing } }

inductive Reachable (size initial : Nat) : State T → Prop
  | new : Reachable size initial (new initial)
  | step {s s' : State T} {out : Option (Option T)} : Reachable size initial s → s.Step size out s' →
      Reachable size initial s'

end State

end Kotoconn.Protocol.Queue
