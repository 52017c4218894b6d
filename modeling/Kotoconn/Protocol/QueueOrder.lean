import Kotoconn.Protocol.QueueCredit

/-! # The order of a queue -/

namespace Kotoconn.Protocol.Queue
open List

variable {T : Type}

def Rx.inHand : Rx T → List T
  | due _ item _ => [item]
  | idle | trying | first _ | looked _ | last _ | batch _ _ | closing | closingDue _ | gone => []

def State.pending (t : State T) : List T :=
  t.receiver.rx.inHand ++ t.receiver.front ++ t.shared.items.map Prod.fst

def Receiver.Looks (r : Receiver T) : Prop := ∀ wanted, r.rx = .looked wanted ∨ r.rx = .last wanted → r.front = []

/-- The items that arrived from `s` to `s'`, with nothing taken out. -/
def Arrives (s s' : Shared T) : Prop :=
  ∃ new, s'.published = s.published ++ new ∧ s'.items.map Prod.fst = s.items.map Prod.fst ++ new

theorem Arrives.refl (s : Shared T) : Arrives s s := ⟨[], (append_nil _).symm, (append_nil _).symm⟩

variable {s : Shared T} {t t' : State T} {size : Nat} {out : Option (Option T)}

theorem Call.next_arrives (c : Call T) (hok : c.Ok s.closed) (hopen : s.closed = false) : Arrives s (c.next s).2 := by
  cases c with
  | checked | permit => exact .refl s
  | loaded cost target =>
    simp only [next]
    cases hreserve : s.reserve cost target with
    | none => exact .refl s
    | some =>
      obtain ⟨rfl, -⟩ := Shared.reserve_eq_some hreserve
      exact .refl s
  | admitted =>
    simp only [next]
    split_ifs
    · exact .refl s
    · exact .refl s
  | sending _ item => exact ⟨[item], rfl, by simp [next, Shared.push]⟩
  | pushed =>
    simp only [next]
    split_ifs
    · exact .refl s
    · exact .refl s
  | discarding | releasing =>
    rw [hopen] at hok
    cases hok

theorem Call.send_arrives (s : Shared T) (cost : Nat) (item : T) : Arrives s (Call.send s cost item).2 := by
  unfold send
  split_ifs
  · exact .refl s
  · exact .refl s

namespace Receiver
variable {r : Receiver T}

def line (r : Receiver T) (s : Shared T) : List T := r.rx.inHand ++ r.front ++ s.items.map Prod.fst

structure Takes (r : Receiver T) (s : Shared T) (after : Receiver T × Shared T × Option (Option T)) : Prop where
  line : delivered after.2.2 ++ after.1.line after.2.1 = r.line s
  published : after.2.1.published = s.published
  looks : after.1.Looks

theorem inHand_more (wanted : Nat) : (Rx.more wanted : Rx T).inHand = [] ∧
    ∀ w, ¬ ((Rx.more wanted : Rx T) = .looked w ∨ (Rx.more wanted : Rx T) = .last w) := by
  unfold Rx.more
  split_ifs <;> exact ⟨rfl, by simp⟩

theorem line_pop {item : T × Nat} {s' : Shared T} (hpop : s.pop false = some (item, s')) :
    s.items.map Prod.fst = item.1 :: s'.items.map Prod.fst ∧ s'.published = s.published := by
  obtain ⟨_, hitems, rfl⟩ := Shared.pop_eq_some hpop
  exact ⟨by rw [hitems, map_cons], rfl⟩

theorem finish_takes (hand : r.rx.inHand = []) (cost : Nat) :
    Takes r s ((r.finish s cost).1, (r.finish s cost).2, none) := by
  have hshared : (r.finish s cost).2.items = s.items ∧ (r.finish s cost).2.published = s.published := by
    unfold finish
    split_ifs <;> exact ⟨rfl, rfl⟩
  refine ⟨?_, hshared.2, fun wanted h => by simp [finish] at h⟩
  simp only [line, hshared.1, hand]
  rfl

/-- **A step of the receiver delivers from the front.** -/
theorem next_takes (hlooks : r.Looks) (hopen : r.rx.isClosed = false) : Takes r s (r.next s) := by
  unfold next
  cases hrx : r.rx with
  | idle => exact ⟨rfl, rfl, hlooks⟩
  | trying =>
    simp only
    cases hfront : r.front with
    | cons => exact ⟨by simp [line, delivered, hrx, hfront, Rx.inHand], rfl, by simp [Looks]⟩
    | nil =>
      simp only
      cases hpop : s.pop false with
      | none => exact ⟨by simp [line, delivered, hrx, hfront, Rx.inHand], rfl, by simp [Looks]⟩
      | some =>
        obtain ⟨hitems, hpub⟩ := line_pop hpop
        exact ⟨by simp [line, delivered, hrx, hfront, Rx.inHand, hitems], hpub, by simp [Looks]⟩
  | first wanted =>
    simp only
    cases hfront : r.front with
    | cons =>
      obtain ⟨hhand, hnot⟩ := inHand_more (T := T) wanted
      refine ⟨?_, rfl, fun w h => absurd h (hnot w)⟩
      simp only [line, hhand, hrx, hfront]
      rfl
    | nil =>
      simp only
      cases hpop : s.pop false with
      | none => exact ⟨by simp [line, delivered, hrx, hfront, Rx.inHand], rfl, fun _ _ => rfl⟩
      | some =>
        obtain ⟨hitems, hpub⟩ := line_pop hpop
        exact ⟨by simp [line, delivered, hrx, hfront, Rx.inHand, hitems], hpub, by simp [Looks]⟩
  | looked wanted =>
    have hfront := hlooks wanted (.inl hrx)
    simp only
    split_ifs
    · exact ⟨by simp [line, delivered, hrx, Rx.inHand], rfl, fun _ _ => hfront⟩
    · exact ⟨by simp [line, delivered, hrx, Rx.inHand], rfl, fun _ _ => hfront⟩
  | last wanted =>
    have hfront := hlooks wanted (.inr hrx)
    simp only
    cases hpop : s.pop false with
    | none => exact ⟨by simp [line, delivered, hrx, Rx.inHand], rfl, fun _ _ => hfront⟩
    | some =>
      obtain ⟨hitems, hpub⟩ := line_pop hpop
      exact ⟨by simp [line, delivered, hrx, hfront, Rx.inHand, hitems], hpub, fun _ _ => hfront⟩
  | due _ _ wanted =>
    obtain ⟨hhand, hnot⟩ := inHand_more (T := T) wanted
    refine ⟨?_, rfl, fun w h => absurd h (hnot w)⟩
    simp only [line, hhand, hrx]
    rfl
  | batch cost =>
    have hfinish := finish_takes (r := r) (s := s) (by rw [hrx]; rfl) cost
    simp only
    split_ifs
    · exact hfinish
    · cases hfront : r.front with
      | cons => exact ⟨by simp [line, delivered, hrx, hfront, Rx.inHand], rfl, by simp [Looks]⟩
      | nil =>
        simp only
        cases hpop : s.pop false with
        | none => exact hfinish
        | some =>
          obtain ⟨hitems, hpub⟩ := line_pop hpop
          exact ⟨by simp [line, delivered, hrx, hfront, Rx.inHand, hitems], hpub, by simp [Looks]⟩
  | closing | closingDue | gone =>
    rw [hrx] at hopen
    cases hopen

/-- A receiver inside `poll_recv`, or idle. -/
inductive Single : Rx T → Prop
  | idle : Single .idle
  | first : Single (.first 1)
  | looked : Single (.looked 1)
  | last : Single (.last 1)
  | due (cost : Nat) (item : T) : Single (.due cost item 1)

theorem next_single (h : Single r.rx) (s : Shared T) : Single (r.next s).1.rx ∧
    ((r.next s).2.2 ≠ none → r.rx ≠ .idle ∧ (r.next s).1.rx = .idle) := by
  unfold next
  cases hrx : r.rx with
  | idle => exact ⟨by rw [hrx]; exact .idle, fun h => absurd rfl h⟩
  | first wanted =>
    obtain rfl : wanted = 1 := by
      rw [hrx] at h
      cases h
      rfl
    simp only
    split
    · exact ⟨.idle, fun _ => ⟨nofun, rfl⟩⟩
    · split
      · exact ⟨.due _ _, fun h => absurd rfl h⟩
      · exact ⟨.looked, fun h => absurd rfl h⟩
  | looked wanted =>
    obtain rfl : wanted = 1 := by
      rw [hrx] at h
      cases h
      rfl
    simp only
    split_ifs
    · exact ⟨.last, fun h => absurd rfl h⟩
    · exact ⟨.idle, fun h => absurd rfl h⟩
  | last wanted =>
    obtain rfl : wanted = 1 := by
      rw [hrx] at h
      cases h
      rfl
    simp only
    split
    · exact ⟨.due _ _, fun h => absurd rfl h⟩
    · exact ⟨.idle, fun _ => ⟨nofun, rfl⟩⟩
  | due _ _ wanted =>
    obtain rfl : wanted = 1 := by
      rw [hrx] at h
      cases h
      rfl
    exact ⟨.idle, fun _ => ⟨nofun, rfl⟩⟩
  | trying | batch | closing | closingDue | gone =>
    rw [hrx] at h
    cases h

end Receiver

/-! ## Steps of anyone -/

def Quiet (t : State T) (out : Option (Option T)) (t' : State T) : Prop :=
  ∃ new, t'.shared.published = t.shared.published ++ new ∧ delivered out ++ t'.pending = t.pending ++ new

theorem quiet_of_arrives (hreceiver : t'.receiver = t.receiver) (h : Arrives t.shared t'.shared) : Quiet t none t' := by
  obtain ⟨new, hpub, hitems⟩ := h
  refine ⟨new, hpub, ?_⟩
  simp [State.pending, delivered, hreceiver, hitems]

/-- **What a step does to the items**, if it neither prepends any nor drops the receiver. -/
theorem Inv.step_pending (h : Inv t) (hlooks : t.receiver.Looks) (hopen : t.shared.closed = false)
    (hstep : t.Step size out t') (hprepend : ∀ items, items ≠ [] → t' ≠ { t with receiver := t.receiver.prepend items })
    (hdrop : t'.receiver.rx ≠ .closing) : Quiet t out t' ∧ t'.receiver.Looks := by
  cases hstep with
  | clone | dropSender | reserve => exact ⟨quiet_of_arrives rfl (.refl _), hlooks⟩
  | call _ handle c _ hc =>
    have hmem : (handle, c) ∈ t.calls := by rw [hc]; simp
    exact ⟨quiet_of_arrives rfl (c.next_arrives (h.ok _ hmem) hopen), hlooks⟩
  | send _ _ cost item => exact ⟨quiet_of_arrives rfl (Call.send_arrives _ cost item), hlooks⟩
  | dropPermit => exact ⟨quiet_of_arrives rfl (.refl t.shared), hlooks⟩
  | refresh now =>
    obtain ⟨_, _, _, hsame⟩ := t.shared.refresh_eq now
    exact ⟨quiet_of_arrives rfl (by rw [hsame]; exact .refl t.shared), hlooks⟩
  | receive wanted hidle | tryReceive hidle =>
    refine ⟨⟨[], (append_nil _).symm, ?_⟩, by simp [Receiver.Looks]⟩
    simp [State.pending, delivered, hidle, Rx.inHand]
  | next =>
    have hclosed : t.receiver.rx.isClosed = false := h.closed.trans hopen
    have htakes := Receiver.next_takes (s := t.shared) hlooks hclosed
    refine ⟨⟨[], by rw [append_nil]; exact htakes.published, ?_⟩, htakes.looks⟩
    rw [append_nil]
    exact htakes.line
  | prepend items =>
    by_cases hitems : items = []
    · subst hitems
      exact ⟨quiet_of_arrives rfl (.refl _), hlooks⟩
    · exact absurd rfl (hprepend items hitems)
  | dropReceiver => exact absurd rfl hdrop

theorem Inv.step_open (h : Inv t) (hopen : t.shared.closed = false) (hstep : t.Step size out t')
    (hdrop : t'.receiver.rx ≠ .closing) : t'.shared.closed = false := by
  have hrx : t.receiver.rx.isClosed = false := h.closed.trans hopen
  rw [← (h.step hstep).closed]
  cases hstep with
  | clone | dropSender | reserve | call | send | dropPermit | refresh | prepend => exact hrx
  | receive | tryReceive => rfl
  | next =>
    have hrec := Receiver.next_spec t.receiver t.shared h.rx_credit_le fun hc => h.closed.symm.trans hc
    exact hrec.closed.trans hrx
  | dropReceiver => exact absurd rfl hdrop

theorem pending_prepend (hidle : t.receiver.rx = .idle) (items : List T) :
    State.pending { t with receiver := t.receiver.prepend items } = items ++ t.pending := by
  simp [State.pending, Receiver.prepend, hidle, Rx.inHand]

end Kotoconn.Protocol.Queue
