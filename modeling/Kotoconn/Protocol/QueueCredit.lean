import Kotoconn.Protocol.Queue

/-! # Queues conserve credit and items -/

namespace Kotoconn.Protocol.Queue
open List Option

variable {T : Type}

/-! ## Credit -/

def costs (items : List (T × Nat)) : Nat := (items.map Prod.snd).sum

/-- What a sender holds of `bytes`. -/
def Call.credit : Call T → Nat
  | admitted cost | permit cost | sending cost _ | releasing cost => cost
  | checked _ | loaded _ _ | pushed | discarding => 0

def Rx.credit : Rx T → Nat
  | due cost _ _ | batch cost _ | closingDue cost => cost
  | idle | trying | first _ | looked _ | last _ | closing | gone => 0

def held (calls : List (Nat × Call T)) : Nat := (calls.map fun call => call.2.credit).sum

@[simp] theorem costs_nil : costs ([] : List (T × Nat)) = 0 := rfl
@[simp] theorem costs_cons (x : T × Nat) (items : List (T × Nat)) : costs (x :: items) = x.2 + costs items := rfl
@[simp] theorem costs_append (xs ys : List (T × Nat)) : costs (xs ++ ys) = costs xs + costs ys := by simp [costs]
@[simp] theorem held_nil : held ([] : List (Nat × Call T)) = 0 := rfl
@[simp] theorem held_cons (x : Nat × Call T) (calls : List (Nat × Call T)) :
    held (x :: calls) = x.2.credit + held calls := rfl
@[simp] theorem held_append (xs ys : List (Nat × Call T)) : held (xs ++ ys) = held xs + held ys := by simp [held]

section Shared
variable {s s' : Shared T} {cost target : Nat} {item : T × Nat} {discarded : Bool}

theorem Shared.release_bytes (h : cost ≤ s.bytes) : (s.release cost).bytes = s.bytes - cost := if_pos h

theorem Shared.refresh_eq (s : Shared T) (now : Nat) : ∃ target completed updated,
    s.refresh now = { s with target, completed, updated } := by
  unfold refresh
  simp only
  split_ifs
  · exact ⟨_, _, _, rfl⟩
  · exact ⟨_, _, _, rfl⟩

theorem Shared.reserve_eq_some (h : s.reserve cost target = some s') :
    s' = { s with bytes := s.bytes + cost } ∧ (s.bytes = 0 ∨ cost ≤ target - s.bytes) := by
  unfold reserve at h
  split_ifs at h with hfull
  · cases h
    exact ⟨rfl, by omega⟩

theorem Shared.pop_eq_some (h : s.pop discarded = some (item, s')) : ∃ rest, s.items = item :: rest ∧
    s' = { s with items := rest, popped := s.popped ++ [(item.1, discarded)] } := by
  unfold pop at h
  split at h
  · cases h
  · rename_i x rest hitems
    obtain ⟨rfl, rfl⟩ := Prod.mk.inj (some.inj h)
    exact ⟨rest, hitems, rfl⟩

theorem Shared.pop_eq_none (h : s.pop discarded = none) : s.items = [] := by
  unfold pop at h
  split at h
  · assumption
  · cases h

end Shared

/-! ## One step of a sender -/

/-- What a step of one party leaves alone: the senders, `closed`, and the order of the items. -/
structure Frame (s s' : Shared T) : Prop where
  senders : s'.senders = s.senders
  closed : s'.closed = s.closed
  order : s.popped.map Prod.fst ++ s.items.map Prod.fst = s.published →
    s'.popped.map Prod.fst ++ s'.items.map Prod.fst = s'.published
  discards : ∀ p ∈ s'.popped, p ∈ s.popped ∨ p.2 = false ∨ s.closed = true

variable {s s' : Shared T} {cost : Nat}

theorem Frame.refl (s : Shared T) : Frame s s := ⟨rfl, rfl, id, fun _ => .inl⟩

theorem frame_release (s : Shared T) (cost : Nat) : Frame s (s.release cost) := ⟨rfl, rfl, id, fun _ => .inl⟩

theorem frame_complete (s : Shared T) (cost : Nat) : Frame s (s.complete cost) := ⟨rfl, rfl, id, fun _ => .inl⟩

theorem frame_push (s : Shared T) (item : T) (cost : Nat) : Frame s (s.push item cost) :=
  ⟨rfl, rfl, fun h => by simp [Shared.push, ← h], fun _ => .inl⟩

theorem frame_pop {discarded : Bool} {item : T × Nat} (h : s.pop discarded = some (item, s'))
    (hd : discarded = true → s.closed = true) : Frame s s' := by
  obtain ⟨_, hitems, rfl⟩ := Shared.pop_eq_some h
  refine ⟨rfl, rfl, fun ho => by simp [← ho, hitems], fun p hp => ?_⟩
  rcases mem_append.1 hp with hp | hp
  · exact .inl hp
  · rw [mem_singleton.1 hp]
    cases discarded with
    | false => exact .inr (.inl rfl)
    | true => exact .inr (.inr (hd rfl))

def Call.Cleans : Call T → Prop
  | pushed | discarding | releasing _ => True
  | checked _ | loaded _ _ | admitted _ | permit _ | sending _ _ => False

def Call.Ok (closed : Bool) : Call T → Prop
  | checked cost | loaded cost _ => 0 < cost
  | discarding | releasing _ => closed = true
  | admitted _ | permit _ | sending _ _ | pushed => True

theorem Call.ok_of_closed {closed : Bool} {c : Call T} (h : c.Ok closed) : c.Ok true := by
  cases c with
  | checked | loaded => exact h
  | discarding | releasing => exact rfl
  | admitted | permit | sending | pushed => trivial

structure Sent (s : Shared T) (c : Call T) (after : Option (Call T) × Shared T) : Prop where
  frame : Frame s after.2
  balance : after.2.bytes + (c.credit + costs s.items) =
    s.bytes + ((after.1.map Call.credit).getD 0 + costs after.2.items)
  ok : ∀ c', after.1 = some c' → c'.Ok s.closed
  cleans : after.2.items = [] ∨ (∃ c', after.1 = some c' ∧ c'.Cleans) ∨ (after.2.items = s.items ∧ ¬ c.Cleans) ∨
    s.closed = false
  /-- `bytes` is raised only by an admission within the target. -/
  raises : s.bytes < after.2.bytes → ∃ cost target, c = .loaded cost target ∧ after.2.bytes = s.bytes + cost ∧
    (s.bytes = 0 ∨ s.bytes + cost ≤ target)

theorem Call.sent_release (h : cost ≤ s.bytes) {c : Call T} (hc : c.credit = cost) (hclean : ¬ c.Cleans) :
    Sent s c (none, s.release cost) where
  frame := frame_release s cost
  balance := by
    have hitems : (s.release cost).items = s.items := rfl
    simp only [Shared.release_bytes h, hitems, map_none, getD_none]
    omega
  ok c' hc' := by cases hc'
  cleans := .inr (.inr (.inl ⟨rfl, hclean⟩))
  raises hlt := by
    simp only [Shared.release_bytes h] at hlt
    omega

theorem Call.sent_stay {c : Call T} {after : Option (Call T)} (hcredit : (after.map credit).getD 0 = c.credit)
    (hok : ∀ c', after = some c' → c'.Ok s.closed)
    (hclean : ¬ c.Cleans ∨ (∃ c', after = some c' ∧ c'.Cleans) ∨ s.items = [] ∨ s.closed = false) :
    Sent s c (after, s) where
  frame := .refl s
  balance := by rw [hcredit]
  ok := hok
  cleans := by
    rcases hclean with h | h | h | h
    · exact .inr (.inr (.inl ⟨rfl, h⟩))
    · exact .inr (.inl h)
    · exact .inl h
    · exact .inr (.inr (.inr h))
  raises h := absurd h (lt_irrefl _)

theorem Call.next_spec (s : Shared T) (c : Call T) (hok : c.Ok s.closed) (hcredit : c.credit ≤ s.bytes) :
    Sent s c (c.next s) := by
  have hnone : ∀ c' : Call T, (none : Option (Call T)) = some c' → c'.Ok s.closed := fun c' h => by cases h
  cases c with
  | checked => exact sent_stay rfl (fun c' h => by cases h; exact hok) (.inl id)
  | loaded cost target =>
    simp only [next]
    cases hreserve : s.reserve cost target with
    | none => exact sent_stay rfl hnone (.inl id)
    | some =>
      obtain ⟨rfl, _⟩ := Shared.reserve_eq_some hreserve
      refine ⟨⟨rfl, rfl, id, fun _ => .inl⟩, ?_, fun c' h => by cases h; trivial,
        .inr (.inr (.inl ⟨rfl, id⟩)), fun _ => ⟨cost, target, rfl, rfl, ?_⟩⟩
      · simp only [credit, map_some, getD_some]
        omega
      · have hpos : 0 < cost := hok
        omega
  | admitted =>
    simp only [next]
    split_ifs
    · exact sent_release hcredit rfl id
    · exact sent_stay rfl (fun c' h => by cases h; trivial) (.inl id)
  | permit => exact sent_stay rfl (fun c' h => by cases h; trivial) (.inl id)
  | sending cost item =>
    refine ⟨frame_push s item cost, ?_, fun c' h => by cases h; trivial, .inr (.inl ⟨_, rfl, trivial⟩), fun h =>
      absurd h (lt_irrefl _)⟩
    simp only [next, Shared.push, credit, costs_append, costs_cons, costs_nil, map_some, getD_some]
    omega
  | pushed =>
    simp only [next]
    split_ifs with hclosed
    · exact sent_stay rfl (fun c' h => by cases h; exact hclosed) (.inr (.inl ⟨_, rfl, trivial⟩))
    · exact sent_stay rfl hnone (.inr (.inr (.inr (by simpa using hclosed))))
  | discarding =>
    simp only [next]
    cases hpop : s.pop true with
    | none => exact sent_stay rfl hnone (.inr (.inr (.inl (Shared.pop_eq_none hpop))))
    | some popped =>
      obtain ⟨⟨_, cost⟩, _⟩ := popped
      have hframe := frame_pop hpop fun _ => hok
      obtain ⟨_, hitems, rfl⟩ := Shared.pop_eq_some hpop
      refine ⟨hframe, ?_, fun c' h => by cases h; exact hok, .inr (.inl ⟨_, rfl, trivial⟩), fun h =>
        absurd h (lt_irrefl _)⟩
      simp only [hitems, credit, costs_cons, map_some, getD_some]
      omega
  | releasing cost =>
    have hbytes : (s.release cost).bytes = s.bytes - cost := Shared.release_bytes hcredit
    have hitems : (s.release cost).items = s.items := rfl
    simp only [credit] at hcredit
    refine ⟨frame_release s cost, ?_, fun c' h => by cases h; exact hok, .inr (.inl ⟨_, rfl, trivial⟩), fun h => ?_⟩
    · simp only [next, credit, map_some, getD_some, hbytes, hitems]
      omega
    · simp only [next, hbytes] at h
      omega

theorem Call.send_spec (s : Shared T) (item : T) (hcredit : cost ≤ s.bytes) :
    Sent s (.permit cost) (Call.send s cost item) := by
  unfold send
  split_ifs
  · exact sent_release hcredit rfl id
  · exact sent_stay rfl (fun c' h => by cases h; trivial) (.inl id)

/-! ## One step of the receiver -/

def Rx.isClosed : Rx T → Bool
  | closing | closingDue _ | gone => true
  | idle | trying | first _ | looked _ | last _ | due _ _ _ | batch _ _ => false

structure Received (r : Receiver T) (s : Shared T) (after : Receiver T × Shared T × Option (Option T)) : Prop where
  frame : Frame s after.2.1
  balance : after.2.1.bytes + (r.rx.credit + costs s.items) = s.bytes + (after.1.rx.credit + costs after.2.1.items)
  closed : after.1.rx.isClosed = r.rx.isClosed
  lowers : after.2.1.bytes ≤ s.bytes
  gone : after.1.rx = .gone → after.2.1.items = [] ∨ (r.rx = .gone ∧ after.2.1.items = s.items)
  last : ∀ wanted, after.1.rx = .last wanted → s.senders = 0 ∨ r.rx = .last wanted
  ended : after.2.2 = some none → s.items = [] ∧ ∃ wanted, r.rx = .last wanted

theorem Rx.more_open (wanted : Nat) : (Rx.more wanted : Rx T).isClosed = false ∧ (Rx.more wanted : Rx T).credit = 0 ∧
    (Rx.more wanted : Rx T) ≠ .gone ∧ ∀ n, (Rx.more wanted : Rx T) ≠ .last n := by
  unfold more
  split_ifs <;> exact ⟨rfl, rfl, nofun, nofun⟩

namespace Receiver
variable {r : Receiver T}

theorem received_stay {r' : Receiver T} {out : Option (Option T)} (hcredit : r'.rx.credit = r.rx.credit)
    (hopen : r.rx.isClosed = false) (hopen' : r'.rx.isClosed = false)
    (hlast : ∀ wanted, r'.rx = .last wanted → s.senders = 0)
    (hended : out = some none → s.items = [] ∧ ∃ wanted, r.rx = .last wanted) : Received r s (r', s, out) where
  frame := .refl s
  balance := by rw [hcredit]
  closed := hopen'.trans hopen.symm
  lowers := le_rfl
  gone h := by rw [h] at hopen'; cases hopen'
  last wanted h := .inl (hlast wanted h)
  ended := hended

theorem received_pop {item : T × Nat} {r' : Receiver T} {out : Option (Option T)} (hpop : s.pop false = some (item, s'))
    (hcredit : r'.rx.credit = r.rx.credit + item.2) (hopen : r.rx.isClosed = false) (hopen' : r'.rx.isClosed = false)
    (hlast : ∀ wanted, r'.rx ≠ .last wanted) (hout : out ≠ some none) : Received r s (r', s', out) := by
  have hframe : Frame s s' := frame_pop hpop nofun
  obtain ⟨_, hitems, rfl⟩ := Shared.pop_eq_some hpop
  refine ⟨hframe, ?_, hopen'.trans hopen.symm, le_rfl, fun h => ?_, fun wanted h => absurd h (hlast wanted),
    fun h => absurd h hout⟩
  · simp only [hitems, hcredit, costs_cons]
    omega
  · simp only at h
    rw [h] at hopen'
    cases hopen'

theorem finish_spec (hrx : r.rx.credit = cost) (hopen : r.rx.isClosed = false) (hcredit : cost ≤ s.bytes) :
    Received r s ((r.finish s cost).1, (r.finish s cost).2, none) := by
  have hbytes : (s.complete cost).bytes = s.bytes - cost := Shared.release_bytes hcredit
  have hitems : (s.complete cost).items = s.items := rfl
  unfold finish
  split_ifs with hcost
  · refine ⟨frame_complete s cost, ?_, hopen.symm, by simp only [hbytes]; omega, nofun, nofun, nofun⟩
    rw [hrx, hbytes, hitems]
    change s.bytes - cost + (cost + costs s.items) = s.bytes + (0 + costs s.items)
    omega
  · exact received_stay (by rw [hrx]; exact (not_not.1 hcost).symm) hopen rfl nofun nofun

theorem next_spec (r : Receiver T) (s : Shared T) (hcredit : r.rx.credit ≤ s.bytes)
    (hclosed : r.rx.isClosed = true → s.closed = true) : Received r s (r.next s) := by
  unfold next
  cases hrx : r.rx with
  | idle => exact received_stay rfl (by rw [hrx]; rfl) (by rw [hrx]; rfl) (fun w h => by rw [hrx] at h; cases h) nofun
  | trying =>
    have hopen : r.rx.isClosed = false := by rw [hrx]; rfl
    simp only
    cases r.front with
    | cons => exact received_stay (by rw [hrx]; rfl) hopen rfl nofun nofun
    | nil =>
      simp only
      cases hpop : s.pop false with
      | some =>
        exact received_pop hpop (by rw [hrx]; exact (zero_add _).symm) hopen rfl nofun nofun
      | none => exact received_stay (by rw [hrx]; rfl) hopen rfl nofun nofun
  | first wanted =>
    have hopen : r.rx.isClosed = false := by rw [hrx]; rfl
    simp only
    cases r.front with
    | cons =>
      obtain ⟨h1, h2, -, h4⟩ := Rx.more_open (T := T) wanted
      exact received_stay (by rw [hrx]; exact h2) hopen h1 (fun n h => absurd h (h4 n)) nofun
    | nil =>
      simp only
      cases hpop : s.pop false with
      | some =>
        exact received_pop hpop (by rw [hrx]; exact (zero_add _).symm) hopen rfl nofun nofun
      | none => exact received_stay (by rw [hrx]; rfl) hopen rfl nofun nofun
  | looked =>
    have hopen : r.rx.isClosed = false := by rw [hrx]; rfl
    simp only
    split_ifs with hsenders
    · exact received_stay (by rw [hrx]; rfl) hopen rfl (fun _ _ => hsenders) nofun
    · exact received_stay (by rw [hrx]; rfl) hopen rfl nofun nofun
  | last wanted =>
    have hopen : r.rx.isClosed = false := by rw [hrx]; rfl
    simp only
    cases hpop : s.pop false with
    | some => exact received_pop hpop (by rw [hrx]; exact (zero_add _).symm) hopen rfl nofun nofun
    | none => exact received_stay (by rw [hrx]; rfl) hopen rfl nofun fun _ => ⟨Shared.pop_eq_none hpop, wanted, hrx⟩
  | due cost _ wanted =>
    rw [hrx] at hcredit
    have hbytes : (s.complete cost).bytes = s.bytes - cost := Shared.release_bytes hcredit
    have hitems : (s.complete cost).items = s.items := rfl
    obtain ⟨h1, h2, h3, h4⟩ := Rx.more_open (T := T) wanted
    simp only [Rx.credit] at hcredit
    refine ⟨frame_complete s cost, ?_, by rw [hrx]; exact h1, by simp only [hbytes]; omega, fun h => absurd h h3,
      fun n h => absurd h (h4 n), nofun⟩
    rw [hrx, h2, hbytes, hitems]
    change s.bytes - cost + (cost + costs s.items) = s.bytes + (0 + costs s.items)
    omega
  | batch =>
    have hopen : r.rx.isClosed = false := by rw [hrx]; rfl
    rw [hrx] at hcredit
    have hfinish := finish_spec (r := r) (s := s) (by rw [hrx]) hopen hcredit
    simp only
    split_ifs
    · exact hfinish
    · cases r.front with
      | cons => exact received_stay (by rw [hrx]; rfl) hopen rfl nofun nofun
      | nil =>
        simp only
        cases hpop : s.pop false with
        | some => exact received_pop hpop (by rw [hrx]; rfl) hopen rfl nofun nofun
        | none => exact hfinish
  | closing =>
    simp only
    cases hpop : s.pop true with
    | none =>
      exact ⟨.refl s, by rw [hrx]; rfl, by rw [hrx]; rfl, le_rfl, fun _ => .inl (Shared.pop_eq_none hpop),
        nofun, nofun⟩
    | some popped =>
      obtain ⟨⟨_, cost⟩, _⟩ := popped
      have hframe := frame_pop hpop fun _ => hclosed (by rw [hrx]; rfl)
      obtain ⟨_, hitems, rfl⟩ := Shared.pop_eq_some hpop
      refine ⟨hframe, ?_, by rw [hrx]; rfl, le_rfl, nofun, nofun, nofun⟩
      simp only [hitems, hrx, Rx.credit, costs_cons]
      omega
  | closingDue cost =>
    rw [hrx] at hcredit
    have hbytes : (s.release cost).bytes = s.bytes - cost := Shared.release_bytes hcredit
    have hitems : (s.release cost).items = s.items := rfl
    simp only [Rx.credit] at hcredit
    refine ⟨frame_release s cost, ?_, by rw [hrx]; rfl, by simp only [hbytes]; omega, nofun, nofun, nofun⟩
    simp only [hbytes, hitems, hrx, Rx.credit]
    omega
  | gone =>
    exact ⟨.refl s, rfl, rfl, le_rfl, fun _ => .inr ⟨hrx, rfl⟩, fun n h => absurd (hrx.symm.trans h) nofun,
      nofun⟩

end Receiver

/-! ## Runs -/

/-- `bytes` is the cost of the published items, of the permits and of the releases still due. -/
def Balanced (s : State T) : Prop :=
  s.shared.bytes = costs s.shared.items + held s.calls + s.receiver.rx.credit

structure Inv (s : State T) : Prop where
  balanced : Balanced s
  senders : s.shared.senders = s.handles.length
  owned : ∀ call ∈ s.calls, call.1 ∈ s.handles
  ok : ∀ call ∈ s.calls, call.2.Ok s.shared.closed
  closed : s.receiver.rx.isClosed = s.shared.closed
  order : s.shared.popped.map Prod.fst ++ s.shared.items.map Prod.fst = s.shared.published
  discards : ∀ p ∈ s.shared.popped, p.2 = true → s.shared.closed = true
  drained : s.receiver.rx = .gone → s.shared.items = [] ∨ ∃ call ∈ s.calls, call.2.Cleans
  last : ∀ wanted, s.receiver.rx = .last wanted → s.handles = []

theorem inv_new (initial : Nat) : Inv (State.new initial : State T) := by
  refine ⟨rfl, rfl, ?_, ?_, rfl, rfl, ?_, nofun, nofun⟩ <;> simp [State.new, Shared.new]

variable {t t' : State T} {size : Nat} {out : Option (Option T)}

variable (h : Inv t)
include h

theorem Inv.resume {left right : List (Nat × Call T)} {handle : Nat} {c : Call T}
    {after : Option (Call T) × Shared T} (hc : t.calls = left ++ (handle, c) :: right) (hsent : Sent t.shared c after) :
    Inv (t.resume left handle right after) := by
  have hmem : (handle, c) ∈ t.calls := by rw [hc]; simp
  have hrest : ∀ {call}, call ∈ left ++ (after.1.toList.map fun c => (handle, c)) ++ right →
      call ∈ t.calls ∨ ∃ c', after.1 = some c' ∧ call = (handle, c') := by
    intro call hcall
    rw [hc]
    rcases mem_append.1 hcall with hcall | hcall
    · rcases mem_append.1 hcall with hcall | hcall
      · exact .inl (mem_append_left _ hcall)
      · obtain ⟨c', hc', rfl⟩ := List.mem_map.1 hcall
        exact .inr ⟨c', mem_toList.1 hc', rfl⟩
    · exact .inl (mem_append_right _ (mem_cons_of_mem _ hcall))
  have hheld : held (after.1.toList.map fun c => (handle, c)) = (after.1.map Call.credit).getD 0 := by
    cases after.1 <;> rfl
  constructor
  case balanced =>
    have h1 := h.balanced
    have h2 := hsent.balance
    simp only [Balanced, State.resume, hc, held_append, held_cons, hheld] at h1 ⊢
    omega
  case senders => exact hsent.frame.senders.trans h.senders
  case owned =>
    intro call hcall
    rcases hrest hcall with hcall | ⟨c', -, rfl⟩
    · exact h.owned call hcall
    · exact h.owned (handle, c) hmem
  case ok =>
    intro call hcall
    rw [show (t.resume left handle right after).shared.closed = t.shared.closed from hsent.frame.closed]
    rcases hrest hcall with hcall | ⟨c', hc', rfl⟩
    · exact h.ok call hcall
    · exact hsent.ok c' hc'
  case closed => exact h.closed.trans hsent.frame.closed.symm
  case order => exact hsent.frame.order h.order
  case discards =>
    intro p hp hd
    rw [show (t.resume left handle right after).shared.closed = t.shared.closed from hsent.frame.closed]
    rcases hsent.frame.discards p hp with hp | hp | hp
    · exact h.discards p hp hd
    · rw [hd] at hp; cases hp
    · exact hp
  case drained =>
    intro hgone
    have hclosed : t.shared.closed = true := by
      have hc := h.closed
      rw [show t.receiver.rx = .gone from hgone] at hc
      exact hc.symm
    rcases hsent.cleans with hempty | ⟨c', hc', hclean⟩ | ⟨hsame, hno⟩ | hopen
    · exact .inl hempty
    · exact .inr ⟨(handle, c'), by simp [State.resume, hc'], hclean⟩
    · refine (h.drained hgone).imp (fun he => hsame.trans he) ?_
      rintro ⟨call, hcall, hclean⟩
      rw [hc] at hcall
      refine ⟨call, ?_, hclean⟩
      rcases mem_append.1 hcall with hcall | hcall
      · simp [State.resume, hcall]
      · rcases mem_cons.1 hcall with rfl | hcall
        · exact absurd hclean hno
        · simp [State.resume, hcall]
    · rw [hclosed] at hopen; cases hopen
  case last => exact h.last

theorem Inv.credit_le {call : Nat × Call T} (hcall : call ∈ t.calls) : call.2.credit ≤ t.shared.bytes := by
  obtain ⟨_, _, hcalls⟩ := append_of_mem hcall
  have := h.balanced
  simp only [Balanced, hcalls, held_append, held_cons] at this
  omega

theorem Inv.rx_credit_le : t.receiver.rx.credit ≤ t.shared.bytes := by
  have := h.balanced
  unfold Balanced at this
  omega

theorem Inv.dropPermit {left right : List (Nat × Call T)} {handle cost : Nat}
    (hc : t.calls = left ++ (handle, .permit cost) :: right) :
    Inv (t.resume left handle right (none, t.shared.release cost)) := by
  have hmem : (handle, Call.permit cost) ∈ t.calls := by rw [hc]; simp
  exact h.resume hc (Call.sent_release (h.credit_le hmem) rfl id)

theorem Inv.receiver : Inv { t with
    receiver := (t.receiver.next t.shared).1, shared := (t.receiver.next t.shared).2.1 } := by
  have hrec := Receiver.next_spec t.receiver t.shared h.rx_credit_le fun hc => h.closed.symm.trans hc
  constructor
  case balanced =>
    have h1 := h.balanced
    have h2 := hrec.balance
    unfold Balanced at h1 ⊢
    simp only
    omega
  case senders => exact hrec.frame.senders.trans h.senders
  case owned => exact h.owned
  case ok =>
    intro call hcall
    simp only [hrec.frame.closed]
    exact h.ok call hcall
  case closed => exact hrec.closed.trans (h.closed.trans hrec.frame.closed.symm)
  case order => exact hrec.frame.order h.order
  case discards =>
    intro p hp hd
    simp only [hrec.frame.closed]
    rcases hrec.frame.discards p hp with hp | hp | hp
    · exact h.discards p hp hd
    · rw [hd] at hp; cases hp
    · exact hp
  case drained =>
    intro hgone
    rcases hrec.gone hgone with hempty | ⟨hgone', hsame⟩
    · exact .inl hempty
    · exact (h.drained hgone').imp_left fun he => hsame.trans he
  case last =>
    intro wanted hlast
    rcases hrec.last wanted hlast with hnone | hlast'
    · exact length_eq_zero_iff.1 (h.senders.symm.trans hnone)
    · exact h.last wanted hlast'

theorem Inv.idle {receiver : Receiver T} (hidle : t.receiver.rx = .idle)
    (hcredit : receiver.rx.credit = 0) (hopen : receiver.rx.isClosed = false)
    (hlast : ∀ wanted, receiver.rx ≠ .last wanted) : Inv { t with receiver := receiver } := by
  have hclosed := h.closed
  have hbalanced := h.balanced
  rw [hidle] at hclosed
  unfold Balanced at hbalanced
  rw [hidle] at hbalanced
  refine ⟨?_, h.senders, h.owned, h.ok, hopen.trans hclosed, h.order, h.discards, fun hgone => ?_,
    fun wanted hl => absurd hl (hlast wanted)⟩
  · unfold Balanced
    rw [hbalanced, hcredit]
    rfl
  · simp only at hgone
    rw [hgone] at hopen
    cases hopen

theorem Inv.step (hstep : t.Step size out t') : Inv t' := by
  cases hstep with
  | clone _ hs =>
    exact ⟨h.balanced, congrArg (· + 1) h.senders, fun call hcall => mem_cons_of_mem _ (h.owned call hcall), h.ok,
      h.closed, h.order, h.discards, h.drained, fun wanted hl => absurd (h.last wanted hl) hs⟩
  | dropSender _ hh hfree =>
    refine ⟨h.balanced, ?_, fun call hcall => ?_, h.ok, h.closed, h.order, h.discards, h.drained, fun wanted hl => ?_⟩
    · simp only [length_erase_of_mem hh, h.senders]
    · exact (mem_erase_of_ne (hfree call hcall)).2 (h.owned call hcall)
    · rw [h.last wanted hl] at hh
      cases hh
  | reserve _ _ hh =>
    refine ⟨?_, h.senders, ?_, ?_, h.closed, h.order, h.discards, fun hgone => ?_, h.last⟩
    · have := h.balanced
      simpa [Balanced, Call.credit] using this
    · intro call hcall
      rcases mem_append.1 hcall with hcall | hcall
      · exact h.owned call hcall
      · rw [mem_singleton.1 hcall]
        exact hh
    · intro call hcall
      rcases mem_append.1 hcall with hcall | hcall
      · exact h.ok call hcall
      · rw [mem_singleton.1 hcall]
        exact lt_of_lt_of_le (lt_of_lt_of_le Nat.zero_lt_one (le_max_right size 1)) (Nat.le_add_left _ _)
    · exact (h.drained hgone).imp_right fun ⟨call, hcall, hclean⟩ => ⟨call, mem_append_left _ hcall, hclean⟩
  | call _ handle c _ hc =>
    have hmem : (handle, c) ∈ t.calls := by rw [hc]; simp
    exact h.resume hc (Call.next_spec t.shared c (h.ok _ hmem) (h.credit_le hmem))
  | send _ handle cost item _ hc =>
    have hmem : (handle, Call.permit cost) ∈ t.calls := by rw [hc]; simp
    exact h.resume hc (Call.send_spec t.shared item (h.credit_le hmem))
  | dropPermit _ _ _ _ hc => exact h.dropPermit hc
  | refresh now =>
    obtain ⟨_, _, _, hsame⟩ := t.shared.refresh_eq now
    rw [hsame]
    exact ⟨h.balanced, h.senders, h.owned, h.ok, h.closed, h.order, h.discards, h.drained, h.last⟩
  | receive _ hidle => exact h.idle hidle rfl rfl nofun
  | tryReceive hidle => exact h.idle hidle rfl rfl nofun
  | next => exact h.receiver
  | prepend _ hidle =>
    exact h.idle hidle (by simp [Receiver.prepend, hidle, Rx.credit]) (by simp [Receiver.prepend, hidle, Rx.isClosed])
      (by simp [Receiver.prepend, hidle])
  | dropReceiver hidle =>
    have hbalanced := h.balanced
    unfold Balanced at hbalanced
    rw [hidle] at hbalanced
    exact ⟨hbalanced, h.senders, h.owned, fun call hcall => Call.ok_of_closed (h.ok call hcall), rfl, h.order,
      fun _ _ _ => rfl, nofun, nofun⟩

omit h

theorem State.Reachable.inv {initial : Nat} (h : State.Reachable size initial t) : Inv t := by
  induction h with
  | new => exact inv_new initial
  | step _ hstep ih => exact ih.step hstep

/-! ## The consequences -/

/-- The step is an admission: the call raised `bytes` from nothing, or within the target it had read. -/
def Admission (t t' : State T) : Prop :=
  ∃ left handle cost target right, t.calls = left ++ (handle, .loaded cost target) :: right ∧
    t'.shared.bytes = t.shared.bytes + cost ∧ (t.shared.bytes = 0 ∨ t.shared.bytes + cost ≤ target)

theorem Inv.raises (h : Inv t) (hstep : t.Step size out t') (hlt : t.shared.bytes < t'.shared.bytes) :
    Admission t t' := by
  cases hstep with
  | call left handle c right hc =>
    have hmem : (handle, c) ∈ t.calls := by rw [hc]; simp
    obtain ⟨cost, target, rfl, hraise⟩ :=
      (Call.next_spec t.shared c (h.ok _ hmem) (h.credit_le hmem)).raises hlt
    exact ⟨left, handle, cost, target, right, hc, hraise⟩
  | send _ handle cost item _ hc =>
    have hmem : (handle, Call.permit cost) ∈ t.calls := by rw [hc]; simp
    obtain ⟨_, _, hcall, -⟩ := (Call.send_spec t.shared item (h.credit_le hmem)).raises hlt
    cases hcall
  | dropPermit _ handle cost _ hc =>
    have hmem : (handle, Call.permit cost) ∈ t.calls := by rw [hc]; simp
    have hbytes : (t.shared.release cost).bytes = t.shared.bytes - cost := Shared.release_bytes (h.credit_le hmem)
    simp only [State.resume, hbytes] at hlt
    omega
  | refresh now =>
    obtain ⟨_, _, _, hsame⟩ := t.shared.refresh_eq now
    rw [hsame] at hlt
    exact absurd hlt (lt_irrefl _)
  | next =>
    have hrec := Receiver.next_spec t.receiver t.shared h.rx_credit_le fun hc => h.closed.symm.trans hc
    exact absurd hrec.lowers (not_le.2 hlt)
  | clone | dropSender | reserve | receive | tryReceive | prepend | dropReceiver => exact absurd hlt (lt_irrefl _)

theorem Inv.ended (h : Inv t) (hstep : t.Step size (some none) t') :
    t.handles = [] ∧ t.calls = [] ∧ t.shared.items = [] := by
  generalize hout : (some none : Option (Option T)) = out at hstep
  cases hstep with
  | next =>
    have hrec := Receiver.next_spec t.receiver t.shared h.rx_credit_le fun hc => h.closed.symm.trans hc
    obtain ⟨hitems, wanted, hlast⟩ := hrec.ended hout.symm
    have hhandles := h.last wanted hlast
    refine ⟨hhandles, eq_nil_iff_forall_not_mem.2 fun call hcall => ?_, hitems⟩
    have := h.owned call hcall
    rw [hhandles] at this
    cases this
  | clone | dropSender | reserve | call | send | dropPermit | refresh | receive | tryReceive | prepend | dropReceiver =>
    cases hout

theorem Inv.settled (h : Inv t) (hgone : t.receiver.rx = .gone) (hcalls : t.calls = []) :
    t.shared.bytes = 0 ∧ t.shared.items = [] := by
  have hitems : t.shared.items = [] := by
    rcases h.drained hgone with hempty | ⟨call, hcall, -⟩
    · exact hempty
    · rw [hcalls] at hcall
      cases hcall
  have := h.balanced
  unfold Balanced at this
  rw [hgone, hcalls, hitems] at this
  exact ⟨this, hitems⟩

/-- **Queues conserve credit and items.** In every reachable state `bytes` is the cost of the published items, the
permits and the releases still due, and covers each of them, so that no release underflows; the items taken out are
the published ones in their order, with discards only after closing. A step raises `bytes` only as an admission and
reports the end only when no sender is left and nothing is queued. Nothing stays behind once the receiver is gone and
no call is open. -/
theorem queue_conserves (initial : Nat) (h : State.Reachable size initial t) :
    Balanced t ∧ (∀ call ∈ t.calls, call.2.credit ≤ t.shared.bytes) ∧ t.receiver.rx.credit ≤ t.shared.bytes ∧
      t.shared.popped.map Prod.fst ++ t.shared.items.map Prod.fst = t.shared.published ∧
      (∀ p ∈ t.shared.popped, p.2 = true → t.shared.closed = true) ∧
      (∀ out t', t.Step size out t' → t.shared.bytes < t'.shared.bytes → Admission t t') ∧
      (∀ t', t.Step size (some none) t' → t.handles = [] ∧ t.calls = [] ∧ t.shared.items = []) ∧
      (t.receiver.rx = .gone → t.calls = [] →
        t.shared.bytes = 0 ∧ t.shared.popped.map Prod.fst = t.shared.published) := by
  have hinv := h.inv
  refine ⟨hinv.balanced, fun call => hinv.credit_le, hinv.rx_credit_le, hinv.order, hinv.discards,
    fun out t' => hinv.raises, fun t' => hinv.ended, fun hgone hcalls => ?_⟩
  obtain ⟨hbytes, hitems⟩ := hinv.settled hgone hcalls
  refine ⟨hbytes, ?_⟩
  have := hinv.order
  rwa [hitems, map_nil, append_nil] at this

/-- A sender is admitted, and the receiver goes before it looks again: its reservation is still counted. -/
theorem queue_conserves_racing : ∃ t : State Nat, State.Reachable 24 initialBytes t ∧ t.shared.closed = true ∧
    t.shared.bytes = 124 ∧ Balanced t := by
  have h0 : State.Reachable 24 initialBytes (State.new initialBytes : State Nat) := .new
  have h1 := h0.step (.reserve 0 100 (by decide) rfl (by decide))
  have h2 := h1.step (.call [] 0 (.checked 124) [] rfl)
  have h3 := h2.step (.call [] 0 (.loaded 124 initialBytes) [] rfl)
  have h4 := h3.step (.dropReceiver rfl)
  exact ⟨_, h4, rfl, rfl, (queue_conserves initialBytes h4).1⟩

end Kotoconn.Protocol.Queue
