import Kotoconn.Lib.Totals

/-!
# `client.rs`: the session manager

`Manager`: the task `manage` with its channels, the sessions it made and the leases of all of them; `Manager.step`:
one operation of the task, of a caller, of a connection or of a lease that is dropped.
-/

namespace Kotoconn.Hysteria2

open Lib List Option Function Table AList

inductive Stage where
  | held
  | dropping
  deriving DecidableEq

/-- `Lease`; sessions are numbered. -/
structure Lease where
  session : Nat
  stage : Stage
  deriving DecidableEq

inductive Cause where
  | hangUp
  | released
  | abandoned
  | failed
  deriving DecidableEq

/-- The next operation of `manage`; requests and leases are numbered. -/
inductive Point where
  | select
  | polled
  | notified
  | taken (r : Nat)
  | refused
  | checking (r : Nat)
  | connecting (r : Nat)
  | granting (r : Nat)
  | replying (r l : Nat)
  | discarding (l : Nat)
  | returned (why : Cause)
  deriving DecidableEq

/-- The task and what it shares. `strong` are the reference counts of the sessions, `gone` the requests whose callers
dropped the receiver, `replies` those sent, without a lease for an error. -/
structure Manager where
  point : Point
  session : Option Nat
  requests : List Nat
  asked : Nat
  senders : Bool
  gone : List Nat
  made : Nat
  strong : Nat → Nat
  closed : List Nat
  leases : Table Nat Lease
  granted : Nat
  notice : Bool
  replies : List (Nat × Option Nat)

inductive Manager.Event where
  | manage
  /-- the outcome of `connect`, or of its timeout -/
  | connected (ok : Bool)
  | request
  | abandon (r : Nat)
  | hangUp
  | disconnect (x : Nat)
  | release (l : Nat)
  /-- the drop of a lease ends: `Released::drop` -/
  | notify (l : Nat)

namespace Manager

def start : Manager := ⟨.select, none, [], 0, true, [], 0, fun _ => 0, [], ∅, 0, false, []⟩

def capacity : Nat := 64

def goto (s : Manager) (point : Point) : Manager := { s with point }

def unused (s : Manager) : Bool :=
  match s.session with
  | none => true
  | some x => s.strong x = 1

def dropSession (s : Manager) : Manager :=
  match s.session with
  | none => s
  | some x => { s with session := none, strong := update s.strong x (s.strong x - 1) }

def finish (s : Manager) (why : Cause) : Manager :=
  { s.dropSession with point := .returned why, requests := [], notice := false }

/-- `connect` succeeded for the request. -/
def connect (s : Manager) (r : Nat) : Manager :=
  { s with
    point := .granting r
    session := some s.made
    made := s.made + 1
    strong := update s.strong s.made 1 }

def grant (s : Manager) (r x : Nat) : Manager :=
  { s with
    point := .replying r s.granted
    leases := s.leases.insert s.granted ⟨x, .held⟩
    strong := update s.strong x (s.strong x + 1)
    granted := s.granted + 1 }

def reply (s : Manager) (r : Nat) (answer : Option Nat) : Manager :=
  if r ∈ s.gone then s else { s with replies := s.replies ++ [(r, answer)] }

def releaseLease (s : Manager) (l : Nat) (x : Nat) : Manager :=
  { s with
    leases := s.leases.insert l ⟨x, .dropping⟩
    strong := update s.strong x (s.strong x - 1) }

/-- `Released::drop`; a notification that finds another one in the channel is lost. -/
def notifyLease (s : Manager) (l : Nat) (listening : Bool) : Manager :=
  { s with leases := s.leases.erase l, notice := s.notice || listening }

def waiting (s : Manager) : Bool := s.point = .select ∨ s.point = .polled

/-- The next operation of `manage`; `none` while it waits for the connection. -/
def manage (s : Manager) : Option Manager :=
  match s.point with
  | .select =>
    match s.requests with
    | r :: requests => some { s with point := .taken r, requests }
    | [] => if s.senders then some (s.goto .polled) else some (s.finish .hangUp)
  | .polled => if s.notice then some { s with point := .notified, notice := false } else some (s.goto .select)
  | .notified => if s.unused then some (s.finish .released) else some (s.goto .select)
  | .taken r => if r ∈ s.gone then some (s.goto .refused) else some (s.goto (.checking r))
  | .refused => if s.unused then some (s.finish .abandoned) else some (s.goto .select)
  | .checking r =>
    match s.session with
    | none => some (s.goto (.connecting r))
    | some x => if x ∈ s.closed then some (s.dropSession.goto (.connecting r)) else some (s.goto (.granting r))
  | .connecting r => if r ∈ s.gone then some (s.finish .abandoned) else none
  | .granting r => s.session.map (s.grant r)
  | .replying r l =>
    match s.leases.lookup l with
    | none => none
    | some lease =>
      if r ∈ s.gone then some ((s.releaseLease l lease.session).goto (.discarding l))
      else some ((s.reply r (some l)).goto .select)
  | .discarding l => some ((s.notifyLease l true).goto .select)
  | .returned _ => none

/-- The lease is still a local of `manage`. -/
def inHand (s : Manager) (l : Nat) : Bool :=
  match s.point with
  | .replying _ l' => l = l'
  | .discarding l' => l = l'
  | _ => false

def running (s : Manager) : Bool :=
  match s.point with
  | .returned _ => false
  | _ => true

def step (s : Manager) : Event → Option Manager
  | .manage => s.manage
  | .connected ok =>
    match s.point with
    | .connecting r =>
      if ok then some (s.connect r)
      else some ((s.reply r none).finish .failed)
    | _ => none
  | .request =>
    if s.senders ∧ s.running ∧ s.requests.length < capacity then
      some { s with requests := s.requests ++ [s.asked], asked := s.asked + 1 }
    else none
  | .abandon r => some { s with gone := r :: s.gone }
  | .hangUp => some { s with senders := false }
  | .disconnect x => if x < s.made then some { s with closed := x :: s.closed } else none
  | .release l =>
    match s.leases.lookup l with
    | some ⟨x, .held⟩ => if s.inHand l then none else some (s.releaseLease l x)
    | _ => none
  | .notify l =>
    match s.leases.lookup l with
    | some ⟨_, .dropping⟩ => if s.inHand l then none else some (s.notifyLease l s.running)
    | _ => none

inductive Run : List Manager → Manager → Prop
  | start : Run [] start
  | step {hist : List Manager} {s s' : Manager} {e : Event} : Run hist s → s.step e = some s' → Run (hist ++ [s]) s'

variable {s s' : Manager} {hist : List Manager} {x l r : Nat}

def Holds (s : Manager) (x : Nat) : Prop := ∃ l, s.leases.lookup l = some ⟨x, .held⟩

def Existing (s : Manager) (x : Nat) : Prop := ∃ l stage, s.leases.lookup l = some ⟨x, stage⟩

theorem Holds.existing (h : s.Holds x) : s.Existing x :=
  let ⟨l, hl⟩ := h
  ⟨l, .held, hl⟩

/-! ## Reference counts -/

def holding (x : Nat) (lease : Lease) : Bool := lease.session = x ∧ lease.stage = .held

def own (session : Option Nat) (x : Nat) : Nat := (session = some x : Bool).toNat

theorem own_none : own none x = 0 := rfl

theorem own_some {y : Nat} : own (some y) x = if y = x then 1 else 0 := by
  unfold own
  by_cases h : y = x
  · simp [h]
  · simp [h]

structure Counted (s : Manager) : Prop where
  strong : ∀ x, s.strong x = own s.session x + Table.count (holding x) s.leases
  leases : ∀ l lease, s.leases.lookup l = some lease → l < s.granted ∧ lease.session < s.made
  session : ∀ x, s.session = some x → x < s.made

variable (h : s.Counted)
include h

theorem Counted.unused_iff (hx : s.session = some x) : s.unused = true ↔ ¬s.Holds x := by
  have hcount := h.strong x
  rw [hx, own_some, if_pos rfl] at hcount
  unfold unused
  rw [hx]
  simp only [decide_eq_true_eq]
  constructor
  · rintro hone ⟨l, hl⟩
    have := count_pos (p := holding x) hl (by simp [holding])
    omega
  · intro hnone
    by_contra hne
    obtain ⟨l, _, hl, hholding⟩ := Table.exists_of_count_pos (t := s.leases) (p := holding x) (by omega)
    obtain ⟨rfl, hheld⟩ := of_decide_eq_true hholding
    exact hnone ⟨l, by rw [hl, ← hheld]⟩

theorem Counted.count_fresh : Table.count (holding s.made) s.leases = 0 := by
  by_contra hne
  obtain ⟨l, lease, hl, hholding⟩ := Table.exists_of_count_pos (Nat.pos_of_ne_zero hne)
  obtain ⟨_, -⟩ := of_decide_eq_true hholding
  have := (h.leases l lease hl).2
  omega

theorem Counted.lookup_fresh : s.leases.lookup s.granted = none := by
  cases hl : s.leases.lookup s.granted with
  | none => rfl
  | some => exact absurd (h.leases _ _ hl).1 (lt_irrefl _)

theorem Counted.dropSession : s.dropSession.Counted := by
  unfold Manager.dropSession
  cases hx : s.session with
  | none => exact h
  | some x =>
    refine ⟨fun y => ?_, h.leases, fun y hy => nomatch hy⟩
    have hstrong := h.strong y
    rw [hx, own_some] at hstrong
    rw [own_none]
    by_cases hy : x = y
    · subst hy
      rw [if_pos rfl] at hstrong
      simp only [update_self]
      omega
    · rw [if_neg hy] at hstrong
      simpa only [update_of_ne (Ne.symm hy)] using hstrong

theorem Counted.releaseLease (hl : s.leases.lookup l = some ⟨x, .held⟩) :
    (s.releaseLease l x).Counted := by
  refine ⟨fun y => ?_, fun l' lease hl' => ?_, h.session⟩
  · have hstrong := h.strong y
    have hcount := count_replace (p := holding y) hl ⟨x, .dropping⟩
    simp only [Manager.releaseLease]
    by_cases hy : x = y
    · subst hy
      simp [holding] at hcount
      simp only [update_self]
      omega
    · simp [holding, hy] at hcount
      rw [update_of_ne (Ne.symm hy), hstrong, hcount]
  · rcases lookup_insert_iff.1 hl' with ⟨rfl, rfl⟩ | ⟨-, hl'⟩
    · exact h.leases l' ⟨x, .held⟩ hl
    · exact h.leases _ _ hl'

theorem Counted.notifyLease (hl : s.leases.lookup l = some ⟨x, .dropping⟩) (b : Bool) :
    (s.notifyLease l b).Counted := by
  refine ⟨fun y => ?_, fun l' lease hl' => ?_, h.session⟩
  · have hcount := count_erase (p := holding y) hl
    simp [holding] at hcount
    simp only [Manager.notifyLease]
    rw [h.strong y, hcount]
  · exact h.leases _ _ (lookup_erase_iff.1 hl').2

theorem Counted.grant (hx : s.session = some x) : (s.grant r x).Counted := by
  refine ⟨fun y => ?_, fun l lease hl => ?_, h.session⟩
  · have hcount := count_insert_vacant (p := holding y) h.lookup_fresh ⟨x, .held⟩
    simp only [Manager.grant]
    rw [hcount]
    by_cases hy : x = y
    · subst hy
      simp only [update_self, holding]
      rw [h.strong x]
      simp [add_assoc]
    · simp [holding, hy, update_of_ne (Ne.symm hy), h.strong y]
  · rcases lookup_insert_iff.1 hl with ⟨rfl, rfl⟩ | ⟨-, hl⟩
    · exact ⟨lt_add_one _, h.session x hx⟩
    · exact ⟨Nat.lt_succ_of_lt (h.leases _ _ hl).1, (h.leases _ _ hl).2⟩

theorem Counted.connect (hnone : s.session = none) : (s.connect r).Counted := by
  refine ⟨fun y => ?_, fun l lease hl => ?_, fun y hy => ?_⟩
  · simp only [Manager.connect]
    rw [own_some]
    by_cases hy : s.made = y
    · subst hy
      simp [h.count_fresh]
    · have hstrong := h.strong y
      rw [hnone, own_none] at hstrong
      simp [hy, update_of_ne (Ne.symm hy), hstrong]
  · exact ⟨(h.leases l lease hl).1, Nat.lt_succ_of_lt (h.leases l lease hl).2⟩
  · cases hy
    exact lt_add_one _

omit h

/-! ## The manager -/

def Located (s : Manager) : Prop :=
  match s.point with
  | .connecting _ => s.session = none
  | .returned _ => s.session = none
  | .replying _ l => ∃ x, s.session = some x ∧ s.leases.lookup l = some ⟨x, .held⟩
  | .discarding l => ∃ x, s.leases.lookup l = some ⟨x, .dropping⟩
  | _ => True

def Silent (s : Manager) (x : Nat) : Prop := ¬s.Existing x ∧ s.notice = false

/-- A session may be silent only between the receipt of a notification and the look at its count, and before a lease. -/
def Attends (p : Point) : Prop := p = .notified ∨ ∃ r, p = .granting r

structure Inv (s : Manager) : Prop extends s.Counted where
  attended : ∀ x, s.session = some x → s.Silent x → Attends s.point
  located : s.Located

theorem start_inv : start.Inv where
  strong _ := rfl
  leases _ _ hl := nomatch hl
  session _ hx := nomatch hx
  attended _ hx := nomatch hx
  located := trivial

theorem dropSession_session : s.dropSession.session = none := by
  unfold dropSession
  cases hx : s.session with
  | none => exact hx
  | some => rfl

theorem Inv.goto (h : s.Inv) {p : Point} (hattended : ∀ x, s.session = some x → s.Silent x → Attends p)
    (hlocated : (s.goto p).Located) : (s.goto p).Inv :=
  ⟨⟨h.strong, h.leases, h.session⟩, hattended, hlocated⟩

theorem Counted.inv (h : s.Counted) (hnone : s.session = none) (hlocated : s.Located) : s.Inv :=
  ⟨h, fun _ hx => (nomatch hnone.symm.trans hx), hlocated⟩

theorem Inv.finish (h : s.Inv) (why : Cause) : (s.finish why).Inv := by
  have hcounted := h.toCounted.dropSession
  exact Counted.inv ⟨hcounted.strong, hcounted.leases, hcounted.session⟩ dropSession_session dropSession_session

theorem Inv.pass (h : s.Inv) (hpoint : ¬Attends s.point) {p : Point} (hlocated : (s.goto p).Located) : (s.goto p).Inv :=
  h.goto (fun x hx hsilent => absurd (h.attended x hx hsilent) hpoint) hlocated

theorem Inv.loop (h : s.Inv) (hused : ¬s.unused = true) : (s.goto .select).Inv := by
  refine h.goto (fun x hx hsilent => absurd ((h.toCounted.unused_iff hx).2 fun hholds => ?_) hused) trivial
  exact hsilent.1 hholds.existing

theorem Counted.inv_of_lease (h : s.Counted) (hx : ∀ y, s.session = some y → s.Existing y) (hlocated : s.Located) :
    s.Inv :=
  ⟨h, fun y hy hsilent => absurd (hx y hy) hsilent.1, hlocated⟩

/-! ## What `manage` does -/

inductive Finishes (s : Manager) : Cause → Prop
  | hangUp (hpoint : s.point = .select) : Finishes s .hangUp
  | released (hpoint : s.point = .notified) (hunused : s.unused = true) : Finishes s .released
  | refused (hpoint : s.point = .refused) (hunused : s.unused = true) : Finishes s .abandoned
  | gaveUp {r : Nat} (hpoint : s.point = .connecting r) : Finishes s .abandoned

inductive Moves (s : Manager) : Manager → Prop
  | take {r : Nat} {requests : List Nat} (hpoint : s.point = .select) : Moves s { s with point := .taken r, requests }
  | polled (hpoint : s.point = .select) : Moves s (s.goto .polled)
  | parked (hpoint : s.point = .polled) : Moves s (s.goto .select)
  | noticed (hpoint : s.point = .polled) : Moves s { s with point := .notified, notice := false }
  | refused {r : Nat} (hpoint : s.point = .taken r) : Moves s (s.goto .refused)
  | taken {r : Nat} (hpoint : s.point = .taken r) : Moves s (s.goto (.checking r))
  | used (hpoint : s.point = .notified ∨ s.point = .refused) (hused : ¬s.unused = true) : Moves s (s.goto .select)
  | finish {why : Cause} (hfinishes : s.Finishes why) : Moves s (s.finish why)
  | replace {r : Nat} (hpoint : s.point = .checking r) : Moves s (s.dropSession.goto (.connecting r))
  | reuse {r x : Nat} (hpoint : s.point = .checking r) (hx : s.session = some x) (hopen : x ∉ s.closed) :
      Moves s (s.goto (.granting r))
  | grant {r x : Nat} (hpoint : s.point = .granting r) (hx : s.session = some x) : Moves s (s.grant r x)
  | deliver {r l : Nat} (hpoint : s.point = .replying r l) :
      Moves s { s with replies := s.replies ++ [(r, some l)], point := .select }
  | discard {r l : Nat} {lease : Lease} (hpoint : s.point = .replying r l) (hl : s.leases.lookup l = some lease) :
      Moves s ((s.releaseLease l lease.session).goto (.discarding l))
  | notify {l : Nat} (hpoint : s.point = .discarding l) : Moves s ((s.notifyLease l true).goto .select)

theorem manage_moves (h : s.manage = some s') : s.Moves s' := by
  unfold manage at h
  cases hpoint : s.point with
  | select =>
    simp only [hpoint] at h
    cases hrequests : s.requests with
    | nil =>
      simp only [hrequests] at h
      split_ifs at h <;> cases h
      · exact .polled hpoint
      · exact .finish (.hangUp hpoint)
    | cons =>
      simp only [hrequests] at h
      cases h
      exact .take hpoint
  | polled =>
    simp only [hpoint] at h
    split_ifs at h <;> cases h
    · exact .noticed hpoint
    · exact .parked hpoint
  | notified =>
    simp only [hpoint] at h
    split_ifs at h with hunused <;> cases h
    · exact .finish (.released hpoint hunused)
    · exact .used (.inl hpoint) hunused
  | taken =>
    simp only [hpoint] at h
    split_ifs at h <;> cases h
    · exact .refused hpoint
    · exact .taken hpoint
  | refused =>
    simp only [hpoint] at h
    split_ifs at h with hunused <;> cases h
    · exact .finish (.refused hpoint hunused)
    · exact .used (.inr hpoint) hunused
  | checking r =>
    simp only [hpoint] at h
    cases hx : s.session with
    | none =>
      simp only [hx] at h
      cases h
      have hdrop : s.dropSession = s := by rw [dropSession, hx]
      have hmoves : s.Moves (s.dropSession.goto (.connecting r)) := .replace hpoint
      rwa [hdrop] at hmoves
    | some =>
      simp only [hx] at h
      split_ifs at h with hclosed <;> cases h
      · exact .replace hpoint
      · exact .reuse hpoint hx hclosed
  | connecting =>
    simp only [hpoint] at h
    split_ifs at h
    cases h
    exact .finish (.gaveUp hpoint)
  | granting =>
    simp only [hpoint] at h
    obtain ⟨_, hx, rfl⟩ := map_eq_some_iff.1 h
    exact .grant hpoint hx
  | replying _ l =>
    simp only [hpoint] at h
    cases hl : s.leases.lookup l with
    | none =>
      simp only [hl] at h
      cases h
    | some =>
      simp only [hl] at h
      split_ifs at h with hgone <;> cases h
      · exact .discard hpoint hl
      · rw [reply, if_neg hgone]
        exact .deliver hpoint
  | discarding =>
    simp only [hpoint] at h
    cases h
    exact .notify hpoint
  | returned =>
    simp only [hpoint] at h
    cases h

theorem Moves.inv (h : s.Inv) (hmoves : s.Moves s') : s'.Inv := by
  have hlocated := h.located
  cases hmoves with
  | take hpoint =>
    have hpass : ¬Attends s.point := by simp [hpoint, Attends]
    exact ⟨⟨h.strong, h.leases, h.session⟩, fun x hx hsilent => absurd (h.attended x hx hsilent) hpass, trivial⟩
  | polled hpoint => exact h.pass (by simp [hpoint, Attends]) trivial
  | parked hpoint => exact h.pass (by simp [hpoint, Attends]) trivial
  | noticed => exact ⟨⟨h.strong, h.leases, h.session⟩, fun _ _ _ => .inl rfl, trivial⟩
  | refused hpoint => exact h.pass (by simp [hpoint, Attends]) trivial
  | taken hpoint => exact h.pass (by simp [hpoint, Attends]) trivial
  | used _ hused => exact h.loop hused
  | finish => exact h.finish _
  | replace =>
    have hcounted := h.toCounted.dropSession
    exact Counted.inv ⟨hcounted.strong, hcounted.leases, hcounted.session⟩ dropSession_session dropSession_session
  | @reuse r => exact h.goto (fun _ _ _ => .inr ⟨r, rfl⟩) trivial
  | @grant _ x _ hx =>
    refine (h.toCounted.grant hx).inv_of_lease (fun y hy => ?_) ⟨x, hx, lookup_insert _⟩
    obtain rfl := some.inj (hx.symm.trans hy)
    exact ⟨_, _, lookup_insert _⟩
  | deliver hpoint =>
    simp only [Located, hpoint] at hlocated
    obtain ⟨x, hx, hl⟩ := hlocated
    refine Counted.inv_of_lease ⟨h.strong, h.leases, h.session⟩ (fun y hy => ?_) trivial
    obtain rfl := some.inj (hx.symm.trans hy)
    exact ⟨_, _, hl⟩
  | discard hpoint hl' =>
    simp only [Located, hpoint] at hlocated
    obtain ⟨x, hx, hl⟩ := hlocated
    obtain rfl := some.inj (hl.symm.trans hl')
    have hcounted := h.toCounted.releaseLease hl
    refine Counted.inv_of_lease ⟨hcounted.strong, hcounted.leases, hcounted.session⟩ (fun y hy => ?_)
      ⟨x, lookup_insert _⟩
    obtain rfl := some.inj (hx.symm.trans hy)
    exact ⟨_, _, lookup_insert _⟩
  | notify hpoint =>
    simp only [Located, hpoint] at hlocated
    obtain ⟨_, hl⟩ := hlocated
    have hcounted := h.toCounted.notifyLease hl true
    refine ⟨⟨hcounted.strong, hcounted.leases, hcounted.session⟩, fun y hy hsilent => ?_, trivial⟩
    have hnotice : (s.notice || true) = false := hsilent.2
    rw [Bool.or_true] at hnotice
    cases hnotice

/-! ## Leases that are dropped -/

theorem Existing.release {y : Nat} (hl : s.leases.lookup l = some ⟨x, .held⟩) (h : s.Existing y) :
    (s.releaseLease l x).Existing y := by
  obtain ⟨l', stage, hl'⟩ := h
  by_cases heq : l' = l
  · subst heq
    obtain rfl := congrArg Lease.session (some.inj (hl.symm.trans hl'))
    exact ⟨l', .dropping, lookup_insert _⟩
  · exact ⟨l', stage, (lookup_insert_ne heq).trans hl'⟩

theorem Located.frame (h : s.Located) (hpoint : s'.point = s.point) (hsession : s'.session = s.session)
    (hlook : ∀ l', s.inHand l' = true → s'.leases.lookup l' = s.leases.lookup l') : s'.Located := by
  unfold Located at h ⊢
  unfold inHand at hlook
  rw [hpoint, hsession]
  cases hp : s.point with
  | replying _ l =>
    simp only [hp] at h hlook ⊢
    rw [hlook l (decide_eq_true rfl)]
    exact h
  | discarding l =>
    simp only [hp] at h hlook ⊢
    rw [hlook l (decide_eq_true rfl)]
    exact h
  | connecting =>
    simp only [hp] at h
    exact h
  | returned =>
    simp only [hp] at h
    exact h
  | _ => trivial

theorem Inv.release (h : s.Inv) (hl : s.leases.lookup l = some ⟨x, .held⟩) (hhand : ¬s.inHand l = true) :
    (s.releaseLease l x).Inv := by
  refine ⟨h.toCounted.releaseLease hl, fun y hy hsilent => ?_, h.located.frame rfl rfl fun l' hl' => ?_⟩
  · exact h.attended y hy ⟨fun hexisting => hsilent.1 (hexisting.release hl), hsilent.2⟩
  · exact lookup_insert_ne fun heq => hhand (heq ▸ hl')

theorem Inv.notify (h : s.Inv) (hl : s.leases.lookup l = some ⟨x, .dropping⟩) (hhand : ¬s.inHand l = true) :
    (s.notifyLease l s.running).Inv := by
  refine ⟨h.toCounted.notifyLease hl _, fun y hy hsilent => ?_, h.located.frame rfl rfl fun l' hl' => ?_⟩
  · -- while there is a session the manager listens
    have hrunning : s.running = false := ((Bool.or_eq_false_iff).1 hsilent.2).2
    have hlocated := h.located
    unfold running at hrunning
    unfold Located at hlocated
    cases hpoint : s.point with
    | returned =>
      simp only [hpoint] at hlocated
      cases hlocated.symm.trans hy
    | _ =>
      simp only [hpoint] at hrunning
      cases hrunning
  · exact lookup_erase_ne fun heq => hhand (heq ▸ hl')

theorem Inv.reply (h : s.Inv) (r : Nat) (answer : Option Nat) : (s.reply r answer).Inv := by
  unfold Manager.reply
  split_ifs
  · exact h
  · exact ⟨⟨h.strong, h.leases, h.session⟩, h.attended, h.located⟩

/-! ## Runs -/

structure Beside (s s' : Manager) : Prop where
  point : s'.point = s.point
  session : s'.session = s.session
  replies : s'.replies = s.replies

inductive Connects (s : Manager) : Manager → Prop
  | connected {r : Nat} (hpoint : s.point = .connecting r) : Connects s (s.connect r)
  | failed {r : Nat} (hpoint : s.point = .connecting r) : Connects s ((s.reply r none).finish .failed)

theorem step_cases {e : Event} (h : s.Inv) (hstep : s.step e = some s') :
    s'.Inv ∧ (s.Moves s' ∨ s.Connects s' ∨ Beside s s') := by
  cases e with
  | manage =>
    have hmoves := manage_moves hstep
    exact ⟨hmoves.inv h, .inl hmoves⟩
  | connected =>
    simp only [step] at hstep
    split at hstep
    case h_1 r hpoint =>
      have hnone := h.located
      simp only [Located, hpoint] at hnone
      split_ifs at hstep <;> cases hstep
      · exact ⟨⟨h.toCounted.connect hnone, fun _ _ _ => .inr ⟨r, rfl⟩, trivial⟩, .inr (.inl (.connected hpoint))⟩
      · exact ⟨(h.reply r none).finish .failed, .inr (.inl (.failed hpoint))⟩
    case h_2 => cases hstep
  | request =>
    simp only [step] at hstep
    split_ifs at hstep
    cases hstep
    exact ⟨⟨⟨h.strong, h.leases, h.session⟩, h.attended, h.located⟩, .inr (.inr ⟨rfl, rfl, rfl⟩)⟩
  | abandon =>
    cases hstep
    exact ⟨⟨⟨h.strong, h.leases, h.session⟩, h.attended, h.located⟩, .inr (.inr ⟨rfl, rfl, rfl⟩)⟩
  | hangUp =>
    cases hstep
    exact ⟨⟨⟨h.strong, h.leases, h.session⟩, h.attended, h.located⟩, .inr (.inr ⟨rfl, rfl, rfl⟩)⟩
  | disconnect =>
    simp only [step] at hstep
    split_ifs at hstep
    cases hstep
    exact ⟨⟨⟨h.strong, h.leases, h.session⟩, h.attended, h.located⟩, .inr (.inr ⟨rfl, rfl, rfl⟩)⟩
  | release =>
    simp only [step] at hstep
    split at hstep
    case h_1 x hl =>
      split_ifs at hstep with hhand
      cases hstep
      exact ⟨h.release hl hhand, .inr (.inr ⟨rfl, rfl, rfl⟩)⟩
    case h_2 => cases hstep
  | notify =>
    simp only [step] at hstep
    split at hstep
    case h_1 x hl =>
      split_ifs at hstep with hhand
      cases hstep
      exact ⟨h.notify hl hhand, .inr (.inr ⟨rfl, rfl, rfl⟩)⟩
    case h_2 => cases hstep

theorem Run.inv (h : Run hist s) : s.Inv := by
  induction h with
  | start => exact start_inv
  | step _ hstep ih => exact (step_cases ih hstep).1

def serves : Point → Option Nat
  | .granting r => some r
  | .replying r _ => some r
  | _ => none

/-- The session is one for the request: its connection was not closed when the manager looked, with the request taken,
or it was connected for the request. -/
def Vetted (hist : List Manager) (r x : Nat) : Prop :=
  ∃ t ∈ hist, t.point = .checking r ∧ t.session = some x ∧ x ∉ t.closed ∨ t.point = .connecting r ∧ t.made = x

theorem Vetted.snoc (h : Vetted hist r x) (s : Manager) : Vetted (hist ++ [s]) r x :=
  let ⟨t, ht, hvetted⟩ := h
  ⟨t, mem_append_left _ ht, hvetted⟩

theorem Run.vetted (h : Run hist s) :
    ∀ {r x : Nat}, serves s.point = some r → s.session = some x → Vetted hist r x := by
  induction h with
  | start => exact fun hr => nomatch hr
  | @step hist s _ _ hrun hstep ih =>
    intro r x hr hx
    have hlast : s ∈ hist ++ [s] := mem_append_right _ mem_cons_self
    rcases (step_cases hrun.inv hstep).2 with hmoves | hconnects | hbeside
    · cases hmoves with
      | reuse hpoint hx' hopen =>
        obtain rfl := some.inj hr
        obtain rfl := some.inj (hx'.symm.trans hx)
        exact ⟨s, hlast, .inl ⟨hpoint, hx', hopen⟩⟩
      | grant hpoint =>
        obtain rfl := some.inj hr
        exact (ih (by rw [hpoint]; rfl) hx).snoc s
      | _ => cases hr
    · cases hconnects with
      | connected hpoint =>
        obtain rfl := some.inj hr
        obtain rfl := some.inj hx
        exact ⟨s, hlast, .inr ⟨hpoint, rfl⟩⟩
      | failed => cases hr
    · rw [hbeside.point] at hr
      rw [hbeside.session] at hx
      exact (ih hr hx).snoc s

/-- What the manager owes in a state: to its session while it waits, when it returns, and when it hands out a lease. -/
structure Managed (s : Manager) (hist : List Manager) : Prop where
  waiting : s.waiting = true → ∀ x, s.session = some x → ¬s.Existing x → s.notice = true
  retiring : ∀ e s' why, s.step e = some s' → s.running = true → s'.point = .returned why →
    why = .released ∨ why = .abandoned → ∀ x, s.session = some x → ¬s.Holds x
  leasing : ∀ e s', s.step e = some s' → s'.replies = s.replies ∨ ∃ r answer, s'.replies = s.replies ++ [(r, answer)] ∧
    ∀ l, answer = some l →
      ∃ x, s.session = some x ∧ s'.session = some x ∧ s'.leases.lookup l = some ⟨x, .held⟩ ∧ Vetted hist r x

theorem Inv.waiting (h : s.Inv) (hwaiting : s.waiting = true) (hx : s.session = some x) (hnone : ¬s.Existing x) :
    s.notice = true := by
  by_contra hnotice
  have hattends := h.attended x hx ⟨hnone, by simpa using hnotice⟩
  rcases of_decide_eq_true hwaiting with hpoint | hpoint
  · simp [hpoint, Attends] at hattends
  · simp [hpoint, Attends] at hattends

theorem Inv.retiring (h : s.Inv) {e : Event} {why : Cause} (hstep : s.step e = some s') (hrunning : s.running = true)
    (hpoint : s'.point = .returned why) (hwhy : why = .released ∨ why = .abandoned) (hx : s.session = some x) :
    ¬s.Holds x := by
  rcases (step_cases h hstep).2 with hmoves | hconnects | hbeside
  · cases hmoves with
    | finish hfinishes =>
      obtain rfl := Point.returned.inj hpoint
      cases hfinishes with
      | hangUp => rcases hwhy with hwhy | hwhy <;> cases hwhy
      | released _ hunused => exact (h.toCounted.unused_iff hx).1 hunused
      | refused _ hunused => exact (h.toCounted.unused_iff hx).1 hunused
      | gaveUp hconnecting =>
        have hnone := h.located
        simp only [Located, hconnecting] at hnone
        cases hnone.symm.trans hx
    | _ => cases hpoint
  · cases hconnects with
    | connected => cases hpoint
    | failed =>
      obtain rfl := Point.returned.inj hpoint
      rcases hwhy with hwhy | hwhy <;> cases hwhy
  · -- the task was running, and stays where it is
    rw [hbeside.point] at hpoint
    rw [running, hpoint] at hrunning
    cases hrunning

theorem dropSession_replies : s.dropSession.replies = s.replies := by
  unfold dropSession
  cases s.session <;> rfl

theorem finish_replies (why : Cause) : (s.finish why).replies = s.replies := dropSession_replies

theorem Inv.leasing (h : s.Inv) {e : Event} (hstep : s.step e = some s') : s'.replies = s.replies ∨
    ∃ r answer, s'.replies = s.replies ++ [(r, answer)] ∧
      ∀ l, answer = some l → s.point = .replying r l ∧ s'.session = s.session ∧ s'.leases = s.leases := by
  rcases (step_cases h hstep).2 with hmoves | hconnects | hbeside
  · cases hmoves with
    | deliver hpoint =>
      refine .inr ⟨_, _, rfl, fun l hl => ?_⟩
      obtain rfl := some.inj hl
      exact ⟨hpoint, rfl, rfl⟩
    | finish => exact .inl (finish_replies _)
    | replace => exact .inl dropSession_replies
    | _ => exact .inl rfl
  · cases hconnects with
    | connected => exact .inl rfl
    | failed =>
      rw [finish_replies, Manager.reply]
      split_ifs
      · exact .inl rfl
      · exact .inr ⟨_, none, rfl, by simp⟩
  · exact .inl hbeside.replies

/-- **The session manager**, along every run: while it waits, an unused session has a notification in the channel; it
returns for a notification or an abandoned request only if no lease holds its session; and a lease it hands out is one
of its session, which was not seen closed with the request taken. -/
theorem Run.managed (h : Run hist s) : s.Managed hist where
  waiting hwaiting _ hx hnone := h.inv.waiting hwaiting hx hnone
  retiring _ _ _ hstep hrunning hpoint hwhy _ hx := h.inv.retiring hstep hrunning hpoint hwhy hx
  leasing e s' hstep := (h.inv.leasing hstep).imp_right fun ⟨r, answer, hreplies, hanswer⟩ => by
    refine ⟨r, answer, hreplies, fun l hl => ?_⟩
    obtain ⟨hpoint, hsession, hleases⟩ := hanswer l hl
    have hlocated := h.inv.located
    simp only [Located, hpoint] at hlocated
    obtain ⟨x, hx, _⟩ := hlocated
    exact ⟨x, hx, hsession.trans hx, by rwa [hleases], h.vetted (by rw [hpoint]; rfl) hx⟩

theorem Run.all (h : Run hist s) (es : List Event) (hs : es.foldlM Manager.step s = some s') : ∃ hist', Run hist' s' := by
  induction es generalizing hist s with
  | nil =>
    cases hs
    exact ⟨_, h⟩
  | cons e es ih =>
    obtain ⟨_, hstep, hs⟩ := bind_eq_some_iff.1 hs
    exact ih (h.step hstep) hs

theorem managed_idle : ∃ hist s, Run hist s ∧ s.waiting = true ∧ s.session = some 0 ∧ ¬s.Existing 0 ∧
    s.replies = [(0, some 0)] ∧ s.notice = true ∧ s.Managed hist := by
  obtain ⟨_, h⟩ := Run.start.all
    [.request, .manage, .manage, .manage, .connected true, .manage, .manage, .release 0, .notify 0] rfl
  exact ⟨_, _, h, rfl, rfl, fun ⟨l, _, hl⟩ => (nomatch hl), rfl, rfl, h.managed⟩

/-- Two leases of session 0: the first is dropped, the second has released its reference and not yet notified. The first
one's notification finds a count of one, and `manage` returns. -/
theorem retires_while_dropping : ∃ hist s s', Run hist s ∧ s.running = true ∧ s.session = some 0 ∧
    s.leases.lookup 1 = some ⟨0, .dropping⟩ ∧ s.Existing 0 ∧ s.step .manage = some s' ∧ s'.point = .returned .released := by
  -- the second request finds the session open
  obtain ⟨_, h⟩ := Run.start.all [.request, .request, .manage, .manage, .manage, .connected true, .manage, .manage, .manage,
    .manage, .manage, .manage, .manage, .release 0, .notify 0, .release 1, .manage, .manage] rfl
  exact ⟨_, _, _, h, rfl, rfl, rfl, ⟨1, .dropping, rfl⟩, rfl, rfl⟩

end Manager

end Kotoconn.Hysteria2
