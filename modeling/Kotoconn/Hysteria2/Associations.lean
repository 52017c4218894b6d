import Kotoconn.Hysteria2.Wire
import Kotoconn.Lib.Loop
import Kotoconn.Lib.Table

/-!
# `udp.rs`: the UDP associations of a server

`Server`: the server task with the scopes of all associations ever made and the queue of replies; `Server.step`: what
the task, the association tasks and the owners of scopes do, one event at a time. `none` is a panic or a failed debug
assertion.
-/

namespace Kotoconn.Hysteria2

open Lib Protocol List Option Table AList

/-- Session numbers in their order. -/
instance linearOrderUInt32 : LinearOrder UInt32 where
  le_refl := UInt32.le_refl
  le_trans _ _ _ := UInt32.le_trans
  le_antisymm _ _ := UInt32.le_antisymm
  le_total := UInt32.le_total
  lt_iff_le_not_ge _ _ := by rw [UInt32.not_le]; exact ⟨fun h => ⟨UInt32.le_of_lt h, h⟩, fun h => h.2⟩
  toDecidableLE := inferInstance

abbrev ScopeId := Nat

/-- `Association`; whether its queue takes a packet is up to the handler. -/
structure Association where
  scope : ScopeId
  active : Nat
  deriving DecidableEq

/-- `closed` are the scopes that are closed; dropping an association closes its own. -/
structure ServerAssociations where
  entries : Table UInt32 Association
  activity : Finset (Nat ×ₗ UInt32)
  closed : List ScopeId

namespace ServerAssociations

def empty : ServerAssociations := ⟨∅, ∅, []⟩

def remove (s : ServerAssociations) (id : UInt32) : Option ServerAssociations :=
  match s.entries.lookup id with
  | none => some s
  | some a =>
    if toLex (a.active, id) ∈ s.activity then
      some ⟨s.entries.erase id, s.activity.erase (toLex (a.active, id)), a.scope :: s.closed⟩
    else none

def insert (s : ServerAssociations) (id : UInt32) (a : Association) : Option ServerAssociations :=
  (s.remove id).map fun s => { s with
    entries := s.entries.insert id a
    activity := Insert.insert (toLex (a.active, id)) s.activity }

def touch (s : ServerAssociations) (id : UInt32) (now : Nat) : Option ServerAssociations :=
  match s.entries.lookup id with
  | none => none
  | some a =>
    if toLex (a.active, id) ∈ s.activity then
      some { s with
        entries := s.entries.insert id { a with active := now }
        activity := Insert.insert (toLex (now, id)) (s.activity.erase (toLex (a.active, id))) }
    else none

def first (s : ServerAssociations) : Option (Nat ×ₗ UInt32) := s.activity.min

def nextExpiry (s : ServerAssociations) (retention : Nat) : Option Nat := s.first.map fun x => (ofLex x).1 + retention

def expireTurn (retention now : Nat) (s : ServerAssociations) : Turn ServerAssociations ServerAssociations :=
  match s.first with
  | none => .done s
  | some x =>
    if now < (ofLex x).1 + retention then .done s
    else
      match s.remove (ofLex x).2 with
      | none => .fail
      | some s => .again s

def expire (s : ServerAssociations) (retention now : Nat) : Option ServerAssociations :=
  (loop (expireTurn retention now) (s.activity.card + 1) s).filter fun s => s.entries.keys.length = s.activity.card

end ServerAssociations

/-- `Reply`: the scope names the association that produced it. -/
structure Reply where
  session : UInt32
  association : ScopeId
  packet : Packet

/-- The server task, what its associations share with it, and the log of what it sent. `made` are the sessions of the
associations made so far, by the number of their scope. -/
structure Server where
  associations : ServerAssociations
  replies : List Reply
  made : List UInt32
  sent : List Reply

/-- What can happen, at `now`. -/
inductive Event where
  /-- a whole packet of the client; `taken` when the association's queue takes it -/
  | datagram (id : UInt32) (taken : Bool) (now : Nat)
  | produce (scope : ScopeId) (packet : Packet)
  | close (scope : ScopeId)
  | expire (now : Nat)
  | reply (now : Nat)

namespace Server

def empty : Server := ⟨.empty, [], [], []⟩

def dropClosed (s : ServerAssociations) (id : UInt32) : Option ServerAssociations :=
  match s.entries.lookup id with
  | some a => if a.scope ∈ s.closed then s.remove id else some s
  | none => some s

def associate (s : Server) (id : UInt32) (now : Nat) : Option Server := do
  let live ← dropClosed s.associations id
  if id ∈ live.entries then some { s with associations := live }
  else
    let associations ← live.insert id ⟨s.made.length, now⟩
    some { s with associations, made := s.made ++ [id] }

def datagram (s : Server) (id : UInt32) (taken : Bool) (now : Nat) : Option Server := do
  let s ← s.associate id now
  if taken then
    let associations ← s.associations.touch id now
    some { s with associations }
  else some s

def reply (s : Server) (now : Nat) : Option Server :=
  match s.replies with
  | [] => some s
  | r :: rest =>
    if r.association ∈ s.associations.closed then some { s with replies := rest }
    else if r.session ∈ s.associations.entries then
      (s.associations.touch r.session now).map fun associations =>
        { s with associations, replies := rest, sent := s.sent ++ [r] }
    else some { s with replies := rest }

def step (retention : Nat) (s : Server) : Event → Option Server
  | .datagram id taken now => s.datagram id taken now
  | .produce scope packet =>
    match s.made[scope]? with
    | some session => some { s with replies := s.replies ++ [⟨session, scope, packet⟩] }
    | none => some s
  | .close scope => some { s with associations := { s.associations with closed := scope :: s.associations.closed } }
  | .expire now => (s.associations.expire retention now).map fun associations => { s with associations }
  | .reply now => s.reply now

end Server

/-! ## The two indexes -/

def Indexed (entries : Table UInt32 Association) (activity : Finset (Nat ×ₗ UInt32)) : Prop :=
  ∀ active id, toLex (active, id) ∈ activity ↔ ∃ a, entries.lookup id = some a ∧ a.active = active

theorem Indexed.erase {entries : Table UInt32 Association} {activity : Finset (Nat ×ₗ UInt32)}
    (h : Indexed entries activity) {id : UInt32} {a : Association} (ha : entries.lookup id = some a) :
    Indexed (entries.erase id) (activity.erase (toLex (a.active, id))) := by
  intro active id'
  rw [Finset.mem_erase, h]
  constructor
  · rintro ⟨hne, b, hb, rfl⟩
    refine ⟨b, lookup_erase_iff.2 ⟨?_, hb⟩, rfl⟩
    rintro rfl
    rw [ha] at hb
    exact hne (by rw [some.inj hb])
  · rintro ⟨b, hb, rfl⟩
    obtain ⟨hne, hb⟩ := lookup_erase_iff.1 hb
    exact ⟨fun he => hne (congrArg (fun x => (ofLex x).2) he), b, hb, rfl⟩

theorem Indexed.insert {entries : Table UInt32 Association} {activity : Finset (Nat ×ₗ UInt32)} {id : UInt32}
    (h : Indexed (entries.erase id) activity) (a : Association) :
    Indexed (entries.insert id a) (Insert.insert (toLex (a.active, id)) activity) := by
  intro active id'
  rw [Finset.mem_insert, h]
  constructor
  · rintro (he | ⟨b, hb, rfl⟩)
    · obtain ⟨rfl, rfl⟩ := Prod.mk.inj (toLex.injective he)
      exact ⟨a, lookup_insert _, rfl⟩
    · exact ⟨b, lookup_insert_iff.2 (.inr (lookup_erase_iff.1 hb)), rfl⟩
  · rintro ⟨b, hb, rfl⟩
    rcases lookup_insert_iff.1 hb with ⟨rfl, rfl⟩ | hb
    · exact .inl rfl
    · exact .inr ⟨b, lookup_erase_iff.2 hb, rfl⟩

theorem Indexed.card {entries : Table UInt32 Association} {activity : Finset (Nat ×ₗ UInt32)}
    (h : Indexed entries activity) : entries.keys.length = activity.card := by
  rw [← toFinset_card_of_nodup entries.keys_nodup]
  refine (Finset.card_bij (fun x _ => (ofLex x).2) (fun x hx => ?_) (fun x hx y hy heq => ?_) fun id hid => ?_).symm
  · obtain ⟨a, ha, -⟩ := (h _ _).1 hx
    exact mem_toFinset.2 (AList.mem_keys.1 (lookup_isSome.1 (ha ▸ rfl)))
  · obtain ⟨a, ha, hx⟩ := (h (ofLex x).1 (ofLex x).2).1 hx
    obtain ⟨b, hb, hy⟩ := (h (ofLex y).1 (ofLex y).2).1 hy
    rw [← heq, ha] at hb
    exact ofLex.injective (Prod.ext (by rw [← hx, ← hy, some.inj hb]) heq)
  · obtain ⟨a, ha⟩ := isSome_iff_exists.1 (lookup_isSome.2 (AList.mem_keys.2 (mem_toFinset.1 hid)))
    exact ⟨toLex (a.active, id), (h _ _).2 ⟨a, ha, rfl⟩, rfl⟩

namespace ServerAssociations

abbrev Consistent (s : ServerAssociations) : Prop := Indexed s.entries s.activity

variable {s s' : ServerAssociations} {id : UInt32} {a : Association} {retention now : Nat}

theorem Consistent.mem (h : s.Consistent) (ha : s.entries.lookup id = some a) : toLex (a.active, id) ∈ s.activity :=
  (h _ _).2 ⟨a, ha, rfl⟩

structure Retires (s s' : ServerAssociations) : Prop where
  consistent : s'.Consistent
  kept : ∀ {id a}, s'.entries.lookup id = some a → s.entries.lookup id = some a
  gone : ∀ {id a}, s.entries.lookup id = some a → s'.entries.lookup id = some a ∨ a.scope ∈ s'.closed
  closed : ∀ k ∈ s.closed, k ∈ s'.closed

theorem Consistent.retires (h : s.Consistent) : Retires s s := ⟨h, id, .inl, fun _ => id⟩

theorem Retires.trans {s'' : ServerAssociations} (h : Retires s s') (h' : Retires s' s'') : Retires s s'' where
  consistent := h'.consistent
  kept ha := h.kept (h'.kept ha)
  gone ha := (h.gone ha).elim h'.gone fun hk => .inr (h'.closed _ hk)
  closed k hk := h'.closed k (h.closed k hk)

theorem remove_spec (h : s.Consistent) (id : UInt32) : ∃ s', s.remove id = some s' ∧ Retires s s' ∧
    s'.activity ⊆ s.activity ∧ ∀ id' b, s'.entries.lookup id' = some b ↔ id' ≠ id ∧ s.entries.lookup id' = some b := by
  unfold remove
  cases hlook : s.entries.lookup id with
  | none =>
    refine ⟨s, rfl, h.retires, Finset.Subset.refl _, fun id' b => ⟨fun hb => ⟨?_, hb⟩, And.right⟩⟩
    rintro rfl
    rw [hlook] at hb
    cases hb
  | some a =>
    refine ⟨⟨s.entries.erase id, s.activity.erase (toLex (a.active, id)), a.scope :: s.closed⟩,
      if_pos (h.mem hlook), ⟨h.erase hlook, fun hb => (lookup_erase_iff.1 hb).2, fun {id' b} hb => ?_,
      fun k hk => mem_cons_of_mem _ hk⟩, Finset.erase_subset _ _, fun _ _ => lookup_erase_iff⟩
    by_cases hne : id' = id
    · subst hne
      rw [hlook] at hb
      exact .inr (by rw [some.inj hb]; exact mem_cons_self)
    · exact .inl (lookup_erase_iff.2 ⟨hne, hb⟩)

theorem insert_spec (h : s.Consistent) (id : UInt32) (a : Association) :
    ∃ s', s.insert id a = some s' ∧ s'.Consistent ∧ (∀ k ∈ s.closed, k ∈ s'.closed) ∧
      (∀ b, s.entries.lookup id = some b → b.scope ∈ s'.closed) ∧
      ∀ id' b, s'.entries.lookup id' = some b ↔ (id' = id ∧ b = a) ∨ (id' ≠ id ∧ s.entries.lookup id' = some b) := by
  obtain ⟨s₁, hremove, hretires, -, hlook⟩ := remove_spec h id
  have hvacant : s₁.entries.erase id = s₁.entries := by
    refine AList.ext (kerase_of_notMem_keys fun hk => ?_)
    obtain ⟨b, hb⟩ := isSome_iff_exists.1 (lookup_isSome.2 (AList.mem_keys.2 hk))
    exact ((hlook id b).1 hb).1 rfl
  refine ⟨⟨s₁.entries.insert id a, Insert.insert (toLex (a.active, id)) s₁.activity, s₁.closed⟩,
    by rw [insert, hremove]; rfl, Indexed.insert (by rw [hvacant]; exact hretires.consistent) a,
    hretires.closed, fun b hb => ?_, fun id' b => ?_⟩
  · exact (hretires.gone hb).resolve_left fun hb' => ((hlook id b).1 hb').1 rfl
  · rw [lookup_insert_iff, hlook]
    simp

theorem touch_spec (h : s.Consistent) (ha : s.entries.lookup id = some a) (now : Nat) :
    ∃ s', s.touch id now = some s' ∧ s'.Consistent ∧ s'.closed = s.closed ∧ ∀ id' b, s'.entries.lookup id' = some b ↔
        (id' = id ∧ b = { a with active := now }) ∨ (id' ≠ id ∧ s.entries.lookup id' = some b) := by
  refine ⟨⟨s.entries.insert id { a with active := now }, Insert.insert (toLex (now, id)) (s.activity.erase
    (toLex (a.active, id))), s.closed⟩, ?_, Indexed.insert (h.erase ha) _, rfl, fun _ _ => lookup_insert_iff⟩
  rw [touch, ha]
  exact if_pos (h.mem ha)

/-! ## Expiry -/

theorem first_le {x : Nat ×ₗ UInt32} (h : s.Consistent) (hx : s.first = some x) :
    (∃ a, s.entries.lookup (ofLex x).2 = some a ∧ a.active = (ofLex x).1) ∧
      ∀ id a, s.entries.lookup id = some a → (ofLex x).1 ≤ a.active := by
  refine ⟨(h _ _).1 (Finset.mem_of_min hx), fun id a ha => ?_⟩
  have hle := Finset.min_le_of_eq (h.mem ha) hx
  rcases Prod.Lex.le_iff.1 hle with hlt | heq
  · exact le_of_lt hlt
  · exact le_of_eq heq.1

theorem first_none (h : s.Consistent) (hx : s.first = none) (id : UInt32) : s.entries.lookup id = none := by
  cases hlook : s.entries.lookup id with
  | none => rfl
  | some =>
    have hmem := h.mem hlook
    rw [Finset.min_eq_top.1 hx] at hmem
    exact absurd hmem (Finset.notMem_empty _)

theorem expireTurn_spec (h : s.Consistent) (retention now : Nat) :
    ∃ s', loop (expireTurn retention now) (s.activity.card + 1) s = some s' ∧ Retires s s' ∧
      ∀ id a, s'.entries.lookup id = some a ↔ s.entries.lookup id = some a ∧ now < a.active + retention := by
  refine loop_spec
    (fun s' => Retires s s' ∧ ∀ id a, s.entries.lookup id = some a → now < a.active + retention →
      s'.entries.lookup id = some a) _ (fun s => s.activity.card) ?_ _ s
    ⟨h.retires, fun _ _ ha _ => ha⟩ (lt_add_one _)
  intro s' ⟨hretires, hfresh⟩
  unfold expireTurn
  cases hfirst : s'.first with
  | none =>
    refine .inl ⟨s', rfl, hretires, fun id a => ⟨fun ha => ?_, fun ha => hfresh id a ha.1 ha.2⟩⟩
    rw [first_none hretires.consistent hfirst] at ha
    cases ha
  | some x =>
    obtain ⟨⟨_, ha, _⟩, hle⟩ := first_le hretires.consistent hfirst
    simp only
    split_ifs with hkeep
    · refine .inl ⟨s', rfl, hretires, fun id b => ⟨fun hb => ⟨hretires.kept hb, ?_⟩, fun hb => hfresh id b hb.1 hb.2⟩⟩
      have := hle id b hb
      omega
    · obtain ⟨s'', hremove, hretires', hsub, hlook⟩ := remove_spec hretires.consistent (ofLex x).2
      rw [hremove]
      refine .inr ⟨s'', rfl, ⟨hretires.trans hretires', fun id b hb hidle => ?_⟩, ?_⟩
      · refine (hlook id b).2 ⟨?_, hfresh id b hb hidle⟩
        rintro rfl
        have heq := (hretires.kept ha).symm.trans hb
        rw [← some.inj heq] at hidle
        omega
      · refine Finset.card_lt_card ⟨hsub, fun hback => ?_⟩
        obtain ⟨b, hb, -⟩ := (hretires'.consistent _ _).1 (hback (Finset.mem_of_min hfirst))
        exact ((hlook _ b).1 hb).1 rfl

/-- **`expire` removes exactly the associations idle for at least the retention**, and closes their scopes. -/
theorem expire_spec (h : s.Consistent) (retention now : Nat) : ∃ s', s.expire retention now = some s' ∧ Retires s s' ∧
    ∀ id a, s'.entries.lookup id = some a ↔ s.entries.lookup id = some a ∧ now < a.active + retention := by
  obtain ⟨left, hloop, hretires, hlook⟩ := expireTurn_spec h retention now
  refine ⟨left, ?_, hretires, hlook⟩
  rw [expire, hloop]
  exact filter_some_pos (by simpa using hretires.consistent.card)

/-- **`next_expiry` is the earliest deadline.** -/
theorem nextExpiry_spec (h : s.Consistent) (retention : Nat) : match s.nextExpiry retention with
    | none => ∀ id, s.entries.lookup id = none
    | some t => (∃ id a, s.entries.lookup id = some a ∧ a.active + retention = t) ∧
        ∀ id a, s.entries.lookup id = some a → t ≤ a.active + retention := by
  unfold nextExpiry
  cases hfirst : s.first with
  | none => exact first_none h hfirst
  | some =>
    obtain ⟨⟨a, ha, hactive⟩, hle⟩ := first_le h hfirst
    refine ⟨⟨_, a, ha, by rw [hactive]⟩, fun id b hb => ?_⟩
    exact Nat.add_le_add_right (hle id b hb) retention

end ServerAssociations

namespace Server

/-! ## Runs -/

/-- The association of the scope `k` is the one that serves its session. -/
def Current (s : Server) (k : ScopeId) (id : UInt32) : Prop :=
  ∃ a, s.associations.entries.lookup id = some a ∧ a.scope = k

structure Inv (s : Server) : Prop where
  consistent : s.associations.Consistent
  retired : ∀ k id, s.made[k]? = some id → s.Current k id ∨ k ∈ s.associations.closed
  entry : ∀ id a, s.associations.entries.lookup id = some a → s.made[a.scope]? = some id
  queued : ∀ r ∈ s.replies, s.made[r.association]? = some r.session

theorem empty_inv : empty.Inv where
  consistent active id := by simp [empty, ServerAssociations.empty]
  retired k id h := by simp [empty] at h
  entry id a h := by simp [empty, ServerAssociations.empty] at h
  queued r h := by simp [empty] at h

variable {s s' : Server} {retention : Nat}

theorem Inv.retire (h : s.Inv) {associations : ServerAssociations}
    (hr : ServerAssociations.Retires s.associations associations) : Inv { s with associations } where
  consistent := hr.consistent
  retired k id hk := by
    rcases h.retired k id hk with ⟨a, ha, rfl⟩ | hclosed
    · exact (hr.gone ha).imp (fun ha => ⟨a, ha, rfl⟩) fun hk => hk
    · exact .inr (hr.closed k hclosed)
  entry id a ha := h.entry id a (hr.kept ha)
  queued := h.queued

theorem Inv.touch (h : s.Inv) {id : UInt32} (hid : id ∈ s.associations.entries) (now : Nat) :
    ∃ associations, s.associations.touch id now = some associations ∧ Inv { s with associations } ∧
      (∃ a, associations.entries.lookup id = some a ∧ a.active = now) ∧ ∀ id' b,
        associations.entries.lookup id' = some b → id' = id ∧ b.active = now ∨ s.associations.entries.lookup id' = some b := by
  obtain ⟨a, ha⟩ := isSome_iff_exists.1 (lookup_isSome.2 hid)
  obtain ⟨associations, htouch, hcons, hclosed, hlook⟩ := ServerAssociations.touch_spec h.consistent ha now
  refine ⟨associations, htouch, ⟨hcons, fun k id' hk => ?_, fun id' b hb => ?_, h.queued⟩,
    ⟨_, (hlook _ _).2 (.inl ⟨rfl, rfl⟩), rfl⟩, fun id' b hb => ((hlook id' b).1 hb).imp ?_ And.right⟩
  · rcases h.retired k id' hk with ⟨b, hb, rfl⟩ | hc
    · by_cases hne : id' = id
      · subst hne
        rw [ha] at hb
        obtain rfl := some.inj hb
        exact .inl ⟨_, (hlook _ _).2 (.inl ⟨rfl, rfl⟩), rfl⟩
      · exact .inl ⟨b, (hlook _ _).2 (.inr ⟨hne, hb⟩), rfl⟩
    · exact .inr (by rw [hclosed]; exact hc)
  · rcases (hlook id' b).1 hb with ⟨rfl, rfl⟩ | ⟨-, hb⟩
    · exact h.entry id' a ha
    · exact h.entry id' b hb
  · rintro ⟨rfl, rfl⟩
    exact ⟨rfl, rfl⟩

theorem dropClosed_spec (h : s.Inv) (id : UInt32) : ∃ associations, dropClosed s.associations id = some associations ∧
    Inv { s with associations } ∧
      ∀ {id' b}, associations.entries.lookup id' = some b → s.associations.entries.lookup id' = some b := by
  unfold dropClosed
  cases s.associations.entries.lookup id with
  | none => exact ⟨_, rfl, h, fun hb => hb⟩
  | some =>
    simp only
    split_ifs
    · obtain ⟨associations, hremove, hretires, -⟩ := ServerAssociations.remove_spec h.consistent id
      exact ⟨associations, hremove, h.retire hretires, hretires.kept⟩
    · exact ⟨_, rfl, h, fun hb => hb⟩

theorem associate_spec (h : s.Inv) (id : UInt32) (now : Nat) :
    ∃ s', s.associate id now = some s' ∧ s'.Inv ∧ id ∈ s'.associations.entries ∧ s'.sent = s.sent ∧
      ∀ id' b, s'.associations.entries.lookup id' = some b → s.associations.entries.lookup id' = some b ∨
        id' = id ∧ b = ⟨s.made.length, now⟩ := by
  obtain ⟨_, hlive, hinv, hkept⟩ := dropClosed_spec h id
  unfold associate
  rw [hlive]
  simp only [bind_eq_bind, bind_some]
  split_ifs with hmem
  · exact ⟨_, rfl, hinv, hmem, rfl, fun id' b hb => .inl (hkept hb)⟩
  · -- a new association under a scope of its own
    obtain ⟨_, hinsert, hcons, hclosed, -, hlook⟩ :=
      ServerAssociations.insert_spec hinv.consistent id ⟨s.made.length, now⟩
    rw [hinsert]
    refine ⟨_, rfl, ⟨hcons, fun k id' hk => ?_, fun id' b hb => ?_, fun r hr => ?_⟩, ?_, rfl,
      fun id' b hb => ((hlook id' b).1 hb).symm.imp_left fun hb => hkept hb.2⟩
    · rcases getElem?_snoc.1 hk with hk | ⟨rfl, rfl⟩
      · rcases hinv.retired k id' hk with ⟨b, hb, rfl⟩ | hc
        · refine .inl ⟨b, (hlook _ _).2 (.inr ⟨?_, hb⟩), rfl⟩
          rintro rfl
          exact hmem (lookup_isSome.1 (isSome_iff_exists.2 ⟨b, hb⟩))
        · exact .inr (hclosed k hc)
      · exact .inl ⟨_, (hlook _ _).2 (.inl ⟨rfl, rfl⟩), rfl⟩
    · rcases (hlook id' b).1 hb with ⟨rfl, rfl⟩ | ⟨-, hb⟩
      · exact getElem?_snoc.2 (.inr ⟨rfl, rfl⟩)
      · exact getElem?_snoc.2 (.inl (hinv.entry id' b hb))
    · exact getElem?_snoc.2 (.inl (hinv.queued r hr))
    · exact lookup_isSome.1 (isSome_iff_exists.2 ⟨_, (hlook _ _).2 (.inl ⟨rfl, rfl⟩)⟩)

/-- At most one reply is sent, for the association that serves its session. -/
def SentFor (s s' : Server) : Prop := s'.sent = s.sent ∨ ∃ r, s'.sent = s.sent ++ [r] ∧ s.Current r.association r.session

/-- `active` is the time of the last datagram that was taken or reply that was sent; a new association has the time it
was made. -/
structure Dated (s : Server) (event : Event) (s' : Server) : Prop where
  datagram : ∀ id now, event = .datagram id true now →
    ∃ a, s'.associations.entries.lookup id = some a ∧ a.active = now
  reply : ∀ now r, event = .reply now → s'.sent = s.sent ++ [r] →
    ∃ a, s'.associations.entries.lookup r.session = some a ∧ a.active = now
  others : ∀ id a, s'.associations.entries.lookup id = some a → s.associations.entries.lookup id = some a ∨
    (∃ taken now, event = .datagram id taken now ∧ a.active = now ∧ (taken = true ∨ a.scope = s.made.length)) ∨
    ∃ now r, event = .reply now ∧ s'.sent = s.sent ++ [r] ∧ r.session = id ∧ a.active = now

theorem dated_of_kept {event : Event} (hevent : ∀ id now, event ≠ .datagram id true now) (hsent : s'.sent = s.sent)
    (h : ∀ id a, s'.associations.entries.lookup id = some a → s.associations.entries.lookup id = some a) :
    s.Dated event s' where
  datagram id now hd := absurd hd (hevent id now)
  reply now r _ hr := absurd (congrArg List.length (hsent.symm.trans hr)) (by simp)
  others id a ha := .inl (h id a ha)

theorem reply_spec (h : s.Inv) (now : Nat) :
    ∃ s', s.reply now = some s' ∧ s'.Inv ∧ s.Dated (.reply now) s' ∧ s.SentFor s' := by
  unfold reply
  cases hreplies : s.replies with
  | nil => exact ⟨s, rfl, h, dated_of_kept (by simp) rfl fun _ _ ha => ha, .inl rfl⟩
  | cons r rest =>
    have hrest : ∀ x ∈ rest, s.made[x.association]? = some x.session := fun x hx =>
      h.queued x (by rw [hreplies]; exact mem_cons_of_mem r hx)
    have hpop : Inv { s with replies := rest } := ⟨h.consistent, h.retired, h.entry, hrest⟩
    have hr : s.made[r.association]? = some r.session := h.queued r (by rw [hreplies]; exact mem_cons_self)
    simp only
    split_ifs with hclosed hmem
    · exact ⟨_, rfl, hpop, dated_of_kept (by simp) rfl fun _ _ ha => ha, .inl rfl⟩
    · obtain ⟨associations, htouch, hinv, hactive, hothers⟩ := hpop.touch hmem now
      refine ⟨{ s with associations, replies := rest, sent := s.sent ++ [r] }, by rw [htouch]; rfl,
        ⟨hinv.consistent, hinv.retired, hinv.entry, hinv.queued⟩, ⟨by simp, fun now' x hnow hx => ?_, fun id a ha => ?_⟩,
        .inr ⟨r, rfl, (h.retired _ _ hr).resolve_right hclosed⟩⟩
      · obtain rfl : r = x := by simpa using hx
        obtain rfl := Event.reply.inj hnow
        exact hactive
      · exact (hothers id a ha).symm.imp_right fun ⟨hid, ha⟩ => .inr ⟨now, r, rfl, rfl, hid.symm, ha⟩
    · exact ⟨_, rfl, hpop, dated_of_kept (by simp) rfl fun _ _ ha => ha, .inl rfl⟩

theorem datagram_spec (h : s.Inv) (id : UInt32) (taken : Bool) (now : Nat) :
    ∃ s', s.datagram id taken now = some s' ∧ s'.Inv ∧ s.Dated (.datagram id taken now) s' ∧ s.SentFor s' := by
  obtain ⟨s', hassoc, hinv, hmem, hsent, hmade⟩ := associate_spec h id now
  simp only [datagram, hassoc, bind_eq_bind, bind_some]
  cases taken with
  | false =>
    refine ⟨s', rfl, hinv, ⟨by simp, by simp, fun id' a ha => (hmade id' a ha).imp_right ?_⟩, .inl hsent⟩
    rintro ⟨rfl, rfl⟩
    exact .inl ⟨_, _, rfl, rfl, .inr rfl⟩
  | true =>
    obtain ⟨associations, htouch, hinv', hactive, hothers⟩ := hinv.touch hmem now
    refine ⟨_, by simp only [if_true, htouch]; rfl, hinv', ⟨?_, by simp, fun id' a ha => ?_⟩, .inl hsent⟩
    · rintro _ _ ⟨⟩
      exact hactive
    · have hused (hid : id' = id) (ha : a.active = now) : ∃ taken now', Event.datagram id true now =
          .datagram id' taken now' ∧ a.active = now' ∧ (taken = true ∨ a.scope = s.made.length) :=
        ⟨true, now, by rw [hid], ha, .inl rfl⟩
      rcases hothers id' a ha with ⟨hid, ha⟩ | ha
      · exact .inr (.inl (hused hid ha))
      · exact (hmade id' a ha).imp_right fun ⟨hid, ha⟩ => .inl (hused hid (by rw [ha]))

/-- **One step**: it does not panic, keeps the invariant, dates the association it uses, and sends only for the
association that serves the session. -/
theorem step_spec (h : s.Inv) (retention : Nat) (event : Event) :
    ∃ s', s.step retention event = some s' ∧ s'.Inv ∧ s.Dated event s' ∧ s.SentFor s' := by
  cases event with
  | datagram id taken now => exact datagram_spec h id taken now
  | produce scope =>
    simp only [step]
    cases hmade : s.made[scope]? with
    | none => exact ⟨s, rfl, h, dated_of_kept (by simp) rfl fun _ _ ha => ha, .inl rfl⟩
    | some =>
      refine ⟨_, rfl, ⟨h.consistent, h.retired, h.entry, fun r hr => ?_⟩,
        dated_of_kept (by simp) rfl fun _ _ ha => ha, .inl rfl⟩
      rcases mem_append.1 hr with hr | hr
      · exact h.queued r hr
      · rw [mem_singleton.1 hr]
        exact hmade
  | close =>
    refine ⟨_, rfl, ⟨h.consistent, fun k id hk => ?_, h.entry, h.queued⟩,
      dated_of_kept (by simp) rfl fun _ _ ha => ha, .inl rfl⟩
    exact (h.retired k id hk).imp (fun hc => hc) fun hc => mem_cons_of_mem _ hc
  | expire now =>
    obtain ⟨_, hexpire, hretires, -⟩ := ServerAssociations.expire_spec h.consistent retention now
    exact ⟨_, by rw [step, hexpire]; rfl, h.retire hretires,
      dated_of_kept (by simp) rfl fun _ _ ha => hretires.kept ha, .inl rfl⟩
  | reply now => exact reply_spec h now

inductive Reachable (retention : Nat) : Server → Prop
  | empty : Reachable retention empty
  | step {s s' : Server} (event : Event) : Reachable retention s → s.step retention event = some s' →
      Reachable retention s'

theorem Reachable.inv (h : Reachable retention s) : s.Inv := by
  induction h with
  | empty => exact empty_inv
  | step event _ hstep ih =>
    obtain ⟨_, heq, _, -⟩ := step_spec ih retention event
    rw [hstep] at heq
    rwa [some.inj heq]

/-- **Replies never cross associations**: in every state that events lead to, the two indexes hold the same associations;
`expire` removes exactly those idle for at least the retention; `next_expiry` is the earliest deadline; an association
that was removed or replaced has its scope closed; and the next event does not panic, dates the association it uses and
no other, and sends a reply only if the current association of its session produced it. -/
theorem replies_never_cross (h : Reachable retention s) : s.associations.Consistent ∧
    (∀ now, ∃ left, s.associations.expire retention now = some left ∧ ∀ id a,
      left.entries.lookup id = some a ↔ s.associations.entries.lookup id = some a ∧ now < a.active + retention) ∧
    (match s.associations.nextExpiry retention with
      | none => ∀ id, s.associations.entries.lookup id = none
      | some t => (∃ id a, s.associations.entries.lookup id = some a ∧ a.active + retention = t) ∧
          ∀ id a, s.associations.entries.lookup id = some a → t ≤ a.active + retention) ∧
    (∀ k id, s.made[k]? = some id → s.Current k id ∨ k ∈ s.associations.closed) ∧
    ∀ event, ∃ s', s.step retention event = some s' ∧ s.Dated event s' ∧
      (s'.sent = s.sent ∨ ∃ r, s'.sent = s.sent ++ [r] ∧ s.Current r.association r.session) := by
  have hinv := h.inv
  refine ⟨hinv.consistent, fun now => ?_, ServerAssociations.nextExpiry_spec hinv.consistent retention, hinv.retired,
    fun event => ?_⟩
  · obtain ⟨left, hexpire, -, hlook⟩ := ServerAssociations.expire_spec hinv.consistent retention now
    exact ⟨left, hexpire, hlook⟩
  · obtain ⟨s', hstep, -, hstepped⟩ := step_spec hinv retention event
    exact ⟨s', hstep, hstepped⟩

def samplePacket : Packet := ⟨.domain "a" 53, [1]⟩

/-- A session is reused while a reply of its first association, which has expired, is still queued: of the two replies
only that of the second association is sent. -/
theorem replies_never_cross_reused : ∃ s, Reachable 3 s ∧ s.replies.map Reply.association = [0, 1] ∧
    (((s.step 3 (.reply 11)).bind fun s => s.step 3 (.reply 11)).map fun s => s.sent.map Reply.association) = some [1] ∧
    ∀ event, ∃ s', s.step 3 event = some s' ∧ s.Dated event s' ∧
      (s'.sent = s.sent ∨ ∃ r, s'.sent = s.sent ++ [r] ∧ s.Current r.association r.session) := by
  have hfirst : Reachable 3 _ := .step (.produce 0 samplePacket) (.step (.datagram 5 true 0) .empty rfl) rfl
  have hrun : Reachable 3 _ :=
    .step (.produce 1 samplePacket) (.step (.datagram 5 false 10) (.step (.expire 10) hfirst rfl) rfl) rfl
  exact ⟨_, hrun, rfl, rfl, (replies_never_cross hrun).2.2.2.2⟩

end Server

end Kotoconn.Hysteria2
