import Kotoconn.Lib.Table

/-!
# Tables of UDP sessions

`route_packets` of the daemon and `udp` of the direct inbound own a table of sessions by key, and tell the sessions of
one key apart by their generation. Both do the same with packets and completions.
-/

namespace Kotoconn.Protocol
open Lib List Function Table AList

/-- A session is known by its generation. Whether a queue takes a packet, and whether a task can be spawned, is up to
the session. -/
structure Sessions (K P : Type) where
  table : Table K Nat
  generation : Nat
  key : Nat → Option K
  closed : Nat → Bool
  finished : Nat → Bool
  completions : List (K × Nat)
  /-- ghost: the packets that arrived, those offered to each session, and those its queue took -/
  arrived : List (K × P)
  offered : Nat → List P
  received : Nat → List P

namespace Sessions
variable {K P : Type}

def empty : Sessions K P := ⟨∅, 0, fun _ => none, fun _ => false, fun _ => false, [], [], fun _ => [], fun _ => []⟩

def close (s : Sessions K P) (g : Nat) : Sessions K P := { s with closed := update s.closed g true }

theorem closed_close (s : Sessions K P) (g : Nat) : (s.close g).closed g = true := update_self _ _ _

theorem closed_close_of_ne {s : Sessions K P} {g g' : Nat} (h : g' ≠ g) : (s.close g).closed g' = s.closed g' :=
  update_of_ne h _ _

inductive Other : Sessions K P → Sessions K P → Prop
  | close {s : Sessions K P} {g : Nat} {k : K} (hkey : s.key g = some k) : Other s (s.close g)
  | finish {s : Sessions K P} {g : Nat} {k : K} (hkey : s.key g = some k) (hfinished : s.finished g = false) :
      Other s { s with finished := update s.finished g true, completions := s.completions ++ [(k, g)] }

theorem Other.same {s s' : Sessions K P} (hstep : Other s s') : s'.key = s.key ∧ s'.table = s.table := by
  cases hstep with
  | close => exact ⟨rfl, rfl⟩
  | finish => exact ⟨rfl, rfl⟩

inductive Event (K P : Type) where
  | completion (k : K) (g : Nat)
  | packet (k : K) (p : P)
  | other

variable [DecidableEq K]

def remove (s : Sessions K P) (k : K) : Sessions K P :=
  match s.table.lookup k with
  | none => s
  | some g => { s.close g with table := s.table.erase k }

def drop (s : Sessions K P) : Sessions K P :=
  { s with table := ∅, closed := fun g => s.closed g || (s.table.values.contains g) }

def complete (s : Sessions K P) (k : K) (g : Nat) : Sessions K P :=
  if s.table.lookup k = some g then s.remove k else s

def refresh (s : Sessions K P) (k : K) : Sessions K P :=
  match s.table.lookup k with
  | none => s
  | some g => if s.closed g then s.remove k else s

/-- `try_send` -/
def offer (s : Sessions K P) (g : Nat) (p : P) (taken : Bool) : Sessions K P :=
  { s with
    offered := update s.offered g (s.offered g ++ [p])
    received := if taken then update s.received g (s.received g ++ [p]) else s.received }

def start (s : Sessions K P) (k : K) : Sessions K P :=
  { s with
    table := s.table.insert k (s.generation + 1)
    generation := s.generation + 1
    key := update s.key (s.generation + 1) (some k) }

/-- One packet; an error ends the loop, which drops the table. `spawned` is the result of `Scope::spawn`. -/
def packet (limit : Nat) (exhausted : String) (s : Sessions K P) (k : K) (p : P) (spawned : Except String Unit)
    (taken : Bool) : Except String Unit × Sessions K P :=
  let s := { s with arrived := s.arrived ++ [(k, p)] }.refresh k
  match s.table.lookup k with
  | some g => (.ok (), s.offer g p taken)
  | none =>
    if limit ≤ s.table.keys.length then (.ok (), s)
    else if s.generation + 1 < 2 ^ 64 then
      match spawned with
      | .ok () => (.ok (), (s.start k).offer (s.generation + 1) p taken)
      | .error e => (.error e, s.drop)
    else (.error exhausted, s.drop)

/-! ## Invariant -/

def arrivedFor (s : Sessions K P) (k : K) : List P := (s.arrived.filter fun a => a.1 = k).map Prod.snd

structure Inv (limit : Nat) (s : Sessions K P) : Prop where
  current : ∀ {k g}, s.table.lookup k = some g → s.key g = some k
  open_current : ∀ {k g}, s.key g = some k → s.closed g = false → s.table.lookup k = some g
  fresh : ∀ {g}, s.generation < g → s.key g = none ∧ s.closed g = false ∧ s.offered g = [] ∧ s.received g = []
  completions : ∀ {k g}, (k, g) ∈ s.completions → s.key g = some k ∧ s.finished g = true
  received : ∀ g, (s.received g).Sublist (s.offered g)
  offered : ∀ {k g}, s.key g = some k → (s.offered g).Sublist (s.arrivedFor k)
  bounded : s.table.keys.length ≤ limit

variable {s s' : Sessions K P} {k k' : K} {g g' limit : Nat} {p : P}

theorem inv_empty (limit : Nat) : Inv limit (empty : Sessions K P) where
  current h := by cases h
  open_current h := by cases h
  fresh _ := ⟨rfl, rfl, rfl, rfl⟩
  completions h := by cases h
  received _ := .refl _
  offered h := by cases h
  bounded := zero_le

theorem remove_of_lookup (h : s.table.lookup k = some g) : s.remove k = { s.close g with table := s.table.erase k } := by
  unfold remove
  rw [h]

variable (h : Inv limit s)
include h

theorem Inv.close (hkey : s.key g = some k) : Inv limit (s.close g) := by
  refine ⟨h.current, fun {k' g'} hk' hopen => ?_, fun {g'} hg' => ?_, h.completions, h.received, h.offered, h.bounded⟩
  · refine h.open_current hk' ?_
    by_cases hg : g' = g
    · subst hg
      cases (closed_close s g').symm.trans hopen
    · exact (closed_close_of_ne hg).symm.trans hopen
  · have hne : g' ≠ g := fun hg => by cases hkey.symm.trans (hg ▸ (h.fresh hg').1)
    exact ⟨(h.fresh hg').1, (closed_close_of_ne hne).trans (h.fresh hg').2.1, (h.fresh hg').2.2⟩

theorem Inv.remove (k : K) : Inv limit (s.remove k) := by
  cases hlookup : s.table.lookup k with
  | none =>
    unfold Sessions.remove
    rw [hlookup]
    exact h
  | some g =>
    rw [remove_of_lookup hlookup]
    have hclosed := h.close (h.current hlookup)
    refine ⟨fun hk' => h.current (lookup_erase_iff.1 hk').2, fun {k' g'} hk' hopen => ?_, hclosed.fresh,
      h.completions, h.received, h.offered, ?_⟩
    · have hcurrent : s.table.lookup k' = some g' := hclosed.open_current hk' hopen
      refine lookup_erase_iff.2 ⟨fun hk => ?_, hcurrent⟩
      subst hk
      cases hlookup.symm.trans hcurrent
      cases (closed_close s g).symm.trans hopen
    · rw [AList.keys_erase]
      exact le_trans (length_erase_le) h.bounded

theorem Inv.drop : Inv limit s.drop := by
  refine ⟨nofun, fun {k' g'} hk' hopen => ?_, fun {g'} hg' => ?_, h.completions, h.received, h.offered,
    zero_le⟩
  · obtain ⟨hopen', hvalues⟩ := Bool.or_eq_false_iff.1 hopen
    have hin := Table.mem_values_of_lookup (h.open_current hk' hopen')
    rw [contains_iff_mem.2 hin] at hvalues
    cases hvalues
  · refine ⟨(h.fresh hg').1, Bool.or_eq_false_iff.2 ⟨(h.fresh hg').2.1, ?_⟩, (h.fresh hg').2.2⟩
    refine Bool.eq_false_iff.2 fun hin => ?_
    obtain ⟨_, hk'⟩ := Table.exists_lookup_of_mem_values (contains_iff_mem.1 hin)
    cases (h.current hk').symm.trans (h.fresh hg').1

theorem Inv.complete (k : K) (g : Nat) : Inv limit (s.complete k g) := by
  unfold Sessions.complete
  split_ifs
  · exact h.remove k
  · exact h

theorem Inv.refresh (k : K) : Inv limit (s.refresh k) := by
  unfold Sessions.refresh
  cases s.table.lookup k with
  | none => exact h
  | some =>
    simp only
    split_ifs
    · exact h.remove k
    · exact h

theorem Inv.arrive (a : K × P) : Inv limit { s with arrived := s.arrived ++ [a] } := by
  refine ⟨h.current, h.open_current, h.fresh, h.completions, h.received, fun hk => (h.offered hk).trans ?_, h.bounded⟩
  unfold arrivedFor
  rw [filter_append, map_append]
  exact sublist_append_left _ _

theorem Inv.start (hvacant : s.table.lookup k = none) (hroom : s.table.keys.length < limit) :
    Inv limit (s.start k) := by
  have hnew := h.fresh (lt_add_one s.generation)
  have hold : ∀ {g k'}, s.key g = some k' → g ≠ s.generation + 1 := by
    intro g k' hk' hg
    rw [hg, hnew.1] at hk'
    cases hk'
  refine ⟨fun {k' g'} hk' => ?_, fun {k' g'} hk' hopen => ?_, fun {g'} hg' => ?_, fun {k' g'} hin => ?_, h.received,
    fun {k' g'} hk' => ?_, ?_⟩
  · rcases lookup_insert_iff.1 hk' with ⟨rfl, rfl⟩ | ⟨-, hk'⟩
    · exact update_self _ _ _
    · exact (update_of_ne (hold (h.current hk')) _ _).trans (h.current hk')
  · rcases update_eq_some.1 hk' with ⟨rfl, hk⟩ | ⟨-, hk'⟩
    · cases hk
      exact lookup_insert _
    · have hcurrent := h.open_current hk' hopen
      refine (lookup_insert_ne fun hk => ?_).trans hcurrent
      cases hvacant.symm.trans (hk ▸ hcurrent)
  · have hlt : s.generation < g' := Nat.lt_of_succ_lt hg'
    exact ⟨(update_of_ne (Nat.ne_of_gt hg') _ _).trans (h.fresh hlt).1, (h.fresh hlt).2⟩
  · obtain ⟨hk', hfinished⟩ := h.completions hin
    exact ⟨(update_of_ne (hold hk') _ _).trans hk', hfinished⟩
  · rcases update_eq_some.1 hk' with ⟨rfl, -⟩ | ⟨-, hk'⟩
    · exact hnew.2.2.1 ▸ nil_sublist _
    · exact h.offered hk'
  · have hkeys : (s.start k).table.keys = k :: s.table.keys.erase k := AList.keys_insert _
    rw [hkeys, length_cons]
    exact lt_of_le_of_lt length_erase_le hroom

theorem Inv.offer (hkey : s.key g = some k) {rest : List (K × P)} (hlast : s.arrived = rest ++ [(k, p)])
    (hbefore : (s.offered g).Sublist ((rest.filter fun a => a.1 = k).map Prod.snd)) (taken : Bool) :
    Inv limit (s.offer g p taken) := by
  have hold : ∀ {g'}, s.generation < g' → g' ≠ g := by
    intro g' hg' heq
    cases hkey.symm.trans (heq ▸ (h.fresh hg').1)
  refine ⟨h.current, h.open_current, fun {g'} hg' => ?_, h.completions, fun g' => ?_, fun {k' g'} hk' => ?_, h.bounded⟩
  · refine ⟨(h.fresh hg').1, (h.fresh hg').2.1, (update_of_ne (hold hg') _ _).trans (h.fresh hg').2.2.1, ?_⟩
    unfold Sessions.offer
    cases taken with
    | false => exact (h.fresh hg').2.2.2
    | true => exact (update_of_ne (hold hg') _ _).trans (h.fresh hg').2.2.2
  · unfold Sessions.offer
    by_cases hg : g' = g
    · subst hg
      cases taken with
      | false => simpa using (h.received g').trans (sublist_append_left _ _)
      | true => simpa using h.received g'
    · cases taken <;> simpa [hg] using h.received g'
  · by_cases hg : g' = g
    · subst hg
      cases hkey.symm.trans hk'
      have harrived : (s.offer g' p taken).arrivedFor k = (rest.filter fun a => a.1 = k).map Prod.snd ++ [p] := by
        unfold arrivedFor Sessions.offer
        simp [hlast]
      have hoffered : (s.offer g' p taken).offered g' = s.offered g' ++ [p] := update_self _ _ _
      rw [harrived, hoffered]
      exact hbefore.append (.refl _)
    · have hoffered : (s.offer g p taken).offered g' = s.offered g' := update_of_ne hg _ _
      rw [hoffered]
      exact h.offered hk'

omit h

theorem refresh_frame (s : Sessions K P) (k : K) : ∃ table closed, s.refresh k = { s with table, closed } := by
  unfold refresh
  cases hlookup : s.table.lookup k with
  | none => exact ⟨_, _, rfl⟩
  | some =>
    simp only
    split_ifs
    · exact ⟨_, _, remove_of_lookup hlookup⟩
    · exact ⟨_, _, rfl⟩

theorem Inv.packet (h : Inv limit s) (exhausted : String) (k : K) (p : P) (spawned : Except String Unit) (taken : Bool) :
    Inv limit (s.packet limit exhausted k p spawned taken).2 := by
  have hrefreshed := (h.arrive (k, p)).refresh k
  obtain ⟨table, _, hframe⟩ := refresh_frame { s with arrived := s.arrived ++ [(k, p)] } k
  unfold Sessions.packet
  simp only
  rw [hframe] at hrefreshed ⊢
  cases hlookup : table.lookup k with
  | some g =>
    have hkey : s.key g = some k := hrefreshed.current hlookup
    exact hrefreshed.offer hkey rfl (h.offered hkey) taken
  | none =>
    simp only
    split_ifs with hfull hgen
    · exact hrefreshed
    · cases spawned with
      | error => exact hrefreshed.drop
      | ok =>
        have hstarted := hrefreshed.start hlookup (not_le.1 hfull)
        have hnew := (h.fresh (lt_add_one s.generation)).2.2.1
        have hnone : (s.offered (s.generation + 1)).Sublist ((s.arrived.filter fun a => a.1 = k).map Prod.snd) :=
          hnew ▸ nil_sublist _
        exact hstarted.offer (update_self _ _ _) rfl hnone taken
    · exact hrefreshed.drop

theorem Inv.packet_key (h : Inv limit s) (hkey : s.key g = some k') (exhausted : String) (spawned : Except String Unit)
    (taken : Bool) : (s.packet limit exhausted k p spawned taken).2.key g = some k' := by
  have hne : g ≠ s.generation + 1 := by
    intro hg
    rw [hg, (h.fresh (lt_add_one s.generation)).1] at hkey
    cases hkey
  obtain ⟨table, _, hframe⟩ := refresh_frame { s with arrived := s.arrived ++ [(k, p)] } k
  unfold Sessions.packet
  simp only [hframe]
  cases table.lookup k with
  | some => exact hkey
  | none =>
    simp only
    split_ifs
    · exact hkey
    · cases spawned with
      | error => exact hkey
      | ok => exact (update_of_ne hne _ _).trans hkey
    · exact hkey

theorem complete_key (s : Sessions K P) (k : K) (g : Nat) : (s.complete k g).key = s.key := by
  unfold complete
  split_ifs with hcurrent
  · rw [remove_of_lookup hcurrent]
    rfl
  · rfl

/-- **A packet is offered to the current session of its key**, if to any. -/
theorem packet_offers (exhausted : String) (spawned : Except String Unit) (taken : Bool)
    (hne : (s.packet limit exhausted k p spawned taken).2.offered g ≠ s.offered g) :
    (s.packet limit exhausted k p spawned taken).2.offered g = s.offered g ++ [p] ∧
      (s.packet limit exhausted k p spawned taken).2.table.lookup k = some g := by
  obtain ⟨table, _, hframe⟩ := refresh_frame { s with arrived := s.arrived ++ [(k, p)] } k
  unfold Sessions.packet at hne ⊢
  simp only [hframe] at hne ⊢
  cases hlookup : table.lookup k with
  | some g' =>
    simp only [hlookup, offer] at hne ⊢
    by_cases hg : g = g'
    · subst hg
      exact ⟨update_self _ _ _, rfl⟩
    · exact absurd (update_of_ne hg _ _) hne
  | none =>
    simp only [hlookup] at hne ⊢
    split_ifs at hne ⊢ with hfull hgen
    · exact absurd rfl hne
    · cases spawned with
      | error => exact absurd rfl hne
      | ok =>
        simp only [offer, start] at hne ⊢
        by_cases hg : g = s.generation + 1
        · subst hg
          exact ⟨update_self _ _ _, lookup_insert _⟩
        · exact absurd (update_of_ne hg _ _) hne
    · exact absurd rfl hne

/-- **A completion removes its own session**, if any. -/
theorem complete_keeps (hlookup : s.table.lookup k' = some g') (hne : (k', g') ≠ (k, g)) :
    (s.complete k g).table.lookup k' = some g' := by
  unfold complete
  split_ifs with hcurrent
  · rw [remove_of_lookup hcurrent]
    refine (lookup_erase_ne fun hk => hne ?_).trans hlookup
    subst hk
    cases hlookup.symm.trans hcurrent
    rfl
  · exact hlookup

theorem Other.inv (hstep : Other s s') (h : Inv limit s) : Inv limit s' := by
  cases hstep with
  | close hkey => exact h.close hkey
  | @finish g _ hkey =>
    refine ⟨h.current, h.open_current, h.fresh, fun {k' g'} hin => ?_, h.received, h.offered, h.bounded⟩
    rcases mem_append.1 hin with hin | hin
    · refine ⟨(h.completions hin).1, ?_⟩
      by_cases hg : g' = g
      · exact hg ▸ update_self _ _ _
      · exact (update_of_ne hg _ _).trans (h.completions hin).2
    · cases mem_singleton.1 hin
      exact ⟨hkey, update_self _ _ _⟩

theorem Inv.received_completion (h : Inv limit s) {rest : List (K × Nat)} (hnext : s.completions = (k, g) :: rest) :
    Inv limit { s with completions := rest } :=
  ⟨h.current, h.open_current, h.fresh, fun hin => h.completions (hnext ▸ mem_cons_of_mem _ hin), h.received,
    h.offered, h.bounded⟩

structure Separate (limit : Nat) (s : Sessions K P) : Prop where
  one : ∀ {k g g'}, s.key g = some k → s.key g' = some k → s.closed g = false → s.closed g' = false → g = g'
  ordered : ∀ {k g}, s.key g = some k → (s.received g).Sublist (s.arrivedFor k)
  bounded : s.table.keys.length ≤ limit

theorem Inv.separate (h : Inv limit s) : Separate limit s where
  one hk hk' hopen hopen' := Option.some.inj ((h.open_current hk hopen).symm.trans (h.open_current hk' hopen'))
  ordered hk := (h.received _).trans (h.offered hk)
  bounded := h.bounded

structure Change (s : Sessions K P) (event : Event K P) (s' : Sessions K P) : Prop where
  completion : ∀ {k g}, event = .completion k g → s.key g = some k ∧ s.finished g = true ∧
    ∀ {k' g'}, s.table.lookup k' = some g' → (k', g') ≠ (k, g) → s'.table.lookup k' = some g'
  packet : ∀ {g}, s'.offered g ≠ s.offered g → ∃ k p, event = .packet k p ∧ s'.offered g = s.offered g ++ [p] ∧
    s'.table.lookup k = some g

theorem Change.other (h : s'.offered = s.offered) : Change s .other s' :=
  ⟨nofun, fun hne => absurd (congrFun h _) hne⟩

theorem Other.change (hstep : Other s s') : Change s .other s' := by
  cases hstep with
  | close => exact .other rfl
  | finish => exact .other rfl

theorem Change.ofPacket (exhausted : String) (spawned : Except String Unit) (taken : Bool) :
    Change s (.packet k p) (s.packet limit exhausted k p spawned taken).2 := by
  refine ⟨nofun, fun hne => ?_⟩
  obtain ⟨hoffered, hcurrent⟩ := packet_offers exhausted spawned taken hne
  exact ⟨k, p, rfl, hoffered, hcurrent⟩

theorem Inv.change_complete (h : Inv limit s) {rest : List (K × Nat)} (hnext : s.completions = (k, g) :: rest) :
    Change s (.completion k g) ({ s with completions := rest }.complete k g) := by
  obtain ⟨hkey, hfinished⟩ := h.completions (hnext ▸ mem_cons_self)
  refine ⟨fun heq => ?_, fun hne => absurd ?_ hne⟩
  · cases heq
    exact ⟨hkey, hfinished, fun hlookup => complete_keeps hlookup⟩
  · unfold Sessions.complete
    split_ifs with hcurrent
    · rw [remove_of_lookup hcurrent]
      rfl
    · rfl

end Sessions

end Kotoconn.Protocol
