import Kotoconn.Hysteria2.Reassembly

/-!
# Fragments of one packet in any order

The pieces of one packet, in any order and with repetitions, into an empty reassembly (`receive_pieces`): every call but
the completing one keeps the packet waiting, and the completing one hands it out and leaves nothing held.
-/

namespace Kotoconn.Hysteria2

open Lib Protocol List

/-- A piece of the packet `key` for `target`, cut into `n` chunks. -/
structure Fragment.PieceOf (f : Fragment) (key : Key) (target : Target) (n : Nat) (chunk : Nat → Bytes) : Prop where
  key_eq : f.key = key
  target_eq : f.target = target
  count_eq : f.count.toNat = n
  index_lt : f.index.toNat < n
  payload_eq : f.payload = chunk f.index.toNat

/-- Every index of a packet of `n` fragments occurred. -/
abbrev Arrived (n : Nat) (parts : List Fragment) : Prop := AllOccur (fun f : Fragment => f.index.toNat) n parts

/-- The entry after the fragments `parts`, the first at `created`. -/
def Pending.collected (target : Target) (n created : Nat) (parts : List Fragment) : Pending :=
  ⟨target, slotsOf n parts, weigh List.length (slotsOf n parts), (slotsOf n parts).countP Option.isSome, created⟩

section Collected
variable {target : Target} {n created : Nat} {parts : List Fragment} {part : Fragment}

theorem slotsOf_filled : (slotsOf n parts).countP Option.isSome = n ↔ Arrived n parts := countP_firstAt

theorem Pending.collected_repeated {b : Bytes} (h : (slotsOf n parts)[part.index.toNat]? = some (some b)) :
    Pending.collected target n created (parts ++ [part]) = .collected target n created parts := by
  have hsame : slotsOf n (parts ++ [part]) = slotsOf n parts := firstAt_filled h
  rw [collected, collected, hsame]

theorem Pending.collected_fill (h : (slotsOf n parts)[part.index.toNat]? = some none) :
    (Pending.collected target n created parts).fill part = .collected target n created (parts ++ [part]) := by
  have hnew : slotsOf n (parts ++ [part]) = (slotsOf n parts).set part.index.toNat (some part.payload) :=
    firstAt_vacant h
  rw [collected, collected, fill, hnew, weigh_set h, countP_isSome, countP_isSome, weigh_set h]

end Collected

namespace Reassembly

def lone (key : Key) (p : Pending) : Reassembly := ⟨(∅ : Table Key Pending).insert key p, [key], p.bytes⟩

/-- The state after the calls `seen`, as long as the packet is incomplete. -/
def awaiting (key : Key) (target : Target) (n : Nat) : List (Nat × Fragment) → Reassembly
  | [] => empty
  | (now, f) :: later => lone key (.collected target n now (f :: later.map Prod.snd))

def receiveAll (s : Reassembly) : List (Nat × Fragment) → Option (List Outcome × Reassembly)
  | [] => some ([], s)
  | (now, part) :: later =>
    match s.receive now part with
    | none => none
    | some (r, s) => (receiveAll s later).map fun rest => (r :: rest.1, rest.2)

theorem receiveAll_snoc {s s' s'' : Reassembly} {calls : List (Nat × Fragment)} {rs : List Outcome} {r : Outcome}
    {now : Nat} {part : Fragment} (h : s.receiveAll calls = some (rs, s')) (hr : s'.receive now part = some (r, s'')) :
    s.receiveAll (calls ++ [(now, part)]) = some (rs ++ [r], s'') := by
  induction calls generalizing s rs with
  | nil =>
    obtain ⟨rfl, rfl⟩ := Prod.mk.inj (Option.some.inj h)
    simp [receiveAll, hr]
  | cons call _ ih =>
    obtain ⟨t, f⟩ := call
    rw [receiveAll] at h
    rw [cons_append, receiveAll]
    cases hcall : s.receive t f with
    | none => rw [hcall] at h; cases h
    | some =>
      rw [hcall] at h
      simp only at h ⊢
      obtain ⟨⟨_, _⟩, hrest, heq⟩ := Option.map_eq_some_iff.1 h
      obtain ⟨rfl, rfl⟩ := Prod.mk.inj heq
      rw [ih hrest]
      rfl

variable {key : Key} {target : Target} {n now : Nat} {chunk : Nat → Bytes} {p : Pending} {part : Fragment}

@[simp] theorem lone_lookup (key : Key) (p : Pending) : (lone key p).pending.lookup key = some p := AList.lookup_insert _

theorem lone_remove (key : Key) (p : Pending) : (lone key p).remove key = some (some p, empty) := by
  have herase : ((∅ : Table Key Pending).insert key p).erase key = ∅ := AList.ext (kerase_cons_eq rfl)
  rw [remove, lone_lookup]
  simp only [lone, herase, lt_irrefl, if_false, Nat.sub_self]
  simp [empty]

theorem lone_expire (h : now - p.created < fragmentRetention) : (lone key p).expire now = some (lone key p) := by
  refine loop_done ?_
  have hfresh : ((lone key p).pending.lookup key).any (fun p => decide (now - p.created < fragmentRetention)) = true := by
    rw [lone_lookup]
    exact decide_eq_true h
  exact if_pos hfresh

theorem empty_expire (now : Nat) : empty.expire now = some empty := rfl

theorem evict_of_small {s : Reassembly} (hbytes : s.bytes ≤ maxPayload) (hsize : s.pending.keys.length < maxPending)
    (part : Fragment) : s.evict part = some s := by
  have hpart := part.payload_le
  refine loop_done (if_neg ?_)
  rw [not_or, not_and_or]
  refine ⟨not_lt.2 (le_trans (Nat.add_le_add hbytes hpart) (by decide)), .inr (by omega)⟩

theorem awaiting_snoc (seen : List (Nat × Fragment)) : awaiting key target n (seen ++ [(now, part)]) =
    lone key (.collected target n ((seen.map Prod.fst).headD now) (seen.map Prod.snd ++ [part])) := by
  cases seen with
  | nil => rfl
  | cons => simp [awaiting]

theorem settle_collected {parts : List Fragment} {created : Nat} (hall : ∀ f ∈ parts, f.payload = chunk f.index.toNat)
    (htotal : ((List.range n).map fun i => (chunk i).length).sum ≤ maxPayload) :
    (Arrived n parts → (lone key (.collected target n created parts)).settle key (.collected target n created parts) =
      some (.ok (some (key.1, ⟨target, ((List.range n).map chunk).flatten⟩)), empty)) ∧
    (¬ Arrived n parts → (lone key (.collected target n created parts)).settle key
      (.collected target n created parts) = some (.ok none, lone key (.collected target n created parts))) := by
  have hweigh : weigh List.length (slotsOf n parts) ≤ maxPayload :=
    le_trans (weigh_firstAt_le hall List.length) htotal
  have hsmall : ¬ maxPayload < (Pending.collected target n created parts).bytes := not_lt.2 hweigh
  have hcount : (Pending.collected target n created parts).received =
      (Pending.collected target n created parts).fragments.length ↔ Arrived n parts := by
    rw [← slotsOf_filled]
    exact Eq.congr rfl length_firstAt
  rw [settle, if_neg hsmall]
  constructor
  · intro h
    have hpieces : allFilled (Pending.collected target n created parts).fragments = some ((List.range n).map chunk) :=
      allFilled_eq_some.2 (firstAt_of_allOccur hall h)
    rw [if_neg (not_not.2 (hcount.2 h)), complete, lone_remove]
    simp only [hpieces]
    rfl
  · intro h
    rw [if_pos fun he => h (hcount.1 he)]

/-! ## One call -/

section
variable {seen : List (Nat × Fragment)} (hseen : ∀ f ∈ seen.map Prod.snd, f.PieceOf key target n chunk)
  (hpart : part.PieceOf key target n chunk) (htotal : ((List.range n).map fun i => (chunk i).length).sum ≤ maxPayload)
include hseen hpart htotal

theorem accept_awaiting (htime : ∀ call ∈ seen, now - call.1 < fragmentRetention) (hone : part.count ≠ 1) :
    ∃ created, (awaiting key target n seen).receive now part = (awaiting key target n seen).store part now ∧
      (awaiting key target n seen).entry part now = (.collected target n created (seen.map Prod.snd), [key]) ∧
      (∀ q, (awaiting key target n seen).pending.insert key q = (lone key q).pending) ∧
      (awaiting key target n seen).bytes = (Pending.collected target n created (seen.map Prod.snd)).bytes ∧
      created = (seen.map Prod.fst).headD now := by
  obtain rfl := hpart.key_eq
  cases seen with
  | nil =>
    refine ⟨now, ?_, ?_, fun q => rfl, ?_, rfl⟩
    · have hevict : empty.evict part = some empty :=
        evict_of_small (zero_le) (by decide) part
      simp only [awaiting, receive, empty_expire, if_neg hone, accept, hevict]
      rfl
    · have hnew : empty.entry part now = (.new part now, [part.key]) := rfl
      rw [awaiting, hnew, Pending.new, Pending.collected]
      simp only [map_nil, firstAt_nil, weigh_replicate_none, countP_isSome, hpart.target_eq, hpart.count_eq]
    · simp only [awaiting, empty, Pending.collected, map_nil, firstAt_nil, weigh_replicate_none]
  | cons call later =>
    obtain ⟨t, f⟩ := call
    refine ⟨t, ?_, ?_, fun q => AList.insert_insert _, rfl, rfl⟩
    · have hweigh := weigh_firstAt_le (n := n) (fun f hf => (hseen f hf).payload_eq) List.length
      have hevict := evict_of_small (s := lone part.key (.collected target n t (f :: later.map Prod.snd)))
        (le_trans hweigh htotal) (by simp [lone, maxPending]) part
      have hconflict : (lone part.key (.collected target n t (f :: later.map Prod.snd))).conflicts part = false := by
        rw [conflicts, lone_lookup]
        simp [Pending.collected, hpart.target_eq, hpart.count_eq]
      have hfresh : now - (Pending.collected target n t (f :: later.map Prod.snd)).created < fragmentRetention :=
        htime (t, f) mem_cons_self
      simp only [awaiting, receive, lone_expire hfresh, if_neg hone, accept, hconflict, hevict, Bool.false_eq_true,
        if_false]
    · rw [awaiting, entry, lone_lookup]
      rfl

/-- **One more piece**: it completes the packet, or the packet goes on waiting. -/
theorem receive_awaiting (htime : ∀ call ∈ seen, now - call.1 < fragmentRetention) (hone : part.count ≠ 1)
    (hmissing : ¬ Arrived n (seen.map Prod.snd)) :
    (Arrived n (seen.map Prod.snd ++ [part]) → (awaiting key target n seen).receive now part =
      some (.ok (some (key.1, ⟨target, ((List.range n).map chunk).flatten⟩)), empty)) ∧
    (¬ Arrived n (seen.map Prod.snd ++ [part]) → (awaiting key target n seen).receive now part =
      some (.ok none, awaiting key target n (seen ++ [(now, part)]))) := by
  obtain ⟨_, hreceive, hentry, hinsert, hbytes, rfl⟩ := accept_awaiting hseen hpart htotal htime hone
  have hlt : part.index.toNat < (slotsOf n (seen.map Prod.snd)).length := by
    rw [length_firstAt]
    exact hpart.index_lt
  have hslot : (slotsOf n (seen.map Prod.snd))[part.index.toNat]? = some _ := getElem?_eq_getElem hlt
  rw [hreceive, awaiting_snoc, store, hentry]
  simp only [hpart.key_eq, hinsert, hbytes]
  generalize (slotsOf n (seen.map Prod.snd))[part.index.toNat] = slot at hslot
  have hslot' : ∀ t, (Pending.collected target n t (seen.map Prod.snd)).fragments[part.index.toNat]? = some slot :=
    fun _ => hslot
  rw [hslot']
  cases slot with
  | some =>
    have hstill : ¬ Arrived n (seen.map Prod.snd ++ [part]) := by
      have hsame : slotsOf n (seen.map Prod.snd ++ [part]) = slotsOf n (seen.map Prod.snd) := firstAt_filled hslot
      rwa [← slotsOf_filled, hsame, slotsOf_filled]
    refine ⟨fun h => absurd h hstill, fun _ => ?_⟩
    rw [Pending.collected_repeated hslot]
    rfl
  | none =>
    have hall : ∀ f ∈ seen.map Prod.snd ++ [part], f.payload = chunk f.index.toNat := by
      intro f hf
      rcases mem_append.1 hf with hf | hf
      · exact (hseen f hf).payload_eq
      · rw [mem_singleton.1 hf]
        exact hpart.payload_eq
    have hlone : ∀ t, (⟨(lone key ((Pending.collected target n t (seen.map Prod.snd)).fill part)).pending, [key],
        (Pending.collected target n t (seen.map Prod.snd)).bytes + part.payload.length⟩ : Reassembly) =
        lone key ((Pending.collected target n t (seen.map Prod.snd)).fill part) := fun _ => rfl
    simp only [hlone]
    simp only [Pending.collected_fill hslot]
    exact settle_collected hall htotal

end

/-! ## All calls -/

structure Pieces (key : Key) (target : Target) (n : Nat) (chunk : Nat → Bytes) (calls : List (Nat × Fragment)) : Prop where
  piece : ∀ f ∈ calls.map Prod.snd, f.PieceOf key target n chunk
  time : calls.Pairwise fun a b => b.1 - a.1 < fragmentRetention

theorem Pieces.left {calls later : List (Nat × Fragment)} (h : Pieces key target n chunk (calls ++ later)) :
    Pieces key target n chunk calls :=
  ⟨fun f hf => h.piece f (by rw [map_append]; exact mem_append_left _ hf), (pairwise_append.1 h.time).1⟩

variable {seen : List (Nat × Fragment)}

theorem Pieces.last (h : Pieces key target n chunk (seen ++ [(now, part)])) :
    part.PieceOf key target n chunk ∧ ∀ call ∈ seen, now - call.1 < fragmentRetention := by
  refine ⟨h.piece part (by simp), fun call hcall => ?_⟩
  exact (pairwise_append.1 h.time).2.2 call hcall (now, part) (mem_singleton.2 rfl)

theorem receiveAll_awaiting (htotal : ((List.range n).map fun i => (chunk i).length).sum ≤ maxPayload) (hn : 1 < n)
    (h : Pieces key target n chunk seen) (hmissing : ¬ Arrived n (seen.map Prod.snd)) :
    empty.receiveAll seen = some (List.replicate seen.length (.ok none), awaiting key target n seen) := by
  induction seen using List.reverseRecOn with
  | nil => rfl
  | append_singleton seen call ih =>
    obtain ⟨_, part⟩ := call
    obtain ⟨hpart, htime⟩ := h.last
    rw [map_append] at hmissing
    have hbefore : ¬ Arrived n (seen.map Prod.snd) := fun h => hmissing h.snoc
    have hone : part.count ≠ 1 := fun he => by
      have := hpart.count_eq
      rw [he] at this
      exact absurd this (Nat.ne_of_lt hn)
    have hstep := (receive_awaiting h.left.piece hpart htotal htime hone hbefore).2 hmissing
    rw [receiveAll_snoc (ih h.left hbefore) hstep, length_append, length_singleton, replicate_succ']

/-- **The pieces of one packet in any order**: up to the call after which every index occurred nothing is handed out;
that call hands out the packet and leaves nothing held. -/
theorem receive_pieces (htotal : ((List.range n).map fun i => (chunk i).length).sum ≤ maxPayload) (hn : 0 < n)
    (h : Pieces key target n chunk (seen ++ [(now, part)])) (hmissing : ¬ Arrived n (seen.map Prod.snd)) :
    ∃ s, empty.receiveAll seen = some (List.replicate seen.length (.ok none), s) ∧
      (¬ Arrived n (seen.map Prod.snd ++ [part]) → ∃ s', s.receive now part = some (.ok none, s')) ∧
      (Arrived n (seen.map Prod.snd ++ [part]) →
        s.receive now part = some (.ok (some (key.1, ⟨target, ((List.range n).map chunk).flatten⟩)), empty)) := by
  obtain ⟨hpart, htime⟩ := h.last
  by_cases hone : n = 1
  · -- a packet of one fragment never waits
    subst hone
    have hindex : ∀ f ∈ (seen ++ [(now, part)]).map Prod.snd, f.index.toNat = 0 := fun f hf =>
      Nat.lt_one_iff.1 (h.piece f hf).index_lt
    have hseen : seen = [] := by
      cases seen with
      | nil => rfl
      | cons call =>
        refine absurd (fun i hi => ⟨call.2, by simp, ?_⟩) hmissing
        exact (hindex call.2 (by simp)).trans (Nat.lt_one_iff.1 hi).symm
    subst hseen
    have hcount : part.count = 1 := UInt8.toNat_inj.1 hpart.count_eq
    have harrived : Arrived 1 ([] ++ [part]) := fun i hi =>
      ⟨part, by simp, (hindex part (by simp)).trans (Nat.lt_one_iff.1 hi).symm⟩
    refine ⟨empty, rfl, fun hno => absurd harrived hno, fun _ => ?_⟩
    rw [receive, empty_expire]
    simp only [hcount, if_true]
    simp [hpart.payload_eq, hpart.target_eq, hindex part (by simp), ← hpart.key_eq, Fragment.key, range_succ]
  · have hcount : part.count ≠ 1 := fun he => by
      have := hpart.count_eq
      rw [he] at this
      exact hone this.symm
    obtain ⟨hdone, hwait⟩ := receive_awaiting h.left.piece hpart htotal htime hcount hmissing
    exact ⟨_, receiveAll_awaiting htotal (by omega) h.left hmissing, fun hno => ⟨_, hwait hno⟩, hdone⟩

end Reassembly

end Kotoconn.Hysteria2
