import Kotoconn.Tun.Fragments.Invariant

/-! # No frame is duplicated, and none disappears -/

namespace Kotoconn.Tun

open Lib List Function

/-! ## Frames in the routes -/

abbrev Frames := Multiset (Binding × Frame)

def Shard.frames (s : Shard) : Frames := Table.total (fun x : Entry => (x.frames : Frames)) s.entries

def Routes.frames (r : Routes) : Frames := ∑ i ∈ Finset.range r.count, (r.shards i).frames

def Routed.delivered (out : Routed) : List (Binding × Frame) := out.result.toList.flatMap Delivery.frames

theorem coe_flatMap_eq_sum {α β : Type} (g : α → List β) (xs : List α) :
    ((xs.flatMap g : List β) : Multiset β) = (xs.map fun x => (g x : Multiset β)).sum := by
  induction xs with
  | nil => rfl
  | cons _ _ ih => rw [flatMap_cons, ← Multiset.coe_add, ih, map_cons, sum_cons]

theorem Shard.overdue_frames (s : Shard) (now : Nat) :
    ((s.overdue now).map fun x => (x.frames : Frames)).sum = ((s.overdue now).flatMap Entry.frames : Frames) :=
  (coe_flatMap_eq_sum _ _).symm

namespace Routes
variable {r r' : Routes} {l l' : Limits} {i now : Nat} {key : FragmentKey} {x y : Entry}

variable (hi : i < r.count)
include hi

theorem expire_frames (now : Nat) :
    r.frames = (r.put i ((r.shards i).expire now) ((r.shards i).overdue now)).frames +
      (((r.shards i).overdue now).flatMap Entry.frames : Frames) := by
  rw [← Shard.overdue_frames]
  exact total_expire _ hi now

theorem erase_frames (hx : (r.shards i).entries.lookup key = some x) :
    r.frames = (r.erase i key x).frames + (x.frames : Frames) := total_erase _ hi hx

theorem set_frames (hx : (r.shards i).entries.lookup key = some x) {new out : Frames}
    (h : x.frames + new = y.frames + out) : r.frames + new = (r.set i key y).frames + out :=
  total_set (fun x : Entry => (x.frames : Frames)) hi hx h

theorem insertNew_frames (hvacant : (r.shards i).entries.lookup key = none) :
    (r.insertNew i key now).frames = r.frames := total_insertNew _ hi hvacant now rfl

variable {firstOwner : Option Nat} {frame : Frame} {out : Routed}

theorem Places.frames (hx : (r.shards i).entries.lookup key = some x)
    (h : Places r i key firstOwner frame x out r') :
    r.frames + (out.taken frame : Frames) = r'.frames + (out.delivered : Frames) + (out.lost frame : Frames) := by
  obtain ⟨b, owner, pending⟩ := x
  cases h with
  | @delivery w =>
    have h0 : (Entry.frames ⟨b, owner, pending⟩ : Frames) + ([(b, frame)] : List _) =
        (Entry.frames ⟨b, some w, none⟩ : Frames) + (Delivery.frames ⟨w, b, frame, pending⟩ : Frames) := by
      cases pending with
      | none => simp [Entry.frames, Delivery.frames]
      | some => simp only [Entry.frames, Delivery.frames, Multiset.coe_add, nil_append]
    simpa [Routed.taken, Routed.delivered, Routed.result, Routed.lost] using set_frames hi hx h0
  | @retained p _ hp =>
    have h0 : (Entry.frames ⟨b, owner, pending⟩ : Frames) + ([(b, frame)] : List _) =
        (Entry.frames ⟨b, none, some p⟩ : Frames) + 0 := by
      cases pending with
      | none => simp [Entry.frames, Entry.batch, hp]
      | some => simp only [Entry.frames, Entry.batch, hp, Multiset.coe_add, add_zero, map_append, map_cons,
          map_nil]
    simpa [Routed.taken, Routed.delivered, Routed.result, Routed.lost] using set_frames hi hx h0
  | @overflow p _ hp =>
    have h0 : Entry.frames ⟨b, owner, pending⟩ = Entry.frames ⟨b, none, some p⟩ := by
      cases pending <;> simp [Entry.frames, Entry.batch, hp]
    have := erase_frames hi hx
    rw [h0] at this
    simp only [Routed.taken, Routed.delivered, Routed.result, Routed.lost, Option.toList_none, flatMap_nil,
      Multiset.coe_nil, add_zero, ← Multiset.coe_add]
    rw [this, add_assoc]

omit hi

/-- **What `route` takes in comes out again**, or is lost with an entry. -/
theorem route_frames {e : RoutesEnv} (h : r.route e l i key firstOwner frame now = some (out, r', l')) :
    r.frames + (out.taken frame : Frames) = r'.frames + (out.delivered : Frames) +
      ((((r.shards i).overdue now).flatMap Entry.frames ++ out.lost frame : List _) : Frames) := by
  obtain ⟨hi, h⟩ := route_cases h
  have hput := expire_frames hi now
  rw [hput, ← Multiset.coe_add]
  generalize ((((r.shards i).overdue now).flatMap Entry.frames : List _) : Frames) = gone
  have hi0 : i < (r.put i ((r.shards i).expire now) ((r.shards i).overdue now)).count := hi
  generalize r.put i ((r.shards i).expire now) ((r.shards i).overdue now) = r0 at h hi0
  have hplaces : ∀ {r1 : Routes} {x : Entry}, r1.frames = r0.frames → i < r1.count →
      (r1.shards i).entries.lookup key = some x → Places r1 i key firstOwner frame x out r' →
      r0.frames + gone + (out.taken frame : Frames) = r'.frames + (out.delivered : Frames) +
        (gone + (out.lost frame : Frames)) := fun hframes hi1 hx hp => by
    rw [← hframes, add_right_comm, hp.frames hi1 hx]
    abel
  cases h with
  | unadmitted => simp [Routed.taken, Routed.delivered, Routed.result, Routed.lost]
  | found hx hp => exact hplaces rfl hi0 hx hp
  | inserted hvacant hp =>
    exact hplaces (insertNew_frames hi0 hvacant) hi0 (insertNew_lookup.2 (.inl ⟨rfl, rfl, rfl⟩)) hp

end Routes

namespace Pipeline

/-! ## Frames in the pipeline -/

def Forwarded.frames : Forwarded → List (Binding × Frame)
  | fragments d => d.frames
  | frame _ => []

def Task.frames : Task → List (Binding × Frame)
  | idle => []
  | forwarding d => d.frames
  | fragments d => d.frames
  | finishing _ rest => rest.elim [] Delivery.frames

variable {A : Type} {e : PipelineEnv A} {s s' : State A} {ev : Event A} {w : Nat}

def Worker.frames (k : Worker A) : Frames := (k.inbox.flatMap Forwarded.frames : Frames) + (k.task.frames : Frames)

def flight (e : PipelineEnv A) (r : Routes) (workers : Nat → Worker A) : Frames :=
  r.frames + ∑ w ∈ Finset.range e.workers, (workers w).frames

def State.inFlight (e : PipelineEnv A) (s : State A) : Frames := flight e s.routes s.workers

def Conserved (e : PipelineEnv A) (s : State A) : Prop :=
  (s.routed : Frames) = s.inFlight e + (s.decoded : Frames) + (s.lost : Frames)

structure Moves (e : PipelineEnv A) (s : State A) (ev : Event A) (s' : State A)
    (new used gone : List (Binding × Frame)) : Prop where
  flight : s.inFlight e + (new : Frames) = s'.inFlight e + ((used ++ gone : List _) : Frames)
  routed : s'.routed = s.routed ++ new
  decoded : s'.decoded = s.decoded ++ used
  lost : s'.lost = s.lost ++ gone
  reads : s.reads ≤ s'.reads
  fresh : new = [] ∨ ∃ x, new = [x] ∧ x.2.serial = s.reads ∧ s.reads < s'.reads
  cause : ∀ x ∈ gone, (∃ d, ev = .dropped d ∧ x ∈ d.frames) ∨ Routes.Removed s.routes s'.routes x.1

theorem Moves.conserved {new used gone : List (Binding × Frame)} (h : Conserved e s)
    (hm : Moves e s ev s' new used gone) : Conserved e s' := by
  have hflight := hm.flight
  unfold Conserved at h ⊢
  rw [← Multiset.coe_add] at hflight
  rw [hm.routed, hm.decoded, hm.lost, ← Multiset.coe_add, ← Multiset.coe_add, ← Multiset.coe_add, h]
  calc s.inFlight e + (s.decoded : Frames) + (s.lost : Frames) + (new : Frames)
      = s.inFlight e + (new : Frames) + (s.decoded : Frames) + (s.lost : Frames) := by abel
    _ = s'.inFlight e + ((used : Frames) + (gone : Frames)) + (s.decoded : Frames) + (s.lost : Frames) := by
        rw [hflight]
    _ = _ := by abel

theorem Moves.within (hflight : s.inFlight e = s'.inFlight e) (hrouted : s'.routed = s.routed)
    (hdecoded : s'.decoded = s.decoded) (hlost : s'.lost = s.lost) (hreads : s.reads ≤ s'.reads) :
    Moves e s ev s' [] [] [] where
  flight := by rw [hflight]; rfl
  routed := by rw [hrouted, append_nil]
  decoded := by rw [hdecoded, append_nil]
  lost := by rw [hlost, append_nil]
  reads := hreads
  fresh := .inl rfl
  cause x hx := nomatch hx

theorem Moves.losing {gone : List (Binding × Frame)} (hflight : s.inFlight e = s'.inFlight e + (gone : Frames))
    (hrouted : s'.routed = s.routed) (hdecoded : s'.decoded = s.decoded) (hlost : s'.lost = s.lost ++ gone)
    (hreads : s'.reads = s.reads)
    (hcause : ∀ x ∈ gone, (∃ d, ev = .dropped d ∧ x ∈ d.frames) ∨ Routes.Removed s.routes s'.routes x.1) :
    Moves e s ev s' [] [] gone where
  flight := by rw [Multiset.coe_nil, add_zero, nil_append, hflight]
  routed := by rw [hrouted, append_nil]
  decoded := by rw [hdecoded, append_nil]
  lost := hlost
  reads := hreads.ge
  fresh := .inl rfl
  cause := hcause

/-! ## Frames in flight -/

section
variable {r r' : Routes} {workers : Nat → Worker A} {k : Worker A} {new moved out : Frames}

theorem flight_step (hw : w < e.workers) (hroutes : r.frames + new = r'.frames + moved)
    (hworker : (workers w).frames + moved = k.frames + out) :
    flight e r workers + new = flight e r' (update workers w k) + out := by
  have := sum_update_eq Worker.frames workers hw hworker
  unfold flight
  rw [add_right_comm, hroutes, add_assoc, add_comm moved, this, add_assoc]

theorem flight_worker (hw : w < e.workers) (h : (workers w).frames = k.frames + out) :
    flight e r workers = flight e r (update workers w k) + out := by
  have := flight_step hw (rfl : r.frames + 0 = r.frames + 0) ((add_zero _).trans h)
  rwa [add_zero] at this

theorem flight_keep (h : (workers w).frames = k.frames) :
    flight e r workers = flight e r (update workers w k) := by
  unfold flight
  congr 1
  refine Finset.sum_congr rfl fun v _ => ?_
  rw [update_apply]
  split_ifs with hv
  · rw [hv, h]
  · rfl

theorem flight_routes (h : r.frames = r'.frames + out) : flight e r workers = flight e r' workers + out := by
  unfold flight
  rw [h, add_right_comm]

end

theorem Worker.frames_setTask {k : Worker A} {task task' : Task} {out : Frames} (h : k.task = task)
    (hout : (task.frames : Frames) = task'.frames + out) : k.frames = { k with task := task' : Worker A }.frames + out := by
  unfold Worker.frames
  rw [h, hout, add_assoc]

theorem Worker.frames_send (k : Worker A) (m : Forwarded) :
    { k with inbox := k.inbox ++ [m] : Worker A }.frames = k.frames + (m.frames : Frames) := by
  simp only [Worker.frames, flatMap_append, flatMap_cons, flatMap_nil, append_nil,
    ← Multiset.coe_add]
  exact add_right_comm _ _ _

theorem Task.resume_frames (rest : Option Delivery) : (Task.resume rest).frames = rest.elim [] Delivery.frames := by
  cases rest <;> rfl

theorem accept_frames (w : Nat) (out : Routed) : (State.accept w out).frames = out.delivered := by
  cases out with
  | delivery =>
    unfold State.accept
    simp only
    split_ifs <;> simp [Task.frames, Routed.delivered, Routed.result]
  | _ => rfl

theorem Worker.frames_accept {k : Worker A} (h : k.task = .idle) (w : Nat) (out : Routed) :
    k.frames + (out.delivered : Frames) = { k with task := State.accept w out : Worker A }.frames := by
  simp only [Worker.frames, h, accept_frames]
  exact congrArg (· + _) (add_zero _)

theorem next_frames {d : Delivery} {frame : Frame} {rest : Option Delivery} (h : State.next d = some (frame, rest)) :
    d.frames = (d.binding, frame) :: rest.elim [] Delivery.frames := by
  unfold State.next at h
  split at h
  · rename_i hp
    cases h
    simp [Delivery.frames, hp]
  · rename_i p hp
    split at h
    · cases h
    · rename_i frame frames hframes
      cases h
      simp [Delivery.frames, hp, hframes]

theorem mem_entry_frames {x : Entry} {y : Binding × Frame} (h : y ∈ x.frames) : y.1 = x.binding := by
  unfold Entry.frames at h
  split at h
  · obtain ⟨_, -, rfl⟩ := List.mem_map.1 h
    rfl
  · cases h

/-! ## The steps -/

theorem moves_route (h : Inv e s) (hw : w < e.workers) (htask : (s.workers w).task = .idle) {frame : Frame} {p : Parsed}
    {key : FragmentKey} {now : Nat} {s0 : State A} (hs0 : s0 = { s.tick now with reads := s.reads + 1 })
    (hserial : frame.serial = s.reads) (hs : s0.route e w frame p key now = some (ev, s')) :
    ∃ new used gone, Moves e s ev s' new used gone := by
  subst hs0
  obtain ⟨out, _, _, hroute, -, rfl⟩ := route_eq hs
  have hremoved := Routes.route_removed h.routes rfl h.firstOwner_lt hroute
  refine ⟨out.taken frame, [], _, ?_, rfl, (append_nil _).symm, append_assoc _ _ _, Nat.le_succ _, ?_, ?_⟩
  · refine flight_step hw ((Routes.route_frames hroute).trans (add_assoc _ _ _)) ?_
    exact (add_assoc _ _ _).symm.trans (congrArg (· + _) (Worker.frames_accept htask w out))
  · cases out with
    | unadmitted => exact .inl rfl
    | _ => exact .inr ⟨_, rfl, hserial, lt_add_one _⟩
  · intro x hx
    refine .inr ?_
    rcases mem_append.1 hx with hx | hx
    · obtain ⟨y, hy, hx⟩ := mem_flatMap.1 hx
      exact mem_entry_frames hx ▸ hremoved.1 y hy
    · cases out with
      | overflow y =>
        have hbinding : x.1 = y.binding := by
          rcases mem_append.1 hx with hx | hx
          · exact mem_entry_frames hx
          · exact congrArg Prod.fst (mem_singleton.1 hx)
        exact hbinding ▸ hremoved.2 y rfl
      | _ => cases hx

theorem moves_frame (h : Inv e s) (hw : w < e.workers) (htask : (s.workers w).task = .idle) {received : Received}
    {accepted : Bool} {now : Nat} (hs : s.frame e w received accepted now = some (ev, s')) :
    ∃ new used gone, Moves e s ev s' new used gone := by
  obtain ⟨s0, hs0, hcases⟩ := frame_cases hs
  have hread : Moves e s ev s0 [] [] [] := hs0 ▸ .within rfl rfl rfl rfl (Nat.le_succ _)
  rcases hcases with ⟨-, rfl⟩ | ⟨p, key, -, -, hs⟩ | ⟨p, key, -, -, -, ⟨-, rfl, -⟩ | ⟨-, rfl⟩⟩
  · exact ⟨_, _, _, hread⟩
  · exact moves_route h hw htask hs0 rfl hs
  · exact ⟨_, _, _, hread⟩
  · subst hs0
    refine ⟨_, _, _, .within (flight_keep ?_) rfl rfl rfl (Nat.le_succ _)⟩
    exact ((Worker.frames_send _ _).trans (add_zero _)).symm

theorem moves_forward (h : Inv e s) (hw : w < e.workers) {accepted : Bool} (hs : s.forward w accepted = some (ev, s')) :
    ∃ new used gone, Moves e s ev s' new used gone := by
  obtain ⟨d, htask, hcases⟩ := forward_cases hs
  have hleft : (s.workers w).frames = { s.workers w with task := .idle : Worker A }.frames + (d.frames : Frames) :=
    Worker.frames_setTask htask (zero_add _).symm
  rcases hcases with ⟨-, rfl⟩ | ⟨l, rfl, rfl⟩
  · have howner := (h.logged ((h.worker w).forwarding htask)).2.1
    refine ⟨_, _, _, .within ?_ rfl rfl rfl le_rfl⟩
    have hidle : s.inFlight e = (s.setTask w .idle).inFlight e + (d.frames : Frames) := flight_worker hw hleft
    have hsend : (s.setTask w .idle).inFlight e + (d.frames : Frames) =
        ((s.setTask w .idle).send d.owner (.fragments d)).inFlight e + 0 :=
      flight_step howner (rfl : s.routes.frames + (d.frames : Frames) = s.routes.frames + (d.frames : Frames))
        ((Worker.frames_send _ (.fragments d)).symm.trans (add_zero _).symm)
    rw [hidle, hsend, add_zero]
  · exact ⟨_, _, _, .losing (flight_worker hw hleft) rfl rfl rfl rfl fun x hx => .inl ⟨d, rfl, hx⟩⟩

theorem moves_take (h : Inv e s) (htask : (s.workers w).task = .idle) {now : Nat}
    (hs : s.take e w now = some (ev, s')) : ∃ new used gone, Moves e s ev s' new used gone := by
  rcases take_cases hs with ⟨d, inbox, hinbox, -, -, rfl⟩ | ⟨frame, inbox, hinbox, hs⟩
  · refine ⟨_, _, _, .within (flight_keep ?_) rfl rfl rfl le_rfl⟩
    simp only [Worker.frames, htask, hinbox, flatMap_cons, ← Multiset.coe_add]
    exact (add_zero _).trans (add_comm _ _)
  · obtain ⟨_, hparse, hp⟩ := (h.worker w).raw (hinbox ▸ mem_cons_self)
    rw [decode_whole hparse hp, setWorker_self] at hs
    cases hs
    refine ⟨_, _, _, .within (flight_keep ?_) rfl rfl rfl le_rfl⟩
    simp [Worker.frames, hinbox, Forwarded.frames]

theorem moves_releasePending (hs : s.releasePending w = some s') : ∃ new used gone, Moves e s ev s' new used gone := by
  obtain ⟨_, _, _, htask, hpending, hempty, rfl⟩ := releasePending_cases hs
  refine ⟨_, _, _, .within (flight_keep ?_) rfl rfl rfl le_rfl⟩
  simp [Worker.frames, htask, Task.frames, Delivery.frames, hpending, hempty]

theorem moves_fragment (hw : w < e.workers) {now : Nat} (hs : s.fragment e w now = some (ev, s')) :
    ∃ new used gone, Moves e s ev s' new used gone := by
  obtain ⟨d, frame, rest, _, decoder, _, htask, hnext, -, rfl, rfl⟩ := fragment_cases hs
  refine ⟨[], [(d.binding, frame)], [], ?_, (append_nil _).symm, rfl, (append_nil _).symm, le_rfl,
    .inl rfl, fun x hx => nomatch hx⟩
  have hrest : (if decoder.retains d.binding then Task.resume rest else .finishing d.binding rest).frames =
      rest.elim [] Delivery.frames := by
    split_ifs
    · exact Task.resume_frames rest
    · rfl
  have hfirst : (Task.fragments d).frames = [(d.binding, frame)] ++ rest.elim [] Delivery.frames := next_frames hnext
  refine (add_zero _).trans (flight_worker hw ?_)
  simp only [Worker.frames, htask, hrest, hfirst, ← Multiset.coe_add, append_nil]
  abel

theorem moves_finish (h : Inv e s) (hs : s.finish w = some (ev, s')) : ∃ new used gone, Moves e s ev s' new used gone := by
  obtain ⟨_, rest, r, _, htask, hfinish, -, rfl⟩ := finish_eq hs
  obtain ⟨hknown, -, howned⟩ := h.logged ((h.worker w).finishing htask).1
  refine ⟨_, _, _, .within ?_ rfl rfl rfl le_rfl⟩
  have hworker : (s.workers w).frames = { s.workers w with task := Task.resume rest : Worker A }.frames := by
    simp only [Worker.frames, htask, Task.resume_frames]
    rfl
  have hroutes : s.routes.frames = r.frames := by
    rcases Routes.finish_cases hfinish with ⟨rfl, -⟩ | ⟨x, hx, hid, rfl⟩
    · rfl
    · obtain ⟨_, hy, -, howner⟩ := howned (hid ▸ (h.routes.entry hx).2.1)
      obtain rfl := Option.some.inj (hx.symm.trans hy)
      have hnone : x.frames = [] := by
        simp [Entry.frames, h.routes.alone hx (by rw [howner]; rfl)]
      rw [Routes.erase_frames (h.routes.shard hknown).2 hx, hnone]
      exact add_zero _
  calc s.inFlight e = flight e r s.workers := by rw [State.inFlight, flight, flight, hroutes]
    _ = _ := flight_keep hworker

theorem moves_abandon (hw : w < e.workers) (hs : s.abandon w = some (ev, s')) :
    ∃ new used gone, Moves e s ev s' new used gone := by
  obtain ⟨d, _, htask, rfl, rfl⟩ := abandon_cases hs
  refine ⟨_, _, _, .losing (flight_worker hw ?_) rfl rfl rfl rfl fun x hx => .inl ⟨d, rfl, hx⟩⟩
  exact Worker.frames_setTask htask (zero_add _).symm

theorem moves_expireRoutes (h : Inv e s) {shard now : Nat} (hs : s.expireRoutes shard now = some s') :
    ∃ new used gone, Moves e s ev s' new used gone := by
  obtain ⟨_, _, hexpire, rfl⟩ := expireRoutes_eq hs
  obtain ⟨hshard, rfl⟩ := Routes.expire_eq hexpire
  refine ⟨_, _, _, .losing (flight_routes (Routes.expire_frames hshard now)) rfl rfl rfl rfl
    fun x hx => .inr ?_⟩
  obtain ⟨_, hy, hx⟩ := mem_flatMap.1 hx
  exact mem_entry_frames hx ▸ Routes.removed_put h.routes (Routes.drops_expire _ _) hy

theorem moves_discardPending (h : Inv e s) {shard : Nat} {key : FragmentKey}
    (hs : s.discardPending shard key = some s') : ∃ new used gone, Moves e s ev s' new used gone := by
  obtain ⟨_, _, hremove, rfl⟩ := discardPending_eq hs
  rcases Routes.remove_cases hremove with ⟨rfl, hnone⟩ | ⟨x, hx, rfl⟩
  · rw [hnone]
    exact ⟨_, _, _, .within rfl rfl rfl (append_nil _) le_rfl⟩
  · rw [hx]
    obtain ⟨hknown, -, -, rfl⟩ := h.routes.entry hx
    refine ⟨_, _, _, .losing (flight_routes (Routes.erase_frames (h.routes.shard hknown).2 hx)) rfl rfl rfl rfl
      fun y hy => .inr ?_⟩
    exact mem_entry_frames hy ▸ Routes.removed_put h.routes (Routes.drops_erase h.routes hx) (mem_singleton_self x)

/-- **What a step takes in, decodes and loses.** -/
theorem Step.moves (h : Inv e s) (hstep : Step e s ev s') : ∃ new used gone, Moves e s ev s' new used gone := by
  cases hstep with
  | frame hw htask hs => exact moves_frame h hw htask hs
  | forward hw hs => exact moves_forward h hw hs
  | take _ htask hs => exact moves_take h htask hs
  | releasePending _ hs => exact moves_releasePending hs
  | fragment hw hs => exact moves_fragment hw hs
  | finish _ hs => exact moves_finish h hs
  | abandon hw hs => exact moves_abandon hw hs
  | @dropQueued _ _ _ d _ hw hinbox =>
    refine ⟨_, _, _, .losing (flight_worker hw ?_) rfl rfl rfl rfl fun x hx => .inl ⟨d, rfl, hx⟩⟩
    simp only [Worker.frames, hinbox, flatMap_append, flatMap_cons, ← Multiset.coe_add, Forwarded.frames]
    abel
  | expireRoutes hs => exact moves_expireRoutes h hs
  | expireDecoder _ hs =>
    obtain ⟨_, l, -, rfl⟩ := expireDecoder_eq hs
    exact ⟨_, _, _, .within (flight_keep rfl) rfl rfl rfl le_rfl⟩
  | discardPending _ hs => exact moves_discardPending h hs
  | discardOldest _ htask _ hs =>
    obtain ⟨a, _, _, -, rfl, rfl⟩ := discardOldest_cases hs
    refine ⟨_, _, _, .within (flight_keep ?_) rfl rfl rfl le_rfl⟩
    cases hb : a.binding <;> simp [Worker.frames, htask, Task.frames]
  | headroom => exact ⟨_, _, _, .within rfl rfl rfl rfl le_rfl⟩
  | releaseBinding => exact ⟨_, _, _, .within rfl rfl rfl rfl le_rfl⟩

/-! ## The ledger of a run -/

structure Ledger (e : PipelineEnv A) (s : State A) : Prop where
  conserved : Conserved e s
  serials : (s.routed.map fun x => x.2.serial).Nodup
  read : ∀ x ∈ s.routed, x.2.serial < s.reads

theorem Moves.ledger {new used gone : List (Binding × Frame)} (h : Ledger e s) (hm : Moves e s ev s' new used gone) :
    Ledger e s' := by
  refine ⟨hm.conserved h.conserved, ?_, ?_⟩ <;> rw [hm.routed]
  · rcases hm.fresh with rfl | ⟨x, rfl, hx, -⟩
    · rw [append_nil]
      exact h.serials
    · -- the serial of the new frame is above all others
      rw [map_append, nodup_append]
      refine ⟨h.serials, nodup_singleton _, fun n hn m hm => ?_⟩
      obtain ⟨y, hy, rfl⟩ := List.mem_map.1 hn
      obtain rfl := mem_singleton.1 hm
      exact Nat.ne_of_lt (Nat.lt_of_lt_of_eq (h.read y hy) hx.symm)
  · intro y hy
    rcases mem_append.1 hy with hy | hy
    · exact lt_of_lt_of_le (h.read y hy) hm.reads
    · rcases hm.fresh with rfl | ⟨x, rfl, hx, hlt⟩
      · cases hy
      · obtain rfl := mem_singleton.1 hy
        exact hx ▸ hlt

theorem Ledger.new (e : PipelineEnv A) (now : Nat) : Ledger e (State.new e now) where
  conserved := by simp [Conserved, State.inFlight, flight, State.new, Routes.frames, Routes.new, Shard.frames, Shard.new,
    Worker.frames, Task.frames, Table.total, Table.values]
  serials := nodup_nil
  read x hx := nomatch hx

theorem Run.ledger (hi : Inv e s) (h : Ledger e s) {evs : List (Event A)} (hrun : Run e s evs s') : Ledger e s' := by
  induction hrun with
  | refl => exact h
  | step hrun hstep ih =>
    obtain ⟨_, _, _, hm⟩ := hstep.moves (hrun.inv hi)
    exact hm.ledger ih

/-- **Each routed frame stays in one place.** -/
theorem Reachable.ledger (h : Reachable e s) : Ledger e s := by
  obtain ⟨now, _, hrun⟩ := h
  exact hrun.ledger (.new e now) (.new e now)

theorem Ledger.nodup (h : Ledger e s) :
    ((s.inFlight e + (s.decoded : Frames) + (s.lost : Frames)).map fun x => x.2.serial).Nodup := by
  have hconserved : (s.routed : Frames) = s.inFlight e + (s.decoded : Frames) + (s.lost : Frames) := h.conserved
  rw [← hconserved]
  exact h.serials

theorem Ledger.routed_of_decoded (h : Ledger e s) {x : Binding × Frame} (hx : x ∈ s.decoded) : x ∈ s.routed := by
  have hconserved : (s.routed : Frames) = s.inFlight e + (s.decoded : Frames) + (s.lost : Frames) := h.conserved
  rw [← Multiset.mem_coe, hconserved]
  exact Multiset.mem_add.2 (.inl (Multiset.mem_add.2 (.inr hx)))

end Pipeline

end Kotoconn.Tun
