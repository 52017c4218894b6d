import Kotoconn.Tun.Fragments.Bound
import Kotoconn.Tun.Fragments.PipelineSteps

/-! # The invariant of the pipeline -/

namespace Kotoconn.Tun.Pipeline

open Lib List Option

variable {A : Type} {e : PipelineEnv A} {s s' : State A} {ev : Event A} {w v : Nat}

def State.Logged (s : State A) (b : Binding) (w : Nat) : Prop := ∃ d ∈ s.deliveries, d.binding = b ∧ d.owner = w

def Task.deliveries : Task → List Delivery
  | fragments d => [d]
  | finishing _ (some d) => [d]
  | _ => []

def State.Copies (e : PipelineEnv A) (s : State A) (b : Binding) (c : Copied) : Prop :=
  ∃ frame p fragment now, (b, frame) ∈ s.decoded ∧ (parse e.wire frame.received.bytes).result = .ok p ∧
    p.fragment = some fragment ∧ c = Decoder.bound b p fragment now

/-- The assembly `a` of the worker `w` belongs to the binding `b`. -/
structure Bound (e : PipelineEnv A) (s : State A) (w : Nat) (key : FragmentKey) (a : Assembly A) (b : Binding) :
    Prop where
  binding : a.binding = some b
  key : b.key = key
  expires : a.expires = b.expires
  logged : s.Logged b w
  copied : ∀ c ∈ a.copied, s.Copies e b c
  active : s.clock < b.expires → s.routes.active b.id = true

structure WorkerInv (e : PipelineEnv A) (s : State A) (w : Nat) (k : Worker A) : Prop where
  inbox : ∀ {d}, Forwarded.fragments d ∈ k.inbox → s.Logged d.binding w
  raw : ∀ {frame}, Forwarded.frame frame ∈ k.inbox →
    ∃ p, (parse e.wire frame.received.bytes).result = .ok p ∧ p.fragment = none
  forwarding : ∀ {d}, k.task = .forwarding d → s.Logged d.binding d.owner
  hand : ∀ {d}, d ∈ k.task.deliveries → s.Logged d.binding w
  finishing : ∀ {b rest}, k.task = .finishing b rest → s.Logged b w ∧
    ∀ key a, k.decoder.fragments.lookup key = some a → ¬ a.Of b
  bound : ∀ {key a}, k.decoder.fragments.lookup key = some a → ∃ b, Bound e s w key a b

structure Inv (e : PipelineEnv A) (s : State A) : Prop where
  routes : s.routes.Inv e.shardOf
  count : s.routes.count = e.workers
  logged : ∀ {b w}, s.Logged b w → s.routes.Known b ∧ w < e.workers ∧
    (s.routes.active b.id = true → s.routes.Owned b (some w))
  agree : ∀ {b w v}, s.Logged b w → s.Logged b v → w = v
  worker : ∀ w, WorkerInv e s w (s.workers w)

/-! ## Steps that leave a worker as it is -/

structure Forward (s s' : State A) : Prop where
  logged : ∀ {b w}, s.Logged b w → s'.Logged b w
  decoded : ∀ {x}, x ∈ s.decoded → x ∈ s'.decoded
  clock : s.clock ≤ s'.clock

variable {key : FragmentKey} {b : Binding}

theorem Bound.mono {a : Assembly A} (h : Bound e s w key a b) (hf : Forward s s')
    (hactive : s'.clock < b.expires → s.routes.active b.id = true → s'.routes.active b.id = true) :
    Bound e s' w key a b where
  binding := h.binding
  key := h.key
  expires := h.expires
  logged := hf.logged h.logged
  copied c hc := by
    obtain ⟨frame, p, fragment, now, hmem, hrest⟩ := h.copied c hc
    exact ⟨frame, p, fragment, now, hf.decoded hmem, hrest⟩
  active hclock := hactive hclock (h.active (lt_of_le_of_lt hf.clock hclock))

variable {k : Worker A}

theorem WorkerInv.mono (h : WorkerInv e s w k) (hf : Forward s s')
    (hactive : ∀ key a b, k.decoder.fragments.lookup key = some a → Bound e s w key a b → s'.clock < b.expires →
      s.routes.active b.id = true → s'.routes.active b.id = true) : WorkerInv e s' w k where
  inbox hd := hf.logged (h.inbox hd)
  raw := h.raw
  forwarding hd := hf.logged (h.forwarding hd)
  hand hd := hf.logged (h.hand hd)
  finishing hb := ⟨hf.logged (h.finishing hb).1, (h.finishing hb).2⟩
  bound := by
    intro key a ha
    obtain ⟨b, hb⟩ := h.bound ha
    exact ⟨b, hb.mono hf (hactive key a b ha hb)⟩

/-- **The shape of every step**: the routes keep the owned entries that satisfy `p`, new deliveries name the owner of
their entry, and the workers that changed are looked at one by one. -/
theorem Inv.advance (h : Inv e s) {p : Binding → Prop} (hk : Routes.Keeps e.shardOf p s.routes s'.routes)
    (hf : Forward s s') (hnew : ∀ d ∈ s'.deliveries, d ∈ s.deliveries ∨ s'.routes.Owned d.binding (some d.owner))
    (hp : ∀ v key a b, (s.workers v).decoder.fragments.lookup key = some a → Bound e s v key a b →
      s'.clock < b.expires → p b)
    (hworkers : (∀ v, WorkerInv e s' v (s.workers v)) → ∀ v, WorkerInv e s' v (s'.workers v)) : Inv e s' := by
  have hactive : ∀ {b w}, s'.routes.Owned b w → s'.routes.Known b ∧ s'.routes.active b.id = true := by
    rintro b w ⟨x, hx, rfl, -⟩
    exact ⟨(hk.inv.entry hx).1, (hk.inv.entry hx).2.1⟩
  have hcount : s'.routes.count = e.workers := hk.evolves.count.trans h.count
  have hlogged : ∀ {b w}, s'.Logged b w → s'.routes.Known b ∧ w < e.workers ∧
      (s'.routes.active b.id = true → s'.routes.Owned b (some w)) := by
    rintro b w ⟨d, hd, rfl, rfl⟩
    rcases hnew d hd with hd | howned
    · obtain ⟨hknown, hlt, howned⟩ := h.logged ⟨d, hd, rfl, rfl⟩
      exact ⟨hk.evolves.known hknown, hlt, fun ha => hk.evolves.owned (howned (hk.evolves.active hknown ha)) ha⟩
    · have ⟨x, hx, _, howner⟩ := howned
      exact ⟨(hactive howned).1, hcount ▸ hk.inv.owner_lt hx howner, fun _ => howned⟩
  refine ⟨hk.inv, hcount, hlogged, ?_, hworkers fun v => (h.worker v).mono hf fun key a b ha hb hclock hact => ?_⟩
  · -- a new delivery agrees with the owner of the entry
    intro b w v hw hv
    obtain ⟨d, hd, rfl, rfl⟩ := hw
    obtain ⟨d', hd', heq, rfl⟩ := hv
    rcases hnew d hd with hd0 | howned
    · rcases hnew d' hd' with hd0' | howned'
      · exact h.agree ⟨d, hd0, rfl, rfl⟩ ⟨d', hd0', heq, rfl⟩
      · rw [heq] at howned'
        have := (hlogged ⟨d, hd, rfl, rfl⟩).2.2 (hactive howned').2
        exact some.inj (this.eq howned')
    · have := (hlogged ⟨d', hd', heq, rfl⟩).2.2 (hactive howned).2
      exact some.inj (howned.eq this)
  · have howned := hk.owned ((h.logged hb.logged).2.2 hact) (hp v key a b ha hb hclock)
    exact (hactive howned).2

/-! ## Steps of one worker -/

theorem Inv.local (h : Inv e s) (hroutes : s'.routes = s.routes) (hdeliveries : s'.deliveries = s.deliveries)
    (hdecoded : ∀ {x}, x ∈ s.decoded → x ∈ s'.decoded) (hclock : s.clock ≤ s'.clock)
    (hworkers : (∀ v, WorkerInv e s' v (s.workers v)) → ∀ v, WorkerInv e s' v (s'.workers v)) : Inv e s' := by
  refine h.advance (p := fun _ => True) ?_ ⟨?_, hdecoded, hclock⟩ (fun d hd => .inl (hdeliveries ▸ hd))
    (fun _ _ _ _ _ _ _ => trivial) hworkers
  · rw [hroutes]
    exact ⟨h.routes, .refl _, fun ho _ => ho⟩
  · rintro b w ⟨d, hd, hrest⟩
    exact ⟨d, hdeliveries ▸ hd, hrest⟩

theorem workers_set (hs : s'.workers = Function.update s.workers w k)
    (hk : WorkerInv e s' w (s.workers w) → WorkerInv e s' w k) (h : ∀ v, WorkerInv e s' v (s.workers v)) (v : Nat) :
    WorkerInv e s' v (s'.workers v) := by
  rw [hs, Function.update_apply]
  split_ifs with hv
  · exact hv ▸ hk (h w)
  · exact h v

theorem WorkerInv.setTask (h : WorkerInv e s w k) {task : Task}
    (hforwarding : ∀ {d}, task = .forwarding d → s.Logged d.binding d.owner)
    (hhand : ∀ {d}, d ∈ task.deliveries → s.Logged d.binding w)
    (hfinishing : ∀ {b rest}, task = .finishing b rest → s.Logged b w ∧
      ∀ key a, k.decoder.fragments.lookup key = some a → ¬ a.Of b) : WorkerInv e s w { k with task } :=
  ⟨h.inbox, h.raw, hforwarding, hhand, hfinishing, h.bound⟩

theorem WorkerInv.idle (h : WorkerInv e s w k) : WorkerInv e s w { k with task := .idle } :=
  h.setTask (fun hd => nomatch hd) (fun hd => nomatch hd) (fun hb => nomatch hb)

theorem WorkerInv.fragments (h : WorkerInv e s w k) {d : Delivery} (hd : s.Logged d.binding w) :
    WorkerInv e s w { k with task := .fragments d } :=
  h.setTask (fun h => nomatch h) (fun h => mem_singleton.1 h ▸ hd) (fun h => nomatch h)

theorem WorkerInv.resume (h : WorkerInv e s w k) {rest : Option Delivery}
    (hrest : ∀ d ∈ rest, s.Logged d.binding w) : WorkerInv e s w { k with task := .resume rest } := by
  cases rest with
  | none => exact h.idle
  | some d => exact h.fragments (hrest d rfl)

theorem WorkerInv.accept (h : WorkerInv e s w k) {out : Routed}
    (hlog : ∀ d, out = .delivery d → s.Logged d.binding d.owner) :
    WorkerInv e s w { k with task := State.accept w out } := by
  cases out with
  | delivery d =>
    have hlogged := hlog d rfl
    simp only [State.accept]
    split_ifs with howner
    · exact h.fragments (howner ▸ hlogged)
    · refine h.setTask (fun heq => ?_) (fun hd => nomatch hd) (fun hb => nomatch hb)
      cases heq
      exact hlogged
  | _ => exact h.idle

theorem WorkerInv.receive (h : WorkerInv e s w k) {d : Delivery} (hd : s.Logged d.binding w) :
    WorkerInv e s w { k with inbox := k.inbox ++ [.fragments d] } where
  inbox hmem := by
    rcases mem_append.1 hmem with hmem | hmem
    · exact h.inbox hmem
    · cases mem_singleton.1 hmem
      exact hd
  raw hmem := by
    rcases mem_append.1 hmem with hmem | hmem
    · exact h.raw hmem
    · cases mem_singleton.1 hmem
  forwarding := h.forwarding
  hand := h.hand
  finishing := h.finishing
  bound := h.bound

variable {p : Parsed}

theorem WorkerInv.receiveRaw (h : WorkerInv e s w k) {frame : Frame}
    (hparse : (parse e.wire frame.received.bytes).result = .ok p) (hp : p.fragment = none) :
    WorkerInv e s w { k with inbox := k.inbox ++ [.frame frame] } where
  inbox hmem := by
    rcases mem_append.1 hmem with hmem | hmem
    · exact h.inbox hmem
    · cases mem_singleton.1 hmem
  raw hmem := by
    rcases mem_append.1 hmem with hmem | hmem
    · exact h.raw hmem
    · cases mem_singleton.1 hmem
      exact ⟨p, hparse, hp⟩
  forwarding := h.forwarding
  hand := h.hand
  finishing := h.finishing
  bound := h.bound

theorem WorkerInv.shrink (h : WorkerInv e s w k) {inbox : List Forwarded}
    (hsub : ∀ {m}, m ∈ inbox → m ∈ k.inbox) : WorkerInv e s w { k with inbox } :=
  ⟨fun hd => h.inbox (hsub hd), fun hf => h.raw (hsub hf), h.forwarding, h.hand, h.finishing, h.bound⟩

variable {decoder : Decoder A}

theorem WorkerInv.lessDecoder (h : WorkerInv e s w k)
    (hsub : ∀ key a, decoder.fragments.lookup key = some a → k.decoder.fragments.lookup key = some a) :
    WorkerInv e s w { k with decoder } :=
  ⟨h.inbox, h.raw, h.forwarding, h.hand,
    fun hb => ⟨(h.finishing hb).1, fun key a ha => (h.finishing hb).2 key a (hsub key a ha)⟩,
    fun ha => h.bound (hsub _ _ ha)⟩

theorem Bound.of_iff {a : Assembly A} {b c : Binding} (h : Bound e s w key a b)
    (hb : s.routes.Known b) (hc : s.routes.Known c) : a.Of c ↔ b = c := by
  constructor
  · rintro ⟨_, hold, hid⟩
    obtain rfl := some.inj (h.binding.symm.trans hold)
    exact hb.eq hc hid
  · rintro rfl
    exact ⟨b, h.binding, rfl⟩

variable {now : Nat}

theorem WorkerInv.base (h : WorkerInv e s w k) (hknown : ∀ {b v}, s.Logged b v → s.routes.Known b)
    (hb : s.Logged b w) {fragment : Fragment} {o : Outcome A} {base : Assembly A}
    (hm : Decoder.Merges e.decoder k.decoder b p fragment now o decoder base) :
    base.binding = some b ∧ base.expires = b.expires ∧ ∀ c ∈ base.copied, s.Copies e b c := by
  rcases hm.old with ⟨hbase, hof⟩ | rfl
  · obtain ⟨_, hb'⟩ := h.bound hbase
    obtain rfl := (hb'.of_iff (hknown hb'.logged) (hknown hb)).1 hof
    exact ⟨hb'.binding, hb'.expires, hb'.copied⟩
  · exact ⟨rfl, rfl, fun c hc => nomatch hc⟩

theorem WorkerInv.decodes_bound (h : WorkerInv e s w k)
    (hknown : ∀ {b v}, s.Logged b v → s.routes.Known b) {frame : Frame}
    {reply : Reply A} {l l' : Limits} (hb : s.Logged b w) (hmem : (b, frame) ∈ s.decoded)
    (hdecode : k.decoder.decodeFragment e.decoder l frame.received.bytes now b (s.routes.active b.id) =
      some (reply, decoder, l')) : ∀ {key a}, decoder.fragments.lookup key = some a → ∃ b, Bound e s w key a b := by
  rcases Decoder.decodeFragment_spec hdecode with ⟨-, rfl⟩ | ⟨-, hactive, p, fragment, o, base, hparse, hfrag, -, hm⟩
  · exact h.bound
  · intro key a ha
    have hcopy : s.Copies e b (Decoder.bound b p fragment now) := ⟨frame, p, fragment, now, hmem, hparse, hfrag, rfl⟩
    have hbase := h.base hknown hb hm
    rcases hm.new key a ha with hold | ⟨rfl, hgrown⟩
    · exact h.bound hold
    · refine ⟨b, hgrown.binding.trans hbase.1, rfl, hgrown.expires.trans hbase.2.1, hb, fun c hc => ?_, fun _ => hactive⟩
      rcases hgrown.copied c hc with hc | rfl
      · exact hbase.2.2 c hc
      · exact hcopy

theorem not_of_of_not_retains (hb : s.routes.Known b) (hknown : ∀ {b v}, s.Logged b v → s.routes.Known b)
    (hbound : ∀ {key a}, decoder.fragments.lookup key = some a → ∃ b, Bound e s w key a b)
    (hretains : decoder.retains b = false) (key : FragmentKey) (a : Assembly A)
    (ha : decoder.fragments.lookup key = some a) : ¬ a.Of b := by
  intro hof
  obtain ⟨_, hb'⟩ := hbound ha
  obtain rfl := (hb'.of_iff (hknown hb'.logged) hb).1 hof
  rw [← hb'.key] at ha
  simp [Decoder.retains, ha, hb'.binding, Binding.ptrEq] at hretains

theorem WorkerInv.decodes (h : WorkerInv e s w k) (hknown : ∀ {b v}, s.Logged b v → s.routes.Known b) {frame : Frame}
    {reply : Reply A} {l l' : Limits} {rest : Option Delivery} (hb : s.Logged b w)
    (hmem : (b, frame) ∈ s.decoded) (hrest : ∀ d ∈ rest, s.Logged d.binding w)
    (hdecode : k.decoder.decodeFragment e.decoder l frame.received.bytes now b (s.routes.active b.id) =
      some (reply, decoder, l')) :
    WorkerInv e s w ⟨decoder, k.inbox, if decoder.retains b then .resume rest else .finishing b rest⟩ := by
  have hbound : ∀ {key a}, decoder.fragments.lookup key = some a → ∃ b, Bound e s w key a b :=
    fun ha => h.decodes_bound hknown hb hmem hdecode ha
  have hidle : WorkerInv e s w ⟨decoder, k.inbox, .idle⟩ :=
    ⟨h.inbox, h.raw, (fun h => nomatch h), (fun h => nomatch h), (fun h => nomatch h), hbound⟩
  split_ifs with hretains
  · exact hidle.resume hrest
  · refine hidle.setTask (fun h => nomatch h) (fun {d} hd => ?_) ?_
    · cases rest with
      | none => cases hd
      | some =>
        obtain rfl := mem_singleton.1 hd
        exact hrest _ rfl
    · rintro b' rest' heq
      cases heq
      exact ⟨hb, not_of_of_not_retains (hknown hb) hknown hbound (Bool.eq_false_iff.2 hretains)⟩

/-! ## The steps -/

theorem Inv.firstOwner_lt (h : Inv e s) (v : Nat) (hv : p.firstRoute.map e.owner = some v) : v < s.routes.count := by
  obtain ⟨_, -, rfl⟩ := map_eq_some_iff.1 hv
  rw [h.count]
  exact Nat.mod_lt _ e.workers_pos

theorem Inv.route (h : Inv e s) {frame : Frame} (hnow : now ≤ s.clock)
    (hs : s.route e w frame p key now = some (ev, s')) : Inv e s' := by
  obtain ⟨out, _, _, hroute, -, rfl⟩ := route_eq hs
  obtain ⟨hk, hd⟩ := Routes.route_spec h.routes rfl h.firstOwner_lt hroute
  refine h.advance hk ⟨?_, id, le_rfl⟩ ?_ (fun v k a b _ _ hclock => ?_) (workers_set rfl fun hw => ?_)
  · rintro b v ⟨d, hmem, hrest⟩
    exact ⟨d, mem_append_left _ hmem, hrest⟩
  · intro d hmem
    rcases mem_append.1 hmem with hmem | hmem
    · exact .inl hmem
    · cases out with
      | delivery =>
        obtain rfl := mem_singleton.1 hmem
        exact .inr (hd _ rfl).2.2
      | _ => cases hmem
  · exact lt_of_le_of_lt hnow hclock
  · refine hw.accept ?_
    rintro d rfl
    exact ⟨d, mem_append_right _ (mem_singleton_self _), rfl, rfl⟩

theorem Inv.send (h : Inv e s) {m : Forwarded} (hm : WorkerInv e (s.send w m) w (s.workers w) →
      WorkerInv e (s.send w m) w { s.workers w with inbox := (s.workers w).inbox ++ [m] }) : Inv e (s.send w m) :=
  h.local rfl rfl id le_rfl (workers_set rfl hm)

theorem Inv.frame (h : Inv e s) {received : Received} {accepted : Bool}
    (hs : s.frame e w received accepted now = some (ev, s')) : Inv e s' := by
  obtain ⟨_, rfl, hcases⟩ := frame_cases hs
  have h0 : Inv e { s.tick now with reads := s.reads + 1 } := h.local rfl rfl id (s.tick_le now) id
  rcases hcases with ⟨-, rfl⟩ | ⟨p, key, -, -, hroute⟩ | ⟨p, key, hparse, hp, -, ⟨-, rfl, -⟩ | ⟨-, rfl⟩⟩
  · exact h0
  · exact h0.route (le_max_right _ _) hroute
  · exact h0
  · exact h0.send fun hv => hv.receiveRaw hparse hp

theorem Inv.forward (h : Inv e s) {accepted : Bool} (hs : s.forward w accepted = some (ev, s')) : Inv e s' := by
  have hidle : ∀ l lost, Inv e { s.setTask w .idle with limits := l, lost := lost } := fun l lost =>
    h.local rfl rfl id le_rfl (workers_set rfl WorkerInv.idle)
  obtain ⟨_, htask, ⟨-, rfl⟩ | ⟨_, -, rfl⟩⟩ := forward_cases hs
  · exact (hidle s.limits s.lost).send fun hv => hv.receive ((h.worker w).forwarding htask)
  · exact hidle _ _

theorem Inv.take (h : Inv e s) (hs : s.take e w now = some (ev, s')) : Inv e s' := by
  rcases take_cases hs with ⟨d, inbox, hinbox, -, -, rfl⟩ | ⟨frame, inbox, hinbox, hs⟩
  all_goals have hsub : ∀ {m}, m ∈ inbox → m ∈ (s.workers w).inbox := fun hm => hinbox ▸ mem_cons_of_mem _ hm
  · refine h.local rfl rfl id le_rfl (workers_set rfl fun hw => (hw.shrink hsub).fragments ?_)
    exact hw.inbox (hinbox ▸ mem_cons_self)
  · have hmem : Forwarded.frame frame ∈ (s.workers w).inbox := hinbox ▸ mem_cons_self
    obtain ⟨_, hparse, hp⟩ := (h.worker w).raw hmem
    rw [decode_whole hparse hp, setWorker_self] at hs
    cases hs
    exact h.local rfl rfl id (s.tick_le now) (workers_set rfl fun hw => hw.shrink hsub)

theorem Inv.releasePending (h : Inv e s) (hs : s.releasePending w = some s') : Inv e s' := by
  obtain ⟨d, _, _, htask, -, -, rfl⟩ := releasePending_cases hs
  refine h.local rfl rfl id le_rfl (workers_set rfl fun hw => hw.fragments ?_)
  exact hw.hand (d := d) (htask ▸ mem_singleton_self d)

theorem Inv.fragment (h : Inv e s) (hs : s.fragment e w now = some (ev, s')) : Inv e s' := by
  obtain ⟨d, _, _, _, _, _, htask, hnext, hdecode, -, rfl⟩ := fragment_cases hs
  refine h.local rfl rfl (mem_append_left _) (s.tick_le now) (workers_set rfl fun hw => ?_)
  have hlogged := hw.hand (d := d) (htask ▸ mem_singleton_self d)
  refine hw.decodes (fun hb => (h.logged hb).1) hlogged (mem_append_right _ (mem_singleton_self _))
    (fun d' hd' => ?_) hdecode
  rw [next_binding hnext hd']
  exact hlogged

theorem Inv.finish (h : Inv e s) (hs : s.finish w = some (ev, s')) : Inv e s' := by
  obtain ⟨_, _, _, _, htask, hfinish, -, rfl⟩ := finish_eq hs
  obtain ⟨hlogged, hnone⟩ := (h.worker w).finishing htask
  refine h.advance (Routes.finish_spec h.routes hfinish) ⟨id, id, le_rfl⟩ (fun d hd => .inl hd) ?_
    (workers_set rfl fun hw => hw.resume fun d hd => hw.hand ?_)
  · -- no assembly is left of the binding that is finished
    intro v key a b' ha hb' _ hid
    have heq := (h.logged hb'.logged).1.eq (h.logged hlogged).1 hid
    subst heq
    obtain rfl := h.agree hb'.logged hlogged
    exact hnone key a ha ⟨b', hb'.binding, rfl⟩
  · cases hd
    rw [htask]
    exact mem_singleton_self d

theorem Inv.abandon (h : Inv e s) (hs : s.abandon w = some (ev, s')) : Inv e s' := by
  obtain ⟨_, _, -, -, rfl⟩ := abandon_cases hs
  exact h.local rfl rfl id le_rfl (workers_set rfl WorkerInv.idle)

theorem Inv.expireRoutes (h : Inv e s) {shard now : Nat} (hs : s.expireRoutes shard now = some s') : Inv e s' := by
  obtain ⟨_, _, hexpire, rfl⟩ := expireRoutes_eq hs
  refine h.advance (Routes.expire_spec h.routes hexpire) ⟨id, id, s.tick_le now⟩ (fun d hd => .inl hd) ?_ id
  intro v key a b _ _ hclock
  exact lt_of_le_of_lt (le_max_right _ _) hclock

theorem Inv.expireDecoder (h : Inv e s) (hs : s.expireDecoder e w now = some s') : Inv e s' := by
  obtain ⟨_, _, hexpire, rfl⟩ := expireDecoder_eq hs
  exact h.local rfl rfl id (s.tick_le now) (workers_set rfl fun hw => hw.lessDecoder (Decoder.expire_keeps hexpire).1)

theorem Inv.discardPending (h : Inv e s) {shard : Nat}
    (hold : (s.routes.shards shard).OldestPending key) (hs : s.discardPending shard key = some s') : Inv e s' := by
  obtain ⟨_, _, hremove, rfl⟩ := discardPending_eq hs
  exact h.advance (Routes.discard_spec h.routes hold hremove) ⟨id, id, le_rfl⟩ (fun d hd => .inl hd)
    (fun _ _ _ _ _ _ _ => trivial) id

theorem Inv.discardOldest (h : Inv e s) (hs : s.discardOldest e w key = some s') : Inv e s' := by
  obtain ⟨_, _, _, ha, htask, rfl⟩ := discardOldest_cases hs
  refine h.local rfl rfl id le_rfl (workers_set rfl fun hw => ?_)
  obtain ⟨_, hb⟩ := hw.bound ha
  rw [hb.binding] at htask
  subst htask
  refine WorkerInv.setTask (hw.lessDecoder fun k x hx => (Table.lookup_erase_iff.1 hx).2).idle
    (fun h => nomatch h) (fun h => nomatch h) ?_
  rintro b' rest heq
  cases heq
  refine ⟨hb.logged, fun k x hx hof => ?_⟩
  -- another assembly of the binding would stand at the same key
  obtain ⟨hne, hx⟩ := Table.lookup_erase_iff.1 hx
  obtain ⟨_, hb'⟩ := hw.bound hx
  have hsame := (hb'.of_iff (h.logged hb'.logged).1 (h.logged hb.logged).1).1 hof
  subst hsame
  exact hne (hb'.key.symm.trans hb.key)

theorem Step.inv (h : Inv e s) (hstep : Step e s ev s') : Inv e s' := by
  cases hstep with
  | frame _ _ hs => exact h.frame hs
  | forward _ hs => exact h.forward hs
  | take _ _ hs => exact h.take hs
  | releasePending _ hs => exact h.releasePending hs
  | fragment _ hs => exact h.fragment hs
  | finish _ hs => exact h.finish hs
  | abandon _ hs => exact h.abandon hs
  | dropQueued _ hinbox =>
    refine h.local rfl rfl id le_rfl (workers_set rfl fun hw => hw.shrink fun hm => ?_)
    rw [hinbox]
    exact (mem_append.1 hm).elim (mem_append_left _) fun hm =>
      mem_append_right _ (mem_cons_of_mem _ hm)
  | expireRoutes hs => exact h.expireRoutes hs
  | expireDecoder _ hs => exact h.expireDecoder hs
  | discardPending hold hs => exact h.discardPending hold hs
  | discardOldest _ _ _ hs => exact h.discardOldest hs
  | headroom => exact h.local rfl rfl id (s.tick_le _) id
  | releaseBinding => exact h.local rfl rfl id le_rfl id

theorem Inv.new (e : PipelineEnv A) (now : Nat) : Inv e (State.new e now) where
  routes := Routes.Inv.new
  count := rfl
  logged := fun ⟨_, hd, _⟩ => nomatch hd
  agree := fun ⟨_, hd, _⟩ => nomatch hd
  worker _ :=
    ⟨(fun h => nomatch h), (fun h => nomatch h), (fun h => nomatch h), (fun h => nomatch h), (fun h => nomatch h),
      fun h => by simp [State.new, Decoder.new] at h⟩

theorem Run.inv (h : Inv e s) {evs : List (Event A)} (hrun : Run e s evs s') : Inv e s' := by
  induction hrun with
  | refl => exact h
  | step _ hstep ih => exact hstep.inv ih

theorem Reachable.inv (h : Reachable e s) : Inv e s := by
  obtain ⟨now, _, hrun⟩ := h
  exact hrun.inv (.new e now)

end Kotoconn.Tun.Pipeline
