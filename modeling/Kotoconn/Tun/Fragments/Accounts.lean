import Kotoconn.Tun.Fragments.Charges
import Kotoconn.Tun.Fragments.Poison

/-!
# The budget of incomplete datagrams

Workers share the routes and the budget; each has a decoder, and deliveries are under way between them. A step is one
call, of any worker and with any arguments, or the end of a delivery or of a reference to a binding.
-/

namespace Kotoconn.Tun

open Lib List Option Function Table

variable {A : Type}

/-! ## References to bindings -/

def Routes.Binds (r : Routes) (b : Binding) : Prop :=
  ∃ i k x, (r.shards i).entries.lookup k = some x ∧ x.binding = b

def Decoder.Binds (d : Decoder A) (b : Binding) : Prop := ∃ k a, d.fragments.lookup k = some a ∧ a.binding = some b

namespace Routes
variable {r r' : Routes} {l l' : Limits} {i now : Nat} {key : FragmentKey} {b : Binding}

theorem Binds.of_erase {x : Entry} (h : (r.erase i key x).Binds b) : r.Binds b := by
  obtain ⟨j, k, y, hy, rfl⟩ := h
  exact ⟨j, k, y, lookup_of_erase hy, rfl⟩

theorem Binds.of_put {s : Shard} {gone : List Entry} (hd : Drops (r.shards i) gone s) (h : (r.put i s gone).Binds b) :
    r.Binds b := by
  obtain ⟨j, k, y, hy, rfl⟩ := h
  exact ⟨j, k, y, ((put_lookup hd).1 hy).1, rfl⟩

theorem expire_binds (h : r.expire l i now = some (r', l')) (hb : r'.Binds b) : r.Binds b := by
  obtain ⟨-, rfl⟩ := expire_eq h
  exact hb.of_put (drops_expire _ _)

theorem remove_binds (h : r.remove l i key = some (r', l')) (hb : r'.Binds b) : r.Binds b := by
  rcases remove_cases h with ⟨rfl, -⟩ | ⟨x, -, rfl⟩
  · exact hb
  · exact hb.of_erase

theorem finish_binds {c : Binding} (h : r.finish l c = some (r', l')) (hb : r'.Binds b) : r.Binds b := by
  rcases finish_cases h with ⟨rfl, -⟩ | ⟨x, -, -, rfl⟩
  · exact hb
  · exact hb.of_erase

variable {firstOwner : Option Nat} {frame : Frame} {out : Routed}

def Routed.Binds (out : Routed) (b : Binding) : Prop := ∃ d, out.result = some d ∧ d.binding = b

theorem Places.binds {x : Entry} (hx : (r.shards i).entries.lookup key = some x)
    (h : Places r i key firstOwner frame x out r') :
    r'.bindings = r.bindings ∧ ∀ b, r'.Binds b ∨ Routed.Binds out b → r.Binds b := by
  have hset : ∀ {y : Entry} {b : Binding}, (r.set i key y).Binds b → y.binding = x.binding → r.Binds b := by
    rintro y b ⟨j, k, z, hz, rfl⟩ hy
    rcases set_lookup.1 hz with ⟨-, -, rfl⟩ | ⟨-, hz⟩
    · exact ⟨i, key, x, hx, hy.symm⟩
    · exact ⟨j, k, z, hz, rfl⟩
  cases h with
  | delivery =>
    refine ⟨rfl, fun b hb => ?_⟩
    rcases hb with hb | ⟨d, hd, rfl⟩
    · exact hset hb rfl
    · cases hd
      exact ⟨i, key, x, hx, rfl⟩
  | retained =>
    refine ⟨rfl, fun b hb => ?_⟩
    rcases hb with hb | ⟨d, hd, -⟩
    · exact hset hb rfl
    · cases hd
  | overflow =>
    refine ⟨rfl, fun b hb => ?_⟩
    rcases hb with hb | ⟨d, hd, -⟩
    · exact hb.of_erase
    · cases hd

theorem route_binds {e : RoutesEnv} (h : r.route e l i key firstOwner frame now = some (out, r', l'))
    (hb : r'.Binds b ∨ Routed.Binds out b) :
    r.Binds b ∨ b = r.bind i key now ∧ r'.bindings.length = r.bindings.length + 1 := by
  obtain ⟨_, houtcome⟩ := route_cases h
  have hold : ∀ b, (r.put i ((r.shards i).expire now) ((r.shards i).overdue now)).Binds b → r.Binds b := fun b hb =>
    hb.of_put (drops_expire _ _)
  cases houtcome with
  | unadmitted =>
    rcases hb with hb | ⟨d, hd, -⟩
    · exact .inl (hold b hb)
    · cases hd
  | found hx hplaces => exact .inl (hold b ((hplaces.binds hx).2 b hb))
  | inserted _ hplaces =>
    obtain ⟨hbindings, hbinds⟩ := hplaces.binds (insertNew_lookup.2 (.inl ⟨rfl, rfl, rfl⟩))
    obtain ⟨j, k, x, hx, rfl⟩ := hbinds b hb
    rcases insertNew_lookup.1 hx with ⟨-, -, rfl⟩ | ⟨-, hx⟩
    · refine .inr ⟨rfl, ?_⟩
      rw [hbindings]
      simp [insertNew, Routes.put]
    · exact .inl (hold _ ⟨j, k, x, hx, rfl⟩)

end Routes

namespace Decoder
variable {L : Type} {e : DecoderEnv L A} {d d' : Decoder A} {l l' : L} {now : Nat} {b c : Binding}

theorem expire_binds (h : d.expire e l now = some (d', l')) (hb : d'.Binds b) : d.Binds b := by
  obtain ⟨k, a, ha, hbinding⟩ := hb
  exact ⟨k, a, (expire_keeps h).1 k a ha, hbinding⟩

theorem remove_binds {key : FragmentKey} (h : d.remove e l key = some (d', l')) (hb : d'.Binds b) : d.Binds b := by
  obtain ⟨k, a, ha, hbinding⟩ := hb
  rcases remove_cases h with ⟨rfl, -⟩ | rfl
  · exact ⟨k, a, ha, hbinding⟩
  · exact ⟨k, a, (lookup_erase_iff.1 ha).2, hbinding⟩

theorem reassemble_binds {key : FragmentKey} {protocol : IpProtocol} {fragment : Fragment} {data : Bytes}
    {binding : Option Binding} {o : Outcome A}
    (h : d.reassemble e l key protocol fragment data now binding = some (o, d', l')) (hb : d'.Binds b) :
    d.Binds b ∨ binding = some b := by
  obtain ⟨_, _, hexpire, hre⟩ := reassemble_cases h
  obtain ⟨base, hbase, hnew, -⟩ := hre.touches
  obtain ⟨k, a, ha, hbinding⟩ := hb
  rcases hnew k a ha with ha | ⟨-, hgrown⟩
  · exact .inl (expire_binds hexpire ⟨k, a, ha, hbinding⟩)
  · rw [hgrown.binding] at hbinding
    rcases hbase with hbase | rfl
    · exact .inl (expire_binds hexpire ⟨_, base, hbase, hbinding⟩)
    · exact .inr hbinding

theorem decode_binds {data : Bytes} {reply : Reply A} (h : d.decode e l data now = some (reply, d', l'))
    (hb : d'.Binds b) : d.Binds b := by
  rcases decode_cases h with ⟨-, rfl⟩ | ⟨_, -, rfl⟩ | ⟨p, key, fragment, o, -, -, -, hre, -⟩
  · exact hb
  · exact hb
  · exact (reassemble_binds hre hb).resolve_right nofun

theorem decodeFragment_binds {data : Bytes} {active : Bool} {reply : Reply A}
    (h : d.decodeFragment e l data now c active = some (reply, d', l')) (hb : d'.Binds b) : d.Binds b ∨ b = c := by
  rcases decodeFragment_cases h with ⟨-, -, rfl⟩ | ⟨-, -, -, rfl⟩ |
    ⟨-, -, p, d₁, l₁, o, l₂, -, -, hevict, fragment, -, hre, -⟩
  · exact .inl hb
  · exact .inl hb
  · rcases reassemble_binds hre hb with ⟨k, a, ha, hbinding⟩ | hc
    · exact .inl ⟨k, a, ((evictForeign_keeps hevict).1 k a ha).1, hbinding⟩
    · exact .inr (some.inj hc).symm

end Decoder

namespace Accounts

/-! ## The system -/

structure State (A : Type) where
  limits : Limits
  routes : Routes
  decoders : Nat → Decoder A
  deliveries : List Delivery
  /-- the bindings that `discard_oldest` returned -/
  hands : List Binding
  /-- ghost: the identities of the bindings whose lease was dropped -/
  released : List Nat

def State.Holds (s : State A) (b : Binding) : Prop :=
  s.routes.Binds b ∨ (∃ w, (s.decoders w).Binds b) ∨ (∃ d ∈ s.deliveries, d.binding = b) ∨ b ∈ s.hands

def State.new (e : PipelineEnv A) (initial now : Nat) : State A :=
  ⟨Limits.new initial now, Routes.new e.workers, fun _ => Decoder.new, [], [], []⟩

def deliveriesCharge (deliveries : List Delivery) : Nat := (deliveries.map fun d => batchCharge d.pending).sum

def decodersCharge (e : PipelineEnv A) (decoders : Nat → Decoder A) : Nat :=
  ∑ w ∈ Finset.range e.workers, (decoders w).charge

def State.charge (e : PipelineEnv A) (s : State A) : Nat :=
  s.routes.charge + decodersCharge e s.decoders + deliveriesCharge s.deliveries +
    (s.routes.bindings.length - s.released.length) * e.routes.entryBytes

inductive Step (e : PipelineEnv A) (s : State A) : State A → Prop
  | route {shard now : Nat} {key : FragmentKey} {firstOwner : Option Nat} {frame : Frame} {out : Routed} {r : Routes}
      {l : Limits} (h : s.routes.route e.routes s.limits shard key firstOwner frame now = some (out, r, l)) :
      Step e s { s with limits := l, routes := r, deliveries := s.deliveries ++ out.result.toList }
  | finish {b : Binding} {r : Routes} {l : Limits} (hb : s.Holds b) (h : s.routes.finish s.limits b = some (r, l)) :
      Step e s { s with limits := l, routes := r }
  | expireRoutes {shard now : Nat} {r : Routes} {l : Limits} (h : s.routes.expire s.limits shard now = some (r, l)) :
      Step e s { s with limits := l, routes := r }
  /-- `discard_oldest_pending` -/
  | discardPending {shard : Nat} {key : FragmentKey} {r : Routes} {l : Limits}
      (hkey : (s.routes.shards shard).OldestPending key) (h : s.routes.remove s.limits shard key = some (r, l)) :
      Step e s { s with limits := l, routes := r }
  | nextFrame {before after : List Delivery} {d : Delivery} {p : Pending} {frame : Frame} {frames : List Frame}
      (hd : s.deliveries = before ++ d :: after) (hp : d.pending = some p) (hframes : p.frames = frame :: frames) :
      Step e s { s with deliveries := before ++ { d with pending := some { p with frames } } :: after }
  /-- `drop(delivery.pending)` -/
  | dropPending {before after : List Delivery} {d : Delivery} {l : Limits}
      (hd : s.deliveries = before ++ d :: after) (h : Pipeline.State.releaseBatch s.limits d = some l) :
      Step e s { s with limits := l, deliveries := before ++ { d with pending := none } :: after }
  | dropDelivery {before after : List Delivery} {d : Delivery} {l : Limits}
      (hd : s.deliveries = before ++ d :: after) (h : Pipeline.State.releaseBatch s.limits d = some l) :
      Step e s { s with limits := l, deliveries := before ++ after }
  | decode {w now : Nat} {data : Bytes} {reply : Reply A} {d : Decoder A} {l : Limits} (hw : w < e.workers)
      (h : (s.decoders w).decode e.decoder s.limits data now = some (reply, d, l)) :
      Step e s { s with limits := l, decoders := update s.decoders w d }
  | decodeFragment {w now : Nat} {data : Bytes} {b : Binding} {reply : Reply A} {d : Decoder A} {l : Limits}
      (hw : w < e.workers) (hb : s.Holds b) (h : (s.decoders w).decodeFragment e.decoder s.limits data now b
        (s.routes.active b.id) = some (reply, d, l)) :
      Step e s { s with limits := l, decoders := update s.decoders w d }
  | expireDecoder {w now : Nat} {d : Decoder A} {l : Limits} (hw : w < e.workers)
      (h : (s.decoders w).expire e.decoder s.limits now = some (d, l)) :
      Step e s { s with limits := l, decoders := update s.decoders w d }
  /-- `discard_oldest`, which returns the binding -/
  | discardOldest {w : Nat} {key : FragmentKey} {a : Assembly A} {d : Decoder A} {l : Limits} (hw : w < e.workers)
      (hkey : (s.decoders w).Oldest key) (ha : (s.decoders w).fragments.lookup key = some a)
      (h : (s.decoders w).remove e.decoder s.limits key = some (d, l)) :
      Step e s { s with
        limits := l, decoders := update s.decoders w d, hands := s.hands ++ a.binding.toList }
  | dropHand {before after : List Binding} {b : Binding} (hb : s.hands = before ++ b :: after) :
      Step e s { s with hands := before ++ after }
  | headroom {now : Nat} : Step e s { s with limits := (s.limits.needsHeadroom now).2 }
  | dropBinding {id : Nat} {l : Limits} (hid : id < s.routes.bindings.length) (hlive : id ∉ s.released)
      (hlast : ∀ b, s.Holds b → b.id ≠ id) (h : s.limits.drop e.routes.entryBytes = some l) :
      Step e s { s with limits := l, released := id :: s.released }

inductive Reachable (e : PipelineEnv A) : State A → Prop
  | new (initial now : Nat) : Reachable e (.new e initial now)
  | step {s s' : State A} (h : Reachable e s) (hstep : Step e s s') : Reachable e s'

/-! ## The invariant -/

structure Inv (e : PipelineEnv A) (s : State A) : Prop where
  used : s.limits.used = s.charge e
  count : s.routes.count = e.workers
  routes : s.routes.Covered e.routes
  decoders : ∀ w, (s.decoders w).Covered e.metadata
  deliveries : ∀ d ∈ s.deliveries, ∀ p, d.pending = some p → p.Covers e.routes
  holds : ∀ b, s.Holds b → b.id < s.routes.bindings.length ∧ b.id ∉ s.released ∧ b.shard < s.routes.count
  released : s.released.Nodup ∧ ∀ id ∈ s.released, id < s.routes.bindings.length

variable {e : PipelineEnv A} {s s' : State A}

theorem Inv.new (e : PipelineEnv A) (initial now : Nat) : Inv e (State.new e initial now) where
  used := by
    simp [State.new, State.charge, Limits.new, Routes.charge, Routes.total, Routes.new, Shard.new, Table.total,
      Table.values, decodersCharge, Decoder.charge_new, deliveriesCharge]
  count := rfl
  routes i k x p hx := by simp [State.new, Routes.new, Shard.new] at hx
  decoders w := Decoder.covered_new _
  deliveries := nofun
  holds b hb := by
    rcases hb with ⟨i, k, x, hx, -⟩ | ⟨w, k, a, ha, -⟩ | ⟨d, hd, -⟩ | hb
    · simp [State.new, Routes.new, Shard.new] at hx
    · simp [State.new, Decoder.new] at ha
    · cases hd
    · cases hb
  released := ⟨nodup_nil, nofun⟩

theorem decodersCharge_split {w : Nat} (hw : w < e.workers) (decoders : Nat → Decoder A) :
    ∃ others, decodersCharge e decoders = others + (decoders w).charge ∧
      ∀ d, decodersCharge e (update decoders w d) = others + d.charge := by
  have hmem := Finset.mem_range.2 hw
  refine ⟨∑ v ∈ (Finset.range e.workers).erase w, (decoders v).charge, ?_, fun d => ?_⟩
  · exact (Finset.sum_erase_add _ _ hmem).symm
  · have := sum_update_eq Decoder.charge decoders hw (add_comm (decoders w).charge d.charge)
    have hsplit := Finset.sum_erase_add (Finset.range e.workers) (fun v => (decoders v).charge) hmem
    unfold decodersCharge
    omega

theorem deliveriesCharge_append (before after : List Delivery) :
    deliveriesCharge (before ++ after) = deliveriesCharge before + deliveriesCharge after := by
  simp [deliveriesCharge]

theorem deliveriesCharge_middle (before after : List Delivery) (d : Delivery) :
    deliveriesCharge (before ++ d :: after) = deliveriesCharge (before ++ after) + batchCharge d.pending := by
  simp only [deliveriesCharge, map_append, map_cons, sum_append, sum_cons]
  omega

variable (h : Inv e s)
include h

theorem Inv.released_le : s.released.length ≤ s.routes.bindings.length := by
  have hsub : s.released.toFinset ⊆ Finset.range s.routes.bindings.length := fun id hid =>
    Finset.mem_range.2 (h.released.2 id (List.mem_toFinset.1 hid))
  have hcard := Finset.card_le_card hsub
  rwa [toFinset_card_of_nodup h.released.1, Finset.card_range] at hcard

def State.outside (e : PipelineEnv A) (s : State A) : Nat :=
  decodersCharge e s.decoders + deliveriesCharge s.deliveries

theorem Inv.charged : s.routes.Charged e.routes s.routes s.released.length (s.outside e) s.limits := by
  refine ⟨rfl, le_rfl, h.released_le, h.routes, ?_⟩
  rw [h.used, State.charge, State.outside]
  omega

variable {l : Limits}

theorem Inv.setRoutes {r : Routes} (made : Option Delivery)
    (hr : r.Charged e.routes s.routes s.released.length (s.outside e + deliveriesCharge made.toList) l)
    (hmade : ∀ d p, made = some d → d.pending = some p → p.Covered e.routes)
    (hbinds : ∀ b, r.Binds b ∨ (∃ d, made = some d ∧ d.binding = b) →
      s.Holds b ∨ b.id < r.bindings.length ∧ b.id ∉ s.released ∧ b.shard < s.routes.count) :
    Inv e { s with limits := l, routes := r, deliveries := s.deliveries ++ made.toList } := by
  refine ⟨?_, hr.count.trans h.count, hr.covered, h.decoders, fun d hd p hp => ?_, fun b hb => ?_, h.released.1,
    fun id hid => lt_of_lt_of_le (h.released.2 id hid) hr.grows⟩
  · simp only [State.charge, deliveriesCharge_append, hr.used, State.outside]
    omega
  · rcases mem_append.1 hd with hd | hd
    · exact h.deliveries d hd p hp
    · exact (hmade d p (mem_toList.1 hd) hp).covers
  · show b.id < r.bindings.length ∧ b.id ∉ s.released ∧ b.shard < r.count
    rw [hr.count]
    have hold : s.Holds b → b.id < r.bindings.length ∧ b.id ∉ s.released ∧ b.shard < s.routes.count := fun hb =>
      (h.holds b hb).imp_left fun hid => lt_of_lt_of_le hid hr.grows
    have hnew := fun hb => (hbinds b hb).elim hold id
    rcases hb with hb | hb | ⟨d, hd, hb⟩ | hb
    · exact hnew (.inl hb)
    · exact hold (.inr (.inl hb))
    · rcases mem_append.1 hd with hd | hd
      · exact hold (.inr (.inr (.inl ⟨d, hd, hb⟩)))
      · exact hnew (.inr ⟨d, mem_toList.1 hd, hb⟩)
    · exact hold (.inr (.inr (.inr hb)))

theorem Inv.keepRoutes {r : Routes}
    (hr : r.Charged e.routes s.routes s.released.length (s.outside e) l) (hbinds : ∀ b, r.Binds b → s.routes.Binds b) :
    Inv e { s with limits := l, routes := r } := by
  have hinv := h.setRoutes none hr nofun fun b hb => .inl (.inl (hbinds b (hb.resolve_right nofun)))
  rwa [toList_none, append_nil] at hinv

theorem Inv.route {shard now : Nat} {key : FragmentKey} {firstOwner : Option Nat} {frame : Frame}
    {out : Routed} {r : Routes}
    (hroute : s.routes.route e.routes s.limits shard key firstOwner frame now = some (out, r, l)) :
    Inv e { s with limits := l, routes := r, deliveries := s.deliveries ++ out.result.toList } := by
  obtain ⟨hi, -⟩ := Routes.route_cases hroute
  obtain ⟨hr, hout⟩ := (Routes.route_charge hi h.charged key firstOwner frame now).post hroute
  have hdelivered : deliveriesCharge out.result.toList = out.charge := by
    cases hresult : out.result with
    | none => simp [deliveriesCharge, Routed.charge, hresult]
    | some => simp [deliveriesCharge, Routed.charge, hresult]
  rw [← hdelivered] at hr
  refine h.setRoutes out.result hr hout fun b hb => ?_
  rcases Routes.route_binds hroute hb with hb | ⟨rfl, hone⟩
  · exact .inl (.inl hb)
  · refine .inr ⟨by rw [hone]; exact lt_add_one _, fun hmem => ?_, hi⟩
    exact lt_irrefl _ (h.released.2 _ hmem)

theorem Inv.decoder {w : Nat} (hw : w < e.workers) :
    ∃ rest, (s.decoders w).Charged e.decoder rest s.limits ∧ ∀ (d : Decoder A) (l : Limits), l.used = rest + d.charge →
      l.used = ({ s with decoders := update s.decoders w d } : State A).charge e := by
  obtain ⟨others, hold, hnew⟩ := decodersCharge_split hw s.decoders
  refine ⟨s.routes.charge + others + deliveriesCharge s.deliveries +
    (s.routes.bindings.length - s.released.length) * e.routes.entryBytes, ⟨h.decoders w, ?_⟩, fun d l hused => ?_⟩
  · rw [h.used, State.charge, hold]
    omega
  · rw [hused]
    simp only [State.charge, hnew]
    omega

theorem Inv.setDecoder {w : Nat} (hw : w < e.workers) {d : Decoder A}
    (hcall : ∀ rest, (s.decoders w).Charged e.decoder rest s.limits → d.Charged e.decoder rest l)
    (hbinds : ∀ b, d.Binds b → s.Holds b) :
    Inv e { s with limits := l, decoders := update s.decoders w d } := by
  obtain ⟨rest, hcharged, hcharge⟩ := h.decoder hw
  obtain ⟨hd, hused⟩ := hcall rest hcharged
  refine ⟨hcharge d l hused, h.count, h.routes, fun v => ?_, h.deliveries, fun b hb => h.holds b ?_, h.released⟩
  · show (update s.decoders w d v).Covered e.metadata
    rw [update_apply]
    split_ifs
    · exact hd
    · exact h.decoders v
  · rcases hb with hb | ⟨v, hb⟩ | hb
    · exact .inl hb
    · have hb : (update s.decoders w d v).Binds b := hb
      rw [update_apply] at hb
      split_ifs at hb
      · exact hbinds b hb
      · exact .inr (.inl ⟨v, hb⟩)
    · exact .inr (.inr hb)

theorem Inv.setDeliveries {before after deliveries : List Delivery} {d : Delivery}
    (hd : s.deliveries = before ++ d :: after) (left : Nat)
    (hused : ∀ rest, s.limits.used = rest + batchCharge d.pending → l.used = rest + left)
    (hcharge : deliveriesCharge deliveries = deliveriesCharge (before ++ after) + left)
    (hmem : ∀ d' ∈ deliveries, (d' ∈ before ++ after) ∨ d'.binding = d.binding ∧
      ∀ p, d'.pending = some p → p.Covers e.routes) : Inv e { s with limits := l, deliveries } := by
  have hsub : ∀ d' ∈ before ++ after, d' ∈ s.deliveries := fun d' hd' => by
    rw [hd]
    rcases mem_append.1 hd' with hd' | hd'
    · exact mem_append_left _ hd'
    · exact mem_append_right _ (mem_cons_of_mem _ hd')
  have hself : d ∈ s.deliveries := by
    rw [hd]
    exact mem_append_right _ mem_cons_self
  refine ⟨?_, h.count, h.routes, h.decoders, fun d' hd' p hp => ?_, fun b hb => h.holds b ?_, h.released⟩
  · have hold := h.used
    simp only [State.charge, hd, deliveriesCharge_middle] at hold
    have := hused (s.routes.charge + decodersCharge e s.decoders + deliveriesCharge (before ++ after) +
      (s.routes.bindings.length - s.released.length) * e.routes.entryBytes) (by omega)
    simp only [State.charge, hcharge]
    omega
  · rcases hmem d' hd' with hd' | ⟨-, hcovers⟩
    · exact h.deliveries d' (hsub d' hd') p hp
    · exact hcovers p hp
  · rcases hb with hb | hb | ⟨d', hd', rfl⟩ | hb
    · exact .inl hb
    · exact .inr (.inl hb)
    · rcases hmem d' hd' with hd' | ⟨hbinding, -⟩
      · exact .inr (.inr (.inl ⟨d', hsub d' hd', rfl⟩))
      · exact .inr (.inr (.inl ⟨d, hself, hbinding.symm⟩))
    · exact .inr (.inr (.inr hb))

omit h

theorem releaseBatch_charge {P : Prop} {d : Delivery} {rest : Nat} (hused : l.used = rest + batchCharge d.pending) :
    Meets P (Pipeline.State.releaseBatch l d) fun l' => l'.used = rest := by
  unfold Pipeline.State.releaseBatch
  cases hpending : d.pending with
  | none =>
    rw [hpending] at hused
    exact .pure hused
  | some =>
    rw [hpending] at hused
    exact Limits.drop_spec hused

theorem Inv.used_binding (h : Inv e s) {id : Nat} (hid : id < s.routes.bindings.length) (hlive : id ∉ s.released) :
    s.released.length < s.routes.bindings.length ∧
      s.limits.used = s.routes.charge + decodersCharge e s.decoders + deliveriesCharge s.deliveries +
        (s.routes.bindings.length - (s.released.length + 1)) * e.routes.entryBytes + e.routes.entryBytes := by
  have hlt : s.released.length < s.routes.bindings.length := by
    have hsub : (id :: s.released).toFinset ⊆ Finset.range s.routes.bindings.length := fun x hx => by
      rcases mem_cons.1 (List.mem_toFinset.1 hx) with rfl | hx
      · exact Finset.mem_range.2 hid
      · exact Finset.mem_range.2 (h.released.2 x hx)
    have hcard := Finset.card_le_card hsub
    rwa [toFinset_card_of_nodup (nodup_cons.2 ⟨hlive, h.released.1⟩), Finset.card_range] at hcard
  have hsucc : s.routes.bindings.length - s.released.length =
      s.routes.bindings.length - (s.released.length + 1) + 1 := by omega
  refine ⟨hlt, ?_⟩
  rw [h.used, State.charge, hsucc, add_mul, Nat.one_mul]
  omega

/-- **Every step keeps the budget and the leases in step.** -/
theorem Step.inv (h : Inv e s) (hstep : Step e s s') : Inv e s' := by
  cases hstep with
  | route hroute => exact h.route hroute
  | @finish b _ _ hb hfinish =>
    exact h.keepRoutes ((Routes.finish_charge (P := True) (h.holds b hb).2.2 h.charged).post hfinish) fun c =>
      Routes.finish_binds hfinish
  | @expireRoutes _ now _ _ hexpire =>
    have hi := (Routes.expire_eq hexpire).1
    exact h.keepRoutes ((Routes.expire_charge (P := True) hi h.charged now).post hexpire) fun c =>
      Routes.expire_binds hexpire
  | @discardPending _ key _ _ _ hremove =>
    obtain ⟨_, hlock, -⟩ := bind_eq_some_iff.1 hremove
    have hi := (Routes.lock_eq_some hlock).1
    exact h.keepRoutes ((Routes.remove_charge (P := True) hi h.charged key).post hremove) fun c =>
      Routes.remove_binds hremove
  | @nextFrame _ _ d p _ _ hd hp hframes =>
    refine h.setDeliveries hd p.held (fun rest hused => ?_) ?_ fun d' hd' => ?_
    · rwa [hp] at hused
    · rw [deliveriesCharge_middle]
      rfl
    · rcases mem_append.1 hd' with hd' | hd'
      · exact .inl (mem_append_left _ hd')
      · rcases mem_cons.1 hd' with rfl | hd'
        · refine .inr ⟨rfl, fun q hq => ?_⟩
          cases hq
          have hcovers := h.deliveries d (by rw [hd]; exact mem_append_right _ mem_cons_self) p hp
          rw [Pending.Covers, hframes] at hcovers
          simp only [Pending.Covers, allocations, map_cons, sum_cons] at hcovers ⊢
          omega
        · exact .inl (mem_append_right _ hd')
  | @dropPending _ _ _ _ hd hrelease =>
    refine h.setDeliveries hd 0 (fun rest hused => (releaseBatch_charge (P := True) hused).post hrelease) ?_ fun d' hd' => ?_
    · rw [deliveriesCharge_middle]
      rfl
    · rcases mem_append.1 hd' with hd' | hd'
      · exact .inl (mem_append_left _ hd')
      · rcases mem_cons.1 hd' with rfl | hd'
        · exact .inr ⟨rfl, fun q hq => by cases hq⟩
        · exact .inl (mem_append_right _ hd')
  | @dropDelivery _ _ _ _ hd hrelease =>
    exact h.setDeliveries hd 0 (fun rest hused => (releaseBatch_charge (P := True) hused).post hrelease) rfl fun d' => .inl
  | @decode w now data _ _ _ hw hdecode =>
    refine h.setDecoder hw (fun rest hw => ?_) fun b hb => .inr (.inl ⟨w, Decoder.decode_binds hdecode hb⟩)
    exact (Decoder.decode_charge rfl hw data now).post hdecode
  | @decodeFragment w now data b _ _ _ hw hb hdecode =>
    refine h.setDecoder hw (fun rest hw => ?_) fun c hc => ?_
    · exact (Decoder.decodeFragment_charge rfl hw data now b _).post hdecode
    · rcases Decoder.decodeFragment_binds hdecode hc with hc | rfl
      · exact .inr (.inl ⟨w, hc⟩)
      · exact hb
  | @expireDecoder w now _ _ hw hexpire =>
    refine h.setDecoder hw (fun rest hw => ?_) fun b hb => .inr (.inl ⟨w, Decoder.expire_binds hexpire hb⟩)
    exact (Decoder.expire_charge (P := True) rfl hw now).post hexpire
  | @discardOldest w key a d l hw _ ha hremove =>
    have hdecoder : Inv e { s with limits := l, decoders := update s.decoders w d } := by
      refine h.setDecoder hw (fun rest hw => ?_) fun b hb => .inr (.inl ⟨w, Decoder.remove_binds hremove hb⟩)
      exact (Decoder.remove_charge (P := True) rfl hw key).post hremove
    refine ⟨hdecoder.used, hdecoder.count, hdecoder.routes, hdecoder.decoders, hdecoder.deliveries, fun b hb => ?_,
      hdecoder.released⟩
    rcases hb with hb | hb | hb | hb
    · exact hdecoder.holds b (.inl hb)
    · exact hdecoder.holds b (.inr (.inl hb))
    · exact hdecoder.holds b (.inr (.inr (.inl hb)))
    · rcases mem_append.1 hb with hb | hb
      · exact hdecoder.holds b (.inr (.inr (.inr hb)))
      · exact h.holds b (.inr (.inl ⟨w, key, a, ha, mem_toList.1 hb⟩))
  | @dropHand _ _ _ hb =>
    refine ⟨h.used, h.count, h.routes, h.decoders, h.deliveries, fun c hc => h.holds c ?_, h.released⟩
    refine hc.imp id (Or.imp id (Or.imp id fun hc => ?_))
    rw [hb]
    rcases mem_append.1 hc with hc | hc
    · exact mem_append_left _ hc
    · exact mem_append_right _ (mem_cons_of_mem _ hc)
  | headroom => exact ⟨h.used, h.count, h.routes, h.decoders, h.deliveries, h.holds, h.released⟩
  | @dropBinding _ _ hid hlive hlast hdrop =>
    obtain ⟨-, hused⟩ := h.used_binding hid hlive
    refine ⟨(Limits.drop_spec (P := True) hused).post hdrop, h.count, h.routes, h.decoders, h.deliveries,
      fun b hb => ?_, ?_, fun x hx => ?_⟩
    · obtain ⟨hlt, hnot, hshard⟩ := h.holds b hb
      exact ⟨hlt, fun hmem => (mem_cons.1 hmem).elim (hlast b hb) hnot, hshard⟩
    · exact nodup_cons.2 ⟨hlive, h.released.1⟩
    · rcases mem_cons.1 hx with rfl | hx
      · exact hid
      · exact h.released.2 x hx

theorem Reachable.inv (h : Reachable e s) : Inv e s := by
  induction h with
  | new initial now => exact .new e initial now
  | step _ hstep ih => exact hstep.inv ih

/-! ## What the invariant gives -/

structure Returns (e : PipelineEnv A) (s : State A) : Prop where
  route : ∀ shard key firstOwner (frame : Frame) now, shard < e.workers →
    frame.received.bytes.length ≤ frame.received.allocationSize →
    s.routes.route e.routes s.limits shard key firstOwner frame now ≠ none
  finish : ∀ b, s.Holds b → s.routes.finish s.limits b ≠ none
  expireRoutes : ∀ shard now, shard < e.workers → s.routes.expire s.limits shard now ≠ none
  discardPending : ∀ shard key, shard < e.workers → s.routes.remove s.limits shard key ≠ none
  releaseBatch : ∀ d ∈ s.deliveries, Pipeline.State.releaseBatch s.limits d ≠ none
  decode : ∀ w data now, w < e.workers → Decoder.Accepts e.decoder data →
    (s.decoders w).decode e.decoder s.limits data now ≠ none
  decodeFragment : ∀ w data now b, w < e.workers → Decoder.Accepts e.decoder data →
    (∀ p, (parse e.wire data).result = .ok p → p.fragmentKey = some b.key) →
    (s.decoders w).decodeFragment e.decoder s.limits data now b (s.routes.active b.id) ≠ none
  expireDecoder : ∀ w now, w < e.workers → (s.decoders w).expire e.decoder s.limits now ≠ none
  discardOldest : ∀ w key, w < e.workers → (s.decoders w).remove e.decoder s.limits key ≠ none
  dropBinding : ∀ id, id < s.routes.bindings.length → id ∉ s.released → s.limits.drop e.routes.entryBytes ≠ none

theorem Inv.returns (h : Inv e s) : Returns e s where
  route shard key firstOwner frame now hshard hframe :=
    (Routes.route_charge (h.count.symm ▸ hshard) h.charged key firstOwner frame now).returns hframe
  finish b hb := (Routes.finish_charge (h.holds b hb).2.2 h.charged).returns trivial
  expireRoutes shard now hshard := (Routes.expire_charge (h.count.symm ▸ hshard) h.charged now).returns trivial
  discardPending shard key hshard := (Routes.remove_charge (h.count.symm ▸ hshard) h.charged key).returns trivial
  releaseBatch d hd := by
    obtain ⟨before, after, hsplit⟩ := append_of_mem hd
    have hused : s.limits.used = s.routes.charge + decodersCharge e s.decoders + deliveriesCharge (before ++ after) +
        (s.routes.bindings.length - s.released.length) * e.routes.entryBytes + batchCharge d.pending := by
      rw [h.used, State.charge, hsplit, deliveriesCharge_middle]
      omega
    exact (releaseBatch_charge hused).returns trivial
  decode w data now hw hdata := by
    obtain ⟨rest, hcharged, -⟩ := h.decoder hw
    exact (Decoder.decode_charge rfl hcharged data now).returns hdata
  decodeFragment w data now b hw hdata hkey := by
    obtain ⟨rest, hcharged, -⟩ := h.decoder hw
    exact (Decoder.decodeFragment_charge rfl hcharged data now b _).returns ⟨hdata, hkey⟩
  expireDecoder w now hw := by
    obtain ⟨rest, hcharged, -⟩ := h.decoder hw
    exact (Decoder.expire_charge rfl hcharged now).returns trivial
  discardOldest w key hw := by
    obtain ⟨_, hcharged, -⟩ := h.decoder hw
    exact (Decoder.remove_charge rfl hcharged key).returns trivial
  dropBinding id hid hlive := (Limits.drop_spec (h.used_binding hid hlive).2).returns trivial

/-- No entry, assembly or delivery is left, and no binding that `discard_oldest` returned. -/
structure State.Empty (s : State A) : Prop where
  routes : ∀ i k, (s.routes.shards i).entries.lookup k = none
  decoders : ∀ w k, (s.decoders w).fragments.lookup k = none
  deliveries : s.deliveries = []
  hands : s.hands = []

def State.Settled (s : State A) : Prop :=
  ∀ id < s.routes.bindings.length, (∀ b, s.Holds b → b.id ≠ id) → id ∈ s.released

theorem State.Empty.not_holds (h : s.Empty) (b : Binding) : ¬ s.Holds b := by
  rintro (⟨i, k, x, hx, -⟩ | ⟨w, k, a, ha, -⟩ | ⟨d, hd, -⟩ | hb)
  · rw [h.routes i k] at hx
    cases hx
  · rw [h.decoders w k] at ha
    cases ha
  · rw [h.deliveries] at hd
    cases hd
  · rw [h.hands] at hb
    cases hb

theorem Inv.used_eq_zero (h : Inv e s) (hempty : s.Empty) (hsettled : s.Settled) : s.limits.used = 0 := by
  have hroutes : s.routes.charge = 0 := by
    unfold Routes.charge Routes.total
    refine Finset.sum_eq_zero fun i _ => total_eq_zero fun k x hx => ?_
    rw [hempty.routes i k] at hx
    cases hx
  have hdecoders : decodersCharge e s.decoders = 0 := by
    refine Finset.sum_eq_zero fun w _ => total_eq_zero fun k a ha => ?_
    rw [hempty.decoders w k] at ha
    cases ha
  have hlive : s.routes.bindings.length ≤ s.released.length := by
    have hsub : Finset.range s.routes.bindings.length ⊆ s.released.toFinset := fun id hid =>
      List.mem_toFinset.2 (hsettled id (Finset.mem_range.1 hid) fun b hb => absurd hb (hempty.not_holds b))
    have hcard := Finset.card_le_card hsub
    rwa [toFinset_card_of_nodup h.released.1, Finset.card_range] at hcard
  rw [h.used, State.charge, hroutes, hdecoders, hempty.deliveries, Nat.sub_eq_zero_of_le hlive]
  simp [deliveriesCharge]

/-- The budget in use is what the entries, batches and assemblies hold. -/
structure Accounted (e : PipelineEnv A) (s : State A) : Prop where
  used : s.limits.used = s.charge e
  assemblies : ∀ w k a, (s.decoders w).fragments.lookup k = some a → a.held = e.metadata + a.capacity
  batches : ∀ i k x p, (s.routes.shards i).entries.lookup k = some x → x.pending = some p → p.Covers e.routes
  deliveries : ∀ d ∈ s.deliveries, ∀ p, d.pending = some p → p.Covers e.routes
  bindings : ∀ b, s.Holds b → b.id < s.routes.bindings.length ∧ b.id ∉ s.released
  returns : Returns e s
  empty : s.Empty → s.Settled → s.limits.used = 0

structure Admitting : Prop where
  admits : ∀ (l l' : Limits) (held bytes now : Nat), l.resize held bytes now = some (true, l') → held < bytes →
    l'.used = l.used - held + bytes ∧ l'.used ≤ (l.capacity.target now).1
  refuses : ∀ (l l' : Limits) (held bytes now : Nat), l.resize held bytes now = some (false, l') → l'.used = l.used
  balanced : ∀ (initial start : Nat) (b : Book), Book.Reachable initial start b →
    b.limits.used = Book.total b.leases ∧ ∀ lease held, b.leases.lookup lease = some held →
      (∀ bytes now, ∃ result, b.limits.resize held bytes now = some result) ∧ ∃ l, b.limits.drop held = some l

/-- **The memory of fragments is accounted for in every run**, of any number of workers. -/
theorem Reachable.memory_accounted (h : Reachable e s) : Accounted e s ∧ Admitting where
  left := {
    used := h.inv.used
    assemblies := h.inv.decoders
    batches := fun i k x p hx hp => (h.inv.routes i k x p hx hp).covers
    deliveries := h.inv.deliveries
    bindings := fun b hb => ⟨(h.inv.holds b hb).1, (h.inv.holds b hb).2.1⟩
    returns := h.inv.returns
    empty := h.inv.used_eq_zero }
  right := ⟨fun _ _ _ _ _ => Limits.resize_admits, fun _ _ _ _ _ => Limits.resize_refused,
    fun _ _ _ => Book.Reachable.balanced⟩

/-- A fragment is routed to the second worker, which decodes it: binding and assembly are charged. -/
theorem Reachable.memory_accounted_fragment : ∃ (s : State Ranges) (b : Binding),
    Reachable Pipeline.octetsPipeline s ∧ s.Holds b ∧ s.limits.used = 512 + (512 + 16) ∧
    Accounted Pipeline.octetsPipeline s ∧ Admitting := by
  have hsteps : ∃ p key d r l, (parse octets Pipeline.ipv6First.bytes).result = .ok p ∧ p.fragmentKey = some key ∧
      (Routes.new 2).route Pipeline.octetsPipeline.routes (Limits.new 4096 0) 0 key (some 1) ⟨Pipeline.ipv6First, 0⟩ 1 =
        some (.delivery d, r, l) ∧
      ∃ reply d' l', (Decoder.new : Decoder Ranges).decodeFragment Pipeline.octetsPipeline.decoder l
        Pipeline.ipv6First.bytes 2 d.binding (r.active d.binding.id) = some (reply, d', l') ∧ l'.used = 512 + (512 + 16) :=
    ⟨_, _, _, _, _, rfl, rfl, rfl, _, _, _, rfl, rfl⟩
  obtain ⟨_, _, d, r, l, -, -, hroute, _, _, _, hdecode, hused⟩ := hsteps
  have hrouted := (Reachable.new 4096 0).step (Step.route (e := Pipeline.octetsPipeline) hroute)
  have hholds : State.Holds (A := Ranges) ⟨l, r, fun _ => Decoder.new, [d], [], []⟩ d.binding :=
    .inr (.inr (.inl ⟨d, mem_singleton_self d, rfl⟩))
  have hreach := hrouted.step (Step.decodeFragment (w := 1) (by decide) hholds hdecode)
  exact ⟨_, d.binding, hreach, .inr (.inr (.inl ⟨d, mem_singleton_self d, rfl⟩)), hused,
    hreach.memory_accounted⟩

end Accounts

end Kotoconn.Tun
