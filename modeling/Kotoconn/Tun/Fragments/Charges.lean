import Kotoconn.Lib.Loop
import Kotoconn.Tun.Fragments.Bound

/-!
# What the calls charge

Each call is followed with the leases of its owner: if the budget holds them and `rest` for everybody else before a
call, then it holds those left after the call and the same `rest`. So no lease operation of a call underflows.
-/

namespace Kotoconn.Tun

open Lib Protocol List Table

/-! ## One lease -/

namespace Limits
variable {s s' : Limits} {rest held bytes now : Nat}

/-- A resize leaves the lease at the new size or, when it is refused, at the old one. A lease can always shrink. -/
theorem resize_spec (h : s.used = rest + held) (bytes now : Nat) : Meets P (s.resize held bytes now) fun x =>
    (x.1 = true → x.2.used = rest + bytes) ∧ (x.1 = false → x.2.used = rest + held) ∧ (bytes ≤ held → x.1 = true) := by
  have hle := s.used_le
  have htotal : s.used - held + bytes = rest + bytes := by omega
  unfold Limits.resize
  rw [if_neg (by omega)]
  simp only [htotal]
  split_ifs with hmax hgrow htarget
  · exact .pure ⟨by simp, fun _ => h, fun hb => absurd hgrow (not_lt.2 hb)⟩
  · exact .pure ⟨fun _ => rfl, by simp, fun _ => rfl⟩
  · exact .pure ⟨fun _ => rfl, by simp, fun _ => rfl⟩
  · exact .pure ⟨by simp, fun _ => h, fun hb => absurd hmax (by omega)⟩

theorem drop_spec (h : s.used = rest + held) : Meets P (s.drop held) fun s' => s'.used = rest := by
  unfold Limits.drop
  rw [if_neg (by omega)]
  exact .pure (show s.used - held = rest by omega)

/-- **A lease grows only within the target of that moment.** -/
theorem resize_admits (h : s.resize held bytes now = some (true, s')) (hgrow : held < bytes) :
    s'.used = s.used - held + bytes ∧ s'.used ≤ (s.capacity.target now).1 := by
  unfold Limits.resize at h
  simp only [if_pos hgrow] at h
  split_ifs at h with hunder hmax htarget
  · cases h
  · cases h
    exact ⟨rfl, Nat.not_lt.1 htarget⟩
  · cases h

theorem resize_refused (h : s.resize held bytes now = some (false, s')) : s'.used = s.used := by
  unfold Limits.resize at h
  simp only at h
  split_ifs at h <;> cases h <;> rfl

end Limits

/-! ## All leases of a budget -/

/-- The leases of a budget, by identity. Only its owner operates on a lease, and each operation holds the lock. -/
structure Book where
  limits : Limits
  leases : Table Nat Nat

namespace Book

def new (initial now : Nat) : Book := ⟨Limits.new initial now, ∅⟩

inductive Step (b : Book) : Book → Prop
  | reserve {id bytes now : Nat} {l : Limits} (hid : b.leases.lookup id = none)
      (h : b.limits.resize 0 bytes now = some (true, l)) : Step b ⟨l, b.leases.insert id bytes⟩
  | refuse {bytes now : Nat} {l : Limits} (h : b.limits.resize 0 bytes now = some (false, l)) : Step b ⟨l, b.leases⟩
  | resize {id held bytes now : Nat} {ok : Bool} {l : Limits} (hid : b.leases.lookup id = some held)
      (h : b.limits.resize held bytes now = some (ok, l)) :
      Step b ⟨l, if ok then b.leases.insert id bytes else b.leases⟩
  | complete {id held now : Nat} (hid : b.leases.lookup id = some held) :
      Step b ⟨b.limits.complete held now, b.leases⟩
  | drop {id held : Nat} {l : Limits} (hid : b.leases.lookup id = some held) (h : b.limits.drop held = some l) :
      Step b ⟨l, b.leases.erase id⟩
  | headroom {now : Nat} : Step b ⟨(b.limits.needsHeadroom now).2, b.leases⟩

inductive Reachable (initial now : Nat) : Book → Prop
  | new : Reachable initial now (new initial now)
  | step {b b' : Book} (h : Reachable initial now b) (hstep : b.Step b') : Reachable initial now b'

def total (leases : Table Nat Nat) : Nat := Table.total (fun bytes => bytes) leases

variable {b b' : Book} {initial now : Nat}

theorem used_eq (h : b.limits.used = total b.leases) {lease held : Nat} (hlease : b.leases.lookup lease = some held) :
    b.limits.used = total (b.leases.erase lease) + held := by
  rw [h, total, total_erase _ hlease, add_comm]
  rfl

theorem Step.used_eq_total (h : b.limits.used = total b.leases) (hstep : b.Step b') :
    b'.limits.used = total b'.leases := by
  cases hstep with
  | @reserve _ bytes now _ hlease hresize =>
    rw [total, total_insert_vacant _ hlease, add_comm]
    exact ((Limits.resize_spec (P := True) (h.trans (add_zero _).symm) bytes now).post hresize).1 rfl
  | refuse hresize => exact (Limits.resize_refused hresize).trans h
  | @resize lease _ bytes now ok l hlease hresize =>
    have hused := ((Limits.resize_spec (P := True) (used_eq h hlease) bytes now).post hresize).1
    cases ok with
    | true =>
      show l.used = total (b.leases.insert lease bytes)
      rw [total, total_insert, add_comm]
      exact hused rfl
    | false => exact (Limits.resize_refused hresize).trans h
  | complete => exact h
  | drop hlease hdrop => exact (Limits.drop_spec (P := True) (used_eq h hlease)).post hdrop
  | headroom => exact h

/-- **Whatever the owners do, the budget holds the bytes of the live leases**, so no operation on one underflows. -/
theorem Reachable.balanced (h : Reachable initial now b) : b.limits.used = total b.leases ∧
    ∀ lease held, b.leases.lookup lease = some held →
      (∀ bytes time, ∃ result, b.limits.resize held bytes time = some result) ∧ ∃ l, b.limits.drop held = some l := by
  have hused : b.limits.used = total b.leases := by
    induction h with
    | new => rfl
    | step _ hstep ih => exact hstep.used_eq_total ih
  refine ⟨hused, fun lease held hlease => ⟨fun bytes time => ?_, ?_⟩⟩
  · exact Option.ne_none_iff_exists'.1 ((Limits.resize_spec (P := True) (used_eq hused hlease) bytes time).returns trivial)
  · exact Option.ne_none_iff_exists'.1 ((Limits.drop_spec (P := True) (used_eq hused hlease)).returns trivial)

end Book

/-! ## Decoders -/

variable {A : Type}

def Assembly.Covered (metadata : Nat) (a : Assembly A) : Prop := a.held = metadata + a.capacity

namespace Decoder

def charge (d : Decoder A) : Nat := Table.total Assembly.held d.fragments

def Covered (metadata : Nat) (d : Decoder A) : Prop := ∀ k a, d.fragments.lookup k = some a → a.Covered metadata

theorem charge_new : (new : Decoder A).charge = 0 := rfl

theorem covered_new (metadata : Nat) : (new : Decoder A).Covered metadata := fun k a h => by simp [Decoder.new] at h

end Decoder

/-- The debug assertions of `reassemble` on its fragment. -/
def Fragment.Checked (fragment : Fragment) : Prop :=
  fragment.prefixLen ≤ 65535 ∧ fragment.offset ≤ 0xfff8 ∧ fragment.offset % 8 = 0

def Parsed.Checked (p : Parsed) : Prop :=
  ∀ fragment key, p.fragment = some fragment → p.fragmentKey = some key → fragment.Checked

section Decoder
variable {e : DecoderEnv Limits A} {d : Decoder A} {l : Limits} {rest : Nat} {P : Prop}

/-- The budget holds the decoder's leases, each for its assembly, and `rest`. -/
structure Decoder.Charged (e : DecoderEnv Limits A) (rest : Nat) (d : Decoder A) (l : Limits) : Prop where
  covered : d.Covered e.metadata
  used : l.used = rest + d.charge

variable (he : e.leases = Limits.leases)
include he

theorem DecoderEnv.resize_spec {held : Nat} (h : l.used = rest + held) (bytes now : Nat) :
    Meets P (e.leases.resize l held bytes now) fun x => (x.1 = true → x.2.used = rest + bytes) ∧
      (x.1 = false → x.2.used = rest + held) ∧ (bytes ≤ held → x.1 = true) := by
  rw [he]
  exact Limits.resize_spec h bytes now

theorem DecoderEnv.drop_spec {held : Nat} (h : l.used = rest + held) :
    Meets P (e.leases.drop l held) fun l' => l'.used = rest := by
  rw [he]
  exact Limits.drop_spec h

namespace Assembly
variable {a : Assembly A}

theorem poison_charge (ha : a.Covered e.metadata) (h : l.used = rest + a.held) (now : Nat) :
    Meets P (a.poison e l now) fun x => x.1.Covered e.metadata ∧ x.2.used = rest + x.1.held := by
  refine (e.resize_spec he h e.metadata now).bind fun (ok, l) ⟨hused, _, hshrink⟩ => ?_
  obtain rfl : ok = true := hshrink (by rw [ha]; omega)
  exact .pure ⟨rfl, hused rfl⟩

theorem grow_charge (h : l.used = rest + a.held) (stop now : Nat) : Meets P (a.grow e l stop now) fun x =>
    x.2.used = rest + x.1.elim 0 Assembly.held ∧ ∀ b, x.1 = some b → b.Covered e.metadata := by
  have hnone : ∀ {l : Limits} {held : Nat}, l.used = rest + held →
      Meets P (e.leases.drop l held >>= fun l => some (none, l)) fun x : Option (Assembly A) × Limits =>
        x.2.used = rest + x.1.elim 0 Assembly.held ∧ ∀ b, x.1 = some b → b.Covered e.metadata := fun h =>
    (e.drop_spec he h).bind fun _ hrest => .pure ⟨hrest, nofun⟩
  refine (e.resize_spec he h _ now).bind fun (ok, l) ⟨hgranted, hrefused, _⟩ => ?_
  cases ok with
  | false => exact hnone (hrefused rfl)
  | true =>
    refine (e.resize_spec he (hgranted rfl) _ now).bind fun (ok, l) ⟨hgranted, hrefused, _⟩ => ?_
    cases ok with
    | false => exact hnone (hrefused rfl)
    | true =>
      refine .pure ⟨hgranted rfl, fun b hb => ?_⟩
      cases hb
      rfl

omit he

theorem raisePrefix_held (a : Assembly A) (c : Copied) : (a.raisePrefix c).held = a.held := by
  rw [Assembly.raisePrefix_eq]

theorem Covered.raisePrefix {metadata : Nat} (h : a.Covered metadata) (c : Copied) :
    (a.raisePrefix c).Covered metadata := by
  rw [Assembly.raisePrefix_eq]
  exact h

end Assembly

namespace Decoder
variable {key : FragmentKey} {a : Assembly A}

omit he in
theorem Covered.insert {metadata : Nat} (hd : d.Covered metadata) (ha : a.Covered metadata) (next : Option Nat) :
    Covered metadata ⟨d.fragments.insert key a, next⟩ := by
  intro k b hb
  rcases lookup_insert_iff.1 hb with ⟨-, rfl⟩ | ⟨-, hb⟩
  · exact ha
  · exact hd k b hb

omit he in
theorem charge_erase (ha : d.fragments.lookup key = some a) :
    d.charge = Table.total Assembly.held (d.fragments.erase key) + a.held :=
  (total_erase Assembly.held ha).trans (add_comm _ _)

omit he in
theorem Charged.insert (h : d.Charged e rest l) (ha : a.Covered e.metadata) {l' : Limits} (next : Option Nat)
    (hused : l'.used = rest + Table.total Assembly.held (d.fragments.erase key) + a.held) :
    Charged e rest ⟨d.fragments.insert key a, next⟩ l' :=
  ⟨h.covered.insert ha _, by rw [hused, add_assoc, add_comm _ a.held]; rfl⟩

omit he in
theorem Charged.erase (h : d.Charged e rest l) {l' : Limits} (next : Option Nat)
    (hused : l'.used = rest + Table.total Assembly.held (d.fragments.erase key)) :
    Charged e rest ⟨d.fragments.erase key, next⟩ l' :=
  ⟨fun k b hb => h.covered k b (lookup_erase_iff.1 hb).2, hused⟩

theorem dropAll_charge (removed : List (Assembly A)) {l : Limits}
    (h : l.used = rest + (removed.map Assembly.held).sum) : Meets P (dropAll e l removed) fun l' => l'.used = rest := by
  induction removed generalizing l with
  | nil => exact .pure h
  | cons _ _ ih =>
    rw [map_cons, sum_cons, ← add_assoc, add_right_comm] at h
    rw [dropAll, foldlM_cons]
    exact (e.drop_spec he h).bind fun _ hused => ih hused

theorem expire_charge (h : d.Charged e rest l) (now : Nat) :
    Meets P (d.expire e l now) fun x => x.1.Charged e rest x.2 := by
  unfold expire
  split_ifs
  · have hused := h.used
    rw [charge, total_retain Assembly.held d.fragments fun a => now < a.expires, ← add_assoc] at hused
    refine (dropAll_charge he _ hused).bind fun _ hrest => .pure ⟨fun k a ha => ?_, hrest⟩
    exact h.covered k a (lookup_retain.1 ha).1
  · exact .pure h

theorem remove_charge (h : d.Charged e rest l) (key : FragmentKey) :
    Meets P (d.remove e l key) fun x => x.1.Charged e rest x.2 := by
  unfold remove
  cases hkey : d.fragments.lookup key with
  | none => exact .pure h
  | some =>
    have hused := h.used
    rw [charge_erase hkey, ← add_assoc] at hused
    exact (e.drop_spec he hused).bind fun _ hrest => .pure (h.erase _ hrest)

theorem enter_charge (h : d.Charged e rest l) (c : Copied) : Meets P (d.enter e l c) fun x =>
    x.2.1.Charged e rest x.2.2 ∧ ∀ a, x.1 = some a → x.2.1.fragments.lookup c.key = some a := by
  unfold enter
  cases hkey : d.fragments.lookup c.key with
  | some => exact .pure ⟨h, fun b hb => hb ▸ hkey⟩
  | none =>
    refine (e.resize_spec he (h.used.trans (add_zero _).symm) e.metadata c.arrived).bind
      fun (ok, l) ⟨hgranted, hrefused, _⟩ => ?_
    cases ok with
    | false => exact .pure ⟨⟨h.covered, hrefused rfl⟩, nofun⟩
    | true =>
      refine .pure ⟨h.insert (a := Assembly.new e c) rfl _ ?_, fun a ha => ?_⟩
      · rw [Table.erase_vacant hkey]
        exact hgranted rfl
      · cases ha
        exact AList.lookup_insert _

/-- The fragment is merged into its assembly; whatever becomes of it, its lease does too. -/
theorem merge_charge (h : d.Charged e rest l) {c : Copied} (ha : d.fragments.lookup c.key = some a) :
    Meets P (d.merge e l a c) fun x => x.2.1.Charged e rest x.2.2 := by
  have hcovered := h.covered c.key a ha
  have hused := h.used
  rw [charge_erase ha, ← add_assoc, ← a.raisePrefix_held c] at hused
  unfold merge
  simp only
  split_ifs
  · exact (Assembly.poison_charge he (hcovered.raisePrefix c) hused c.arrived).bind fun _ hb =>
      .pure (h.insert hb.1 _ hb.2)
  · refine (Assembly.grow_charge he hused _ c.arrived).bind fun (grown, l) ⟨hused, hgrown⟩ => ?_
    cases grown with
    | none => exact .pure (h.erase _ hused)
    | some g =>
      have hg := hgrown g rfl
      simp only
      cases e.assembler.add g.ranges c.offset c.data.length with
      | none => exact (Assembly.poison_charge he hg hused c.arrived).bind fun _ hb => .pure (h.insert hb.1 _ hb.2)
      | some ranges =>
        simp only
        split_ifs
        · exact .pure (h.insert (a := g.store ranges c) hg _ hused)
        · have hcomplete : (e.leases.complete l (g.store ranges c).held c.arrived).used = l.used := by
            rw [he]
            rfl
          exact (e.drop_spec he (hcomplete.trans hused)).bind fun _ hrest => .pure (h.erase _ hrest)

theorem reassemble_charge (h : d.Charged e rest l) (key : FragmentKey) (protocol : IpProtocol) (fragment : Fragment)
    (data : Bytes) (now : Nat) (binding : Option Binding) :
    Meets fragment.Checked (d.reassemble e l key protocol fragment data now binding) fun x =>
      x.2.1.Charged e rest x.2.2 := by
  refine .assert id ((expire_charge he h now).bind fun (d, l) h => (enter_charge he h _).bind ?_)
  rintro ⟨found, _, _⟩ ⟨h, hfound⟩
  cases found with
  | none => exact .pure h
  | some a =>
    simp only
    split_ifs
    · exact .pure h
    · exact merge_charge he h (hfound a rfl)

theorem decodeWith_charge (h : d.Charged e rest l) (p : Parsed) (now : Nat) (binding : Option Binding) :
    Meets p.Checked (p.decodeWith e d l now binding) fun x => x.2.1.Charged e rest x.2.2 := by
  unfold Parsed.decodeWith
  split
  · rename_i fragment key hfragment hkey
    exact ((reassemble_charge he h key _ fragment ..).weaken fun hp => hp fragment key hfragment hkey).bind
      fun _ h => .pure h
  · exact .pure h

/-- The assertions that `decode` makes of a frame. -/
def Accepts (e : DecoderEnv Limits A) (data : Bytes) : Prop :=
  (parse e.wire data).result ≠ .panic ∧ ∀ p, (parse e.wire data).result = .ok p → p.Checked

theorem decode_charge (h : d.Charged e rest l) (data : Bytes) (now : Nat) :
    Meets (Accepts e data) (d.decode e l data now) fun x => x.2.1.Charged e rest x.2.2 := by
  unfold decode
  cases hparse : (parse e.wire data).result with
  | panic => exact .fail fun hdata => hdata.1 hparse
  | reject => exact .pure h
  | ok p => exact (decodeWith_charge he h p now none).weaken fun hdata => hdata.2 p hparse

theorem decodeFragment_charge (h : d.Charged e rest l) (data : Bytes) (now : Nat) (b : Binding) (active : Bool) :
    Meets (Accepts e data ∧ ∀ p, (parse e.wire data).result = .ok p → p.fragmentKey = some b.key)
      (d.decodeFragment e l data now b active) fun x => x.2.1.Charged e rest x.2.2 := by
  have hevict : ∀ {P : Prop}, Meets P (d.evictForeign e l b) fun x => x.1.Charged e rest x.2 := by
    intro P
    unfold evictForeign
    split_ifs
    · exact remove_charge he h b.key
    · exact .pure h
  unfold decodeFragment
  split_ifs
  · cases hparse : (parse e.wire data).result with
    | panic => exact .fail fun hdata => hdata.1.1 hparse
    | reject => exact .pure h
    | ok p =>
      refine .assert (fun hdata => hdata.2 p rfl) (hevict.bind fun _ h => ?_)
      exact (decodeWith_charge he h p now (some b)).weaken fun hdata => hdata.1.2 p hparse
  · exact .pure h

end Decoder

end Decoder

/-! ## Batches and entries -/

def allocations (frames : List Frame) : Nat := (frames.map fun frame => frame.received.allocationSize).sum

structure Pending.Covered (e : RoutesEnv) (p : Pending) : Prop where
  retained : p.retained = allocations p.frames
  held : p.held = p.retained + p.capacity * e.receivedBytes

def Pending.Covers (e : RoutesEnv) (p : Pending) : Prop :=
  allocations p.frames + p.capacity * e.receivedBytes ≤ p.held

theorem Pending.Covered.covers {e : RoutesEnv} {p : Pending} (h : p.Covered e) : p.Covers e := by
  rw [Pending.Covers, h.held, h.retained]

def batchCharge (pending : Option Pending) : Nat := pending.elim 0 Pending.held

def Entry.charge (x : Entry) : Nat := batchCharge x.pending

def Routes.charge (r : Routes) : Nat := r.total Entry.charge

def Routes.Covered (e : RoutesEnv) (r : Routes) : Prop :=
  ∀ i k x p, (r.shards i).entries.lookup k = some x → x.pending = some p → p.Covered e

def Routed.charge (out : Routed) : Nat := (out.result.map fun d => batchCharge d.pending).getD 0

section Routes
variable {e : RoutesEnv} {r : Routes} {l : Limits} {rest i now : Nat} {key : FragmentKey} {P : Prop}

/-- The assertion of `push` on its frame. -/
def Frame.Sized (frame : Frame) : Prop := frame.received.bytes.length ≤ frame.received.allocationSize

theorem Pending.push_charge {p : Pending} (hp : p.Covered e) (h : l.used = rest + p.held) (frame : Frame) (now : Nat) :
    Meets frame.Sized (p.push e l frame now) fun x => x.2.2.used = rest + x.2.1.held ∧ (x.1 = true → x.2.1.Covered e) := by
  refine .assert id ((Limits.resize_spec h _ now).bind fun (ok, l) ⟨hgranted, hrefused, _⟩ => ?_)
  cases ok with
  | false => exact .pure ⟨hrefused rfl, nofun⟩
  | true =>
    refine (Limits.resize_spec (hgranted rfl) _ now).bind fun (ok, l) ⟨hgranted, hrefused, _⟩ => ?_
    cases ok with
    | false => exact .pure ⟨hrefused rfl, nofun⟩
    | true =>
      refine .pure ⟨hgranted rfl, fun _ => ⟨?_, rfl⟩⟩
      rw [hp.retained]
      simp [allocations]

theorem Entry.dropAll_charge (gone : List Entry) {l : Limits} (h : l.used = rest + (gone.map Entry.charge).sum) :
    Meets P (Entry.dropAll l gone) fun l' => l'.used = rest := by
  induction gone generalizing l with
  | nil => exact .pure h
  | cons x _ ih =>
    rw [map_cons, sum_cons, ← add_assoc, add_right_comm] at h
    rw [Entry.dropAll, foldlM_cons]
    cases hpending : x.pending with
    | none =>
      rw [show x.charge = 0 by rw [Entry.charge, hpending]; rfl] at h
      exact ih h
    | some p =>
      rw [show x.charge = p.held by rw [Entry.charge, hpending]; rfl] at h
      exact (Limits.drop_spec h).bind fun _ hused => ih hused

namespace Routes

theorem charge_eq {x : Entry} (hi : i < r.count) (hx : (r.shards i).entries.lookup key = some x)
    (h : l.used = rest + r.charge) : l.used = rest + (r.erase i key x).charge + x.charge := by
  rw [h, charge, total_erase Entry.charge hi hx, ← add_assoc]
  rfl

theorem charge_set {x y : Entry} (hi : i < r.count) (hx : (r.shards i).entries.lookup key = some x) :
    (r.set i key y).charge = (r.erase i key x).charge + y.charge := by
  have herase := total_erase Entry.charge hi hx
  have hset := total_set Entry.charge hi hx (add_comm x.charge y.charge)
  unfold charge
  omega

theorem Covered.put (h : r.Covered e) {s : Shard} {gone : List Entry} (hd : Drops (r.shards i) gone s) :
    (r.put i s gone).Covered e := fun j k x p hx => h j k x p ((put_lookup hd).1 hx).1

theorem lookup_of_erase {x y : Entry} {j : Nat} {k : FragmentKey}
    (hy : ((r.erase i key x).shards j).entries.lookup k = some y) : (r.shards j).entries.lookup k = some y := by
  have hy : ((r.put i ⟨(r.shards i).entries.erase key, (r.shards i).nextExpiry⟩ [x]).shards j).entries.lookup k =
    some y := hy
  rw [put_shards] at hy
  split_ifs at hy with hj
  · subst hj
    exact (lookup_erase_iff.1 hy).2
  · exact hy

theorem Covered.erase (h : r.Covered e) (i : Nat) (key : FragmentKey) (x : Entry) : (r.erase i key x).Covered e :=
  fun j k y p hy => h j k y p (lookup_of_erase hy)

theorem Covered.set (h : r.Covered e) (i : Nat) (key : FragmentKey) {y : Entry}
    (hy : ∀ p, y.pending = some p → p.Covered e) : (r.set i key y).Covered e := by
  intro j k x p hx
  rcases set_lookup.1 hx with ⟨-, -, rfl⟩ | ⟨-, hx⟩
  · exact hy p
  · exact h j k x p hx

/-- What the routes are charged for while `rest` is charged elsewhere: their batches, and the bindings but for the
`dead` ones; `old` is an earlier state. -/
structure Charged (e : RoutesEnv) (r old : Routes) (dead rest : Nat) (l : Limits) : Prop where
  count : r.count = old.count
  grows : old.bindings.length ≤ r.bindings.length
  dead_le : dead ≤ r.bindings.length
  covered : r.Covered e
  used : l.used = rest + (r.bindings.length - dead) * e.entryBytes + r.charge

variable {old : Routes} {dead : Nat} (hi : i < old.count)
include hi

theorem Charged.lt (h : r.Charged e old dead rest l) : i < r.count := h.count.symm ▸ hi

theorem lock_meets (h : r.Charged e old dead rest l) {α : Type} {f : Shard → Option α} {Post : α → Prop}
    (hf : Meets P (f (r.shards i)) Post) : Meets P (r.lock i >>= f) Post := by
  rw [lock, if_pos (h.lt hi)]
  exact hf

theorem expire_charge (h : r.Charged e old dead rest l) (now : Nat) :
    Meets P (r.expire l i now) fun x => x.1.Charged e old dead rest x.2 := by
  have hused := h.used
  rw [charge, total_expire Entry.charge (h.lt hi) now, ← add_assoc] at hused
  exact lock_meets hi h ((Entry.dropAll_charge _ hused).bind fun _ hrest =>
    .pure ⟨h.count, h.grows, h.dead_le, h.covered.put (drops_expire _ _), hrest⟩)

theorem enter_charge (h : r.Charged e old dead rest l) (key : FragmentKey) (now : Nat) :
    Meets P (r.enter e l i key now) fun x => x.2.1.Charged e old dead rest x.2.2 ∧
      ∀ y, x.1 = some y → (x.2.1.shards i).entries.lookup key = some y := by
  unfold enter
  cases hkey : (r.shards i).entries.lookup key with
  | some => exact .pure ⟨h, fun y hy => hy ▸ hkey⟩
  | none =>
    refine (Limits.resize_spec (h.used.trans (add_zero _).symm) e.entryBytes now).bind
      fun (ok, l) ⟨hgranted, hrefused, _⟩ => ?_
    cases ok with
    | false => exact .pure ⟨⟨h.count, h.grows, h.dead_le, h.covered, hrefused rfl⟩, nofun⟩
    | true =>
      have hlength : (r.insertNew i key now).bindings.length = r.bindings.length + 1 := by simp [insertNew]
      have hcharge : (r.insertNew i key now).charge = r.charge := total_insertNew _ (h.lt hi) hkey now rfl
      refine .pure ⟨⟨h.count, ?_, ?_, fun j k x p hx hp => ?_, ?_⟩, fun y hy => ?_⟩
      · exact hlength ▸ Nat.le_succ_of_le h.grows
      · exact hlength ▸ Nat.le_succ_of_le h.dead_le
      · rcases insertNew_lookup.1 hx with ⟨-, -, rfl⟩ | ⟨-, hx⟩
        · cases hp
        · exact h.covered j k x p hx hp
      · rw [hgranted rfl, hcharge, hlength, Nat.succ_sub h.dead_le, Nat.succ_mul]
        omega
      · cases hy
        exact insertNew_lookup.2 (.inl ⟨rfl, rfl, rfl⟩)

variable {x : Entry} (hx : (r.shards i).entries.lookup key = some x)
include hx

theorem Charged.set (h : r.Charged e old dead rest l) {l' : Limits} {rest' : Nat} {y : Entry}
    (hy : ∀ p, y.pending = some p → p.Covered e)
    (hused : l'.used = rest' + (r.bindings.length - dead) * e.entryBytes + (r.erase i key x).charge + y.charge) :
    (r.set i key y).Charged e old dead rest' l' := by
  refine ⟨h.count, h.grows, h.dead_le, h.covered.set i key hy, ?_⟩
  rw [charge_set (h.lt hi) hx, hused, add_assoc]
  rfl

theorem retain_charge (h : r.Charged e old dead rest l) (frame : Frame) (now : Nat) :
    Meets frame.Sized (r.retain e l i key x frame now) fun y =>
      y.2.1.Charged e old dead rest y.2.2 ∧ y.1.result = none := by
  have hentry := charge_eq (h.lt hi) hx h.used
  obtain ⟨p, hp, hheld, hretain⟩ : ∃ p : Pending, p.Covered e ∧ x.charge = p.held ∧
      r.retain e l i key x frame now = (p.push e l frame now).bind (fun y =>
        if y.1 then some (.retained x.binding, r.set i key { x with pending := some y.2.1 }, y.2.2)
        else (y.2.2.drop y.2.1.held).bind fun l =>
          some (.overflow { x with pending := some y.2.1 }, r.erase i key x, l)) := by
    cases hpending : x.pending with
    | some p =>
      refine ⟨p, h.covered i key x p hx hpending, by rw [Entry.charge, hpending]; rfl, ?_⟩
      rw [retain, hpending]
      rfl
    | none =>
      refine ⟨.empty, ⟨rfl, by simp [Pending.empty]⟩, by rw [Entry.charge, hpending]; rfl, ?_⟩
      rw [retain, hpending]
      simp [Limits.resize_empty]
  rw [hheld] at hentry
  rw [hretain]
  refine (Pending.push_charge hp hentry frame now).bind ?_
  rintro ⟨pushed, p, l⟩ ⟨hused, hp⟩
  cases pushed with
  | true =>
    refine .pure ⟨h.set hi hx (fun q hq => ?_) hused, rfl⟩
    cases hq
    exact hp rfl
  | false =>
    exact (Limits.drop_spec hused).bind fun _ hrest =>
      .pure ⟨⟨h.count, h.grows, h.dead_le, h.covered.erase i key x, hrest⟩, rfl⟩

omit hx

/-- **`route` charges what it keeps**: a new binding, the batches of the routes, and the batch of a delivery. -/
theorem route_charge (h : r.Charged e old dead rest l) (key : FragmentKey) (firstOwner : Option Nat) (frame : Frame)
    (now : Nat) : Meets frame.Sized (r.route e l i key firstOwner frame now) fun x =>
      x.2.1.Charged e old dead (rest + x.1.charge) x.2.2 ∧
      ∀ d p, x.1.result = some d → d.pending = some p → p.Covered e := by
  refine (expire_charge hi h now).bind fun (r, l) h => (enter_charge hi h key now).bind ?_
  rintro ⟨found, r, l⟩ ⟨h, hfound⟩
  cases found with
  | none => exact .pure ⟨h, nofun⟩
  | some x =>
    have hx := hfound x rfl
    simp only
    cases x.owner.or firstOwner with
    | some =>
      refine .pure ⟨h.set hi hx nofun ?_, fun d p hd hp => ?_⟩
      · rw [charge_eq (h.lt hi) hx h.used]
        exact (add_right_comm ..).trans (congrArg (· + _) (add_right_comm ..))
      · cases hd
        exact h.covered i key x p hx hp
    | none =>
      refine (retain_charge hi hx h frame now).mono fun (out, r, l) ⟨h, hnone⟩ => ?_
      simp only [Routed.charge, hnone]
      exact ⟨h, nofun⟩

theorem remove_charge (h : r.Charged e old dead rest l) (key : FragmentKey) :
    Meets P (r.remove l i key) fun x => x.1.Charged e old dead rest x.2 := by
  refine lock_meets hi h ?_
  cases hkey : (r.shards i).entries.lookup key with
  | none => exact .pure h
  | some x =>
    have hentry := charge_eq (h.lt hi) hkey h.used
    exact (Entry.dropAll_charge [x] (by simpa using hentry)).bind fun _ hused =>
      .pure ⟨h.count, h.grows, h.dead_le, h.covered.erase i key x, hused⟩

omit hi

theorem finish_charge {b : Binding} (hi : b.shard < old.count) (h : r.Charged e old dead rest l) :
    Meets P (r.finish l b) fun x => x.1.Charged e old dead rest x.2 := by
  refine lock_meets hi h ?_
  split_ifs
  · exact remove_charge hi h b.key
  · exact .pure h

end Routes

end Routes

end Kotoconn.Tun
