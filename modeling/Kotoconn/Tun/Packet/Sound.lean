import Kotoconn.Tun.Packet.DecoderSteps
import Kotoconn.Tun.Packet.Octets

/-! # Reassembly is sound -/

namespace Kotoconn.Tun

open Lib List Option Table

variable {L A : Type} {e : DecoderEnv L A} {d d' : Decoder A} {l l' : L}

/-! ## One assembly -/

/-- `c` passed the checks of `a`. -/
structure Fits (e : DecoderEnv L A) (a : Assembly A) (c : Copied) : Prop where
  nonempty : c.data ≠ []
  room : stop c + a.prefixLen ≤ 65535
  held : a.data.length + a.prefixLen ≤ 65535
  protocol : c.protocol = a.protocol
  aligned : c.more = true → c.data.length % 8 = 0
  total : ∀ t, a.total = some t → stop c ≤ t ∧ (c.more = false → stop c = t)
  last : c.more = false → a.data.length ≤ stop c
  ipv6 : c.key.ipv4Protocol = none → c.prefixLen = a.prefixLen ∧
    (c.offset = 0 → completeTransportHeader e c.protocol c.data = true) ∧
    ∀ i, Holds c i → ¬ Covers (e.assembler.iterData a.ranges) i

variable {a : Assembly A} {c : Copied}

theorem Assembly.fits (h : a.conflicts e c = false) : Fits e a c := by
  unfold conflicts at h
  simp only [Bool.or_eq_false_iff] at h
  obtain ⟨⟨⟨⟨⟨⟨⟨⟨⟨h1, h2⟩, h3⟩, h4⟩, h5⟩, h6⟩, h7⟩, h8⟩, h9⟩, h10⟩ := h
  have hne : c.data ≠ [] := by simpa using h1
  have hpos := length_pos_iff.2 hne
  have hpre : (if c.key.ipv4Protocol.isSome then a.prefixLen else c.prefixLen) = a.prefixLen := by simpa using h3
  rw [hpre, decide_eq_false_iff_not] at h2 h10
  refine ⟨hne, ?_, by omega, by simpa using h5, by simpa using h6, fun t ht => ?_, by simpa [Copied.stop_eq] using h8,
    fun hkey => ⟨?_, ?_, fun i hi hcov => ?_⟩⟩
  · rw [c.stop_eq]
    omega
  · rw [ht] at h7
    simp only [any_some, Bool.or_eq_false_iff, decide_eq_false_iff_not] at h7
    refine ⟨not_lt.1 h7.1, fun hmore => ?_⟩
    simpa [hmore, Copied.stop_eq] using h7.2
  · simpa [hkey] using hpre
  · simpa [hkey] using h4
  · obtain ⟨q, hq, hlo, hhi⟩ := hcov
    have hsome : c.key.ipv4Protocol.isSome = false := by rw [hkey]; rfl
    simp only [hsome, Bool.not_false, Bool.true_and, List.any_eq_false, Bool.and_eq_true, decide_eq_true_eq] at h9
    exact h9 q hq ⟨lt_of_le_of_lt hlo hi.2, lt_of_le_of_lt hi.1 hhi⟩

variable (hs : e.assembler.Lawful)
include hs

theorem Fits.passes (h : Fits e a c) : a.conflicts e c = false := by
  have hroom := h.room
  have hheld := h.held
  rw [c.stop_eq] at hroom
  have hpre : (if c.key.ipv4Protocol.isSome then a.prefixLen else c.prefixLen) = a.prefixLen := by
    split_ifs with hv4
    · rfl
    · exact (h.ipv6 (not_isSome_iff_eq_none.1 hv4)).1
  have hv6 : c.key.ipv4Protocol.isSome = false → c.key.ipv4Protocol = none := fun h =>
    not_isSome_iff_eq_none.1 (by rw [h]; exact Bool.false_ne_true)
  unfold Assembly.conflicts
  simp only [hpre, Bool.or_eq_false_iff]
  refine ⟨⟨⟨⟨⟨⟨⟨⟨⟨?_, ?_⟩, ?_⟩, ?_⟩, ?_⟩, ?_⟩, ?_⟩, ?_⟩, ?_⟩, ?_⟩
  · simpa using h.nonempty
  · exact decide_eq_false (by omega)
  · simp
  · cases hkey : c.key.ipv4Protocol.isSome with
    | true => simp
    | false => simpa using (h.ipv6 (hv6 hkey)).2.1
  · simpa using h.protocol
  · simpa using h.aligned
  · cases ht : a.total with
    | none => rfl
    | some t =>
      obtain ⟨h1, h2⟩ := h.total t ht
      simpa [c.stop_eq] using And.intro h1 h2
  · simpa [c.stop_eq] using h.last
  · cases hkey : c.key.ipv4Protocol.isSome with
    | true => simp
    | false =>
      simp only [Bool.not_false, Bool.true_and, List.any_eq_false, Bool.and_eq_true, decide_eq_true_eq]
      intro q hq hmeet
      have hne := (hs.separated a.ranges).1 q hq
      have hpos := length_pos_iff.2 h.nonempty
      -- the larger of the two starts is in both
      refine (h.ipv6 (hv6 hkey)).2.2 (max q.1 c.offset) ⟨le_max_right _ _, ?_⟩ ⟨q, hq, le_max_left _ _, ?_⟩
      · rw [c.stop_eq]
        omega
      · omega
  · exact decide_eq_false (by omega)

/-- An assembly that is not poisoned holds the fragments copied into it, and nothing else. -/
structure Assembly.Good (e : DecoderEnv L A) (key : FragmentKey) (a : Assembly A) : Prop where
  same : ∀ c ∈ a.copied, c.key = key ∧ c.protocol = a.protocol ∧ c.arrived < a.expires
  painted : Painted a.copied a.data
  nonempty : ∀ c ∈ a.copied, c.data ≠ []
  covers : ∀ i, Covers (e.assembler.iterData a.ranges) i ↔ ∃ c ∈ a.copied, Holds c i
  total : ∀ t, a.total = some t → a.data.length = t ∧ ∃ c ∈ a.copied, c.more = false ∧ stop c = t
  prefixes : ∀ c ∈ a.copied, c.prefixLen ≤ a.prefixLen
  room : ∀ c ∈ a.copied, a.data.length + a.prefixLen ≤ 65535
  ipv6 : key.ipv4Protocol = none → a.copied.Pairwise (fun c c' => ∀ i, Holds c i → ¬ Holds c' i) ∧
    ∀ c ∈ a.copied, c.prefixLen = a.prefixLen ∧
      (c.offset = 0 → completeTransportHeader e c.protocol c.data = true)

theorem Assembly.Good.new (c : Copied) (key : FragmentKey) : (Assembly.new e c).Good e key where
  same c' hc' := absurd hc' not_mem_nil
  painted := Painted.nil _
  nonempty c' hc' := absurd hc' not_mem_nil
  covers i := ⟨fun h => absurd h (hs.new_covers i), fun ⟨_, h, _⟩ => absurd h not_mem_nil⟩
  total t h := by cases h
  prefixes c' hc' := absurd hc' not_mem_nil
  room c' hc' := absurd hc' not_mem_nil
  ipv6 _ := ⟨List.Pairwise.nil, fun c' hc' => absurd hc' not_mem_nil⟩

/-- **Copying in a fragment that passes the checks keeps an assembly good.** -/
theorem Assembly.Good.stored {a b : Assembly A} (h : a.Good e c.key)
    (hlive : c.arrived < a.expires) (hb : Stored e a c b) : b.Good e c.key := by
  obtain ⟨hpass, ranges, _, held, hadd, rfl⟩ := hb
  have hfits := Assembly.fits hpass
  rw [Assembly.raisePrefix_eq] at hfits ⊢
  have hstop := c.stop_eq
  have hlen : (a.data ++ List.replicate (max a.data.length (stop c) - a.data.length) 0).length =
      max a.data.length (stop c) := by
    rw [length_append, length_replicate]
    omega
  have hwrite := length_writeAt (show c.offset + c.data.length ≤ _ from by rw [hlen]; omega)
  have hroom := hfits.room
  have hheld := hfits.held
  simp only at hroom hheld
  refine ⟨?_, ?_, ?_, fun i => ?_, fun t ht => ?_, ?_, fun _ _ => ?_, fun hkey => ?_⟩
  · exact forall_mem_append.2 ⟨h.same, forall_mem_singleton.2 ⟨rfl, hfits.protocol, hlive⟩⟩
  · exact (h.painted.extend _).write (by rw [hlen]; exact le_max_right _ _)
  · exact forall_mem_append.2 ⟨h.nonempty, forall_mem_singleton.2 hfits.nonempty⟩
  · rw [show (Assembly.store _ ranges c).ranges = ranges from rfl, hs.add_covers _ _ _ _ hadd, h.covers]
    simp only [Assembly.store, Assembly.extend, mem_append, mem_singleton]
    constructor
    · rintro (⟨c', hc', hi⟩ | hi)
      · exact ⟨c', .inl hc', hi⟩
      · exact ⟨c, .inr rfl, hi⟩
    · rintro ⟨c', hc' | rfl, hi⟩
      · exact .inl ⟨c', hc', hi⟩
      · exact .inr hi
  · -- the end is either known from before, and the fragment lies inside, or is this fragment's
    simp only [Assembly.store, Assembly.extend, hwrite, hlen, mem_append, mem_singleton] at ht ⊢
    cases hmore : c.more with
    | true =>
      rw [hmore, if_pos rfl] at ht
      obtain ⟨_, c', hc', hlast⟩ := h.total t ht
      have := (hfits.total t ht).1
      exact ⟨by omega, c', .inl hc', hlast⟩
    | false =>
      rw [hmore, if_neg Bool.false_ne_true] at ht
      obtain rfl := some.inj ht
      have := hfits.last hmore
      simp only at this
      exact ⟨by omega, c, .inr rfl, hmore, hstop⟩
  · refine forall_mem_append.2 ⟨fun c' hc' => ?_, forall_mem_singleton.2 ?_⟩
    · have := h.prefixes c' hc'
      simp only [Assembly.store, Assembly.extend]
      split_ifs <;> omega
    · simp only [Assembly.store, Assembly.extend]
      split_ifs with hv4
      · exact le_max_right _ _
      · have := (hfits.ipv6 (not_isSome_iff_eq_none.1 hv4)).1
        simp only [if_neg hv4] at this
        omega
  · simp only [Assembly.store, Assembly.extend, hwrite, hlen]
    omega
  · have hv4 : ¬ c.key.ipv4Protocol.isSome := by rw [hkey]; decide
    obtain ⟨hpre, hheader, hdisjoint⟩ := hfits.ipv6 hkey
    obtain ⟨hpair, hold⟩ := h.ipv6 hkey
    simp only [if_neg hv4] at hpre
    simp only [Assembly.store, Assembly.extend, if_neg hv4]
    refine ⟨pairwise_append.2 ⟨hpair, pairwise_singleton _ _, fun c' hc' c'' hc'' i hi hi' => ?_⟩,
      forall_mem_append.2 ⟨hold, forall_mem_singleton.2 ⟨hpre, hheader⟩⟩⟩
    rw [mem_singleton.1 hc''] at hi'
    exact hdisjoint i hi' ((h.covers i).2 ⟨c', hc', hi⟩)

/-! ## The decoder -/

/-- The payload of `a` is the datagram that its fragments describe. -/
structure Reassembled (e : DecoderEnv L A) (key : FragmentKey) (a : Assembly A) : Prop where
  same : ∀ c ∈ a.copied, c.key = key ∧ c.protocol = a.protocol ∧ c.arrived < a.expires
  ends : ∃ c ∈ a.copied, c.more = false ∧ stop c = a.data.length
  inside : ∀ c ∈ a.copied, stop c ≤ a.data.length
  bytes : ∀ i < a.data.length, ∃ c, latest a.copied i = some c ∧ a.data[i]? = byteAt c i
  ipv6 : key.ipv4Protocol = none → a.copied.Pairwise (fun c c' => ∀ i, Holds c i → ¬ Holds c' i) ∧
    (∃ prefixLen, ∀ c ∈ a.copied, c.prefixLen = prefixLen) ∧
    ∃ c ∈ a.copied, c.offset = 0 ∧ completeTransportHeader e c.protocol c.data = true
  size : ∀ c ∈ a.copied, a.data.length + c.prefixLen ≤ 65535

variable {key : FragmentKey}

theorem Assembly.Good.reassembled (h : a.Good e key)
    (htotal : a.total = some (e.assembler.peekFront a.ranges)) : Reassembled e key a := by
  obtain ⟨hlen, c, hc, hmore, hstop⟩ := h.total _ htotal
  have hcover : ∀ i < a.data.length, ∃ c ∈ a.copied, Holds c i := fun i hi =>
    (h.covers i).1 (hs.front_covers _ _ (hlen ▸ hi))
  refine ⟨h.same, ⟨c, hc, hmore, hstop.trans hlen.symm⟩, h.painted.inside, fun i hi => ?_, fun hkey => ?_,
    fun c' hc' => ?_⟩
  · obtain ⟨c', hc', hi'⟩ := hcover i hi
    obtain ⟨c'', hlatest⟩ := exists_latest hc' hi'
    exact ⟨c'', hlatest, h.painted.byte i c'' hlatest⟩
  · obtain ⟨hpair, hold⟩ := h.ipv6 hkey
    have hpos := length_pos_iff.2 (h.nonempty c hc)
    have hin := h.painted.inside c hc
    rw [c.stop_eq] at hin
    obtain ⟨c', hc', hzero⟩ := hcover 0 (by omega)
    have hoffset : c'.offset = 0 := Nat.le_zero.1 hzero.1
    exact ⟨hpair, ⟨a.prefixLen, fun c hc => (hold c hc).1⟩, c', hc', hoffset, (hold c' hc').2 hoffset⟩
  · have := h.prefixes c' hc'
    have := h.room c' hc'
    omega

omit hs

structure Decoder.Inv (e : DecoderEnv L A) (d : Decoder A) : Prop where
  timely : d.Timely
  good : ∀ k a, d.fragments.lookup k = some a → a.poisoned = false → a.Good e k

namespace Decoder.Inv

theorem new : (Decoder.new : Decoder A).Inv e := ⟨Timely.new, fun k a h => by simp [Decoder.new] at h⟩

theorem expire (h : d.Inv e) {now : Nat} (hx : d.expire e l now = some (d', l')) : d'.Inv e :=
  ⟨(expire_lookup h.timely hx).1, fun k a hk => h.good k a (((expire_lookup h.timely hx).2 k a).1 hk).1⟩

theorem erase (h : d.Inv e) (key : FragmentKey) : ({ d with fragments := d.fragments.erase key } : Decoder A).Inv e :=
  ⟨h.timely.erase key, fun k a hk => h.good k a (lookup_erase_iff.1 hk).2⟩

theorem insertNew (hs : e.assembler.Lawful) (h : d.Inv e) (c : Copied) : (d.insertNew e c).Inv e := by
  refine ⟨h.timely.insertNew e c, fun k a hk hp => ?_⟩
  rcases lookup_insert_iff.1 hk with ⟨-, rfl⟩ | ⟨-, hk⟩
  · exact Assembly.Good.new hs c k
  · exact h.good k a hk hp

theorem replace (h : d.Inv e) {a b : Assembly A} (ha : d.fragments.lookup key = some a)
    (hexpires : b.expires = a.expires) (hb : b.poisoned = false → b.Good e key) :
    ({ d with fragments := d.fragments.insert key b } : Decoder A).Inv e := by
  refine ⟨h.timely.replace ha hexpires, fun k a' hk hp => ?_⟩
  rcases lookup_insert_iff.1 hk with ⟨rfl, rfl⟩ | ⟨-, hk⟩
  · exact hb hp
  · exact h.good k a' hk hp

theorem remove (h : d.Inv e) (hr : d.remove e l key = some (d', l')) : d'.Inv e := by
  rcases remove_cases hr with ⟨rfl, -⟩ | rfl
  · exact h
  · exact h.erase key

theorem evictForeign (h : d.Inv e) {binding : Binding} (hr : d.evictForeign e l binding = some (d', l')) :
    d'.Inv e := by
  unfold Decoder.evictForeign at hr
  split_ifs at hr
  · exact h.remove hr
  · cases hr
    exact h

end Decoder.Inv

theorem Stored.expires {a b : Assembly A} (h : Stored e a c b) : b.expires = a.expires := by
  obtain ⟨-, _, _, _, -, rfl⟩ := h
  rw [Assembly.raisePrefix_eq]
  rfl

variable (hs : e.assembler.Lawful)
include hs

theorem Merged.inv (h : d.Inv e) {o : Outcome A}
    (ha : d.fragments.lookup c.key = some a) (hp : a.poisoned = false) (hlive : c.arrived < a.expires)
    (hm : Merged e d a c o d') : d'.Inv e ∧ ∀ b, o = .complete b → Reassembled e c.key b := by
  have hgood := h.good c.key a ha hp
  cases hm with
  | poisons hpoisoned _ hexpires =>
    refine ⟨h.replace ha hexpires fun hb => ?_, fun b hb => by cases hb⟩
    rw [hpoisoned] at hb
    cases hb
  | dropped => exact ⟨h.erase c.key, fun b hb => by cases hb⟩
  | waiting hstored => exact ⟨h.replace ha hstored.expires fun _ => hgood.stored hs hlive hstored, fun b hb => by cases hb⟩
  | complete hstored htotal =>
    refine ⟨h.erase c.key, fun b hb => ?_⟩
    cases hb
    exact (hgood.stored hs hlive hstored).reassembled hs htotal

theorem Decoder.Inv.reassemble (h : d.Inv e) {protocol : IpProtocol}
    {fragment : Fragment} {data : Bytes} {now : Nat} {binding : Option Binding} {o : Outcome A}
    (hbinding : ∀ b, binding = some b → now < b.expires)
    (hr : d.reassemble e l key protocol fragment data now binding = some (o, d', l')) :
    d'.Inv e ∧ ∀ b, o = .complete b → Reassembled e key b := by
  obtain ⟨_, _, hexpire, hcases⟩ := Decoder.reassemble_cases hr
  have h0 := h.expire hexpire
  cases hcases with
  | refused => exact ⟨h0, fun b hb => by cases hb⟩
  | ignored => exact ⟨h0, fun b hb => by cases hb⟩
  | found ha hp hm =>
    have hlive := (((Decoder.expire_lookup h.timely hexpire).2 _ _).1 ha).2
    exact hm.inv hs h0 ha hp hlive
  | inserted _ hm =>
    refine hm.inv hs (h0.insertNew hs _) (AList.lookup_insert _) rfl ?_
    -- a new assembly expires after its first fragment
    change now < Copied.deadline _
    unfold Copied.deadline
    cases binding with
    | none => exact Nat.lt_add_of_pos_right (by decide)
    | some b => exact hbinding b rfl

/-! ## Runs -/

/-- A decode call on `d` answers `r`. -/
inductive Answers (e : DecoderEnv L A) (d : Decoder A) (l : L) (r : Reply A) (d' : Decoder A) (l' : L) : Prop where
  | decode (data : Bytes) (now : Nat) : d.decode e l data now = some (r, d', l') → Answers e d l r d' l'
  | decodeFragment (data : Bytes) (now : Nat) (binding : Binding) (active : Bool) :
      d.decodeFragment e l data now binding active = some (r, d', l') → Answers e d l r d' l'

/-- The decoders reached by calls at any times; others may change the budget between calls. -/
inductive Reached (e : DecoderEnv L A) : Decoder A → L → Prop where
  | new (l : L) : Reached e Decoder.new l
  | call {d d' : Decoder A} {l l' : L} {r : Reply A} : Reached e d l → Answers e d l r d' l' → Reached e d' l'
  | expire {d d' : Decoder A} {l l' : L} (now : Nat) : Reached e d l → d.expire e l now = some (d', l') →
      Reached e d' l'
  | discardOldest {d d' : Decoder A} {l l' : L} {key : FragmentKey} : Reached e d l → d.Oldest key →
      d.remove e l key = some (d', l') → Reached e d' l'
  | budget {d : Decoder A} {l : L} (l' : L) : Reached e d l → Reached e d l'

theorem Answers.inv (h : d.Inv e) {r : Reply A} (hr : Answers e d l r d' l') :
    d'.Inv e ∧ ∀ key ip a, r = .fragment key ip (.complete a) → Reassembled e key a := by
  rcases hr with ⟨data, now, hr⟩ | ⟨data, now, binding, active, hr⟩
  · rcases Decoder.decode_cases hr with ⟨rfl, rfl⟩ | ⟨packet, rfl, rfl⟩ | ⟨p, key, fragment, o, -, -, -, hre, rfl⟩
    · exact ⟨h, fun key ip a ha => by cases ha⟩
    · exact ⟨h, fun key ip a ha => by cases ha⟩
    · obtain ⟨hinv, hsound⟩ := h.reassemble hs (fun b hb => by cases hb) hre
      refine ⟨hinv, fun key ip a ha => ?_⟩
      cases ha
      exact hsound a rfl
  · rcases Decoder.decodeFragment_cases hr with ⟨-, rfl, rfl⟩ | ⟨-, -, rfl, rfl⟩ |
      ⟨hlive, -, p, d1, l1, o, l2, -, -, hevict, fragment, -, hre, rfl⟩
    · exact ⟨h, fun key ip a ha => by cases ha⟩
    · exact ⟨h, fun key ip a ha => by cases ha⟩
    · obtain ⟨hinv, hsound⟩ := (h.evictForeign hevict).reassemble hs
        (fun b hb => by obtain rfl := some.inj hb; exact hlive) hre
      refine ⟨hinv, fun key ip a ha => ?_⟩
      cases ha
      exact hsound a rfl

theorem Reached.inv (h : Reached e d l) : d.Inv e := by
  induction h with
  | new => exact Decoder.Inv.new
  | call _ hr ih => exact (hr.inv hs ih).1
  | expire _ _ hx ih => exact ih.expire hx
  | discardOldest _ _ hr ih => exact ih.remove hr
  | budget _ _ ih => exact ih

omit hs

/-- **Reassembly is sound**: whatever calls came before, with whatever budget, a payload that a decode call returns is
the datagram its fragments describe. -/
theorem reassembly_sound (hs : e.assembler.Lawful) (h : Reached e d l) {key : FragmentKey} {ip : IpRepr}
    {a : Assembly A} (hr : Answers e d l (.fragment key ip (.complete a)) d' l') : Reassembled e key a :=
  (hr.inv hs (h.inv hs)).2 key ip a rfl

def octetsEnv : DecoderEnv Limits Ranges := ⟨octets, Octets.tcpChecked, rangeAssembler, Limits.leases, 512, id⟩

def firstFragment : Bytes :=
  [69, 0, 0, 28, 0, 7, 32, 0, 64, 17, 70, 200, 10, 0, 0, 1, 10, 0, 0, 2, 1, 2, 3, 4, 5, 6, 7, 8]

def lastFragment : Bytes := [69, 0, 0, 24, 0, 7, 0, 1, 64, 17, 102, 203, 10, 0, 0, 1, 10, 0, 0, 2, 9, 10, 11, 12]

theorem reassembly_sound_two_fragments : ∃ (d d' : Decoder Ranges) (l l' : Limits) (key : FragmentKey) (ip : IpRepr)
    (a : Assembly Ranges), Reached octetsEnv d l ∧ Answers octetsEnv d l (.fragment key ip (.complete a)) d' l' ∧
      a.data = [1, 2, 3, 4, 5, 6, 7, 8, 9, 10, 11, 12] ∧ Reassembled octetsEnv key a := by
  have hfirst : ∃ r d l, (Decoder.new : Decoder Ranges).decode octetsEnv (Limits.byDefault 0) firstFragment 0 =
      some (r, d, l) ∧ ∃ key ip a d' l', d.decode octetsEnv l lastFragment 5 =
        some (.fragment key ip (.complete a), d', l') ∧ a.data = [1, 2, 3, 4, 5, 6, 7, 8, 9, 10, 11, 12] :=
    ⟨_, _, _, rfl, _, _, _, _, _, rfl, rfl⟩
  obtain ⟨_, d, l, h1, key, ip, a, d', l', h2, hdata⟩ := hfirst
  have hreached := (Reached.new _).call (Answers.decode _ _ h1)
  have hanswers := Answers.decode _ _ h2
  exact ⟨d, d', l, l', key, ip, a, hreached, hanswers, hdata,
    reassembly_sound rangeAssembler_lawful hreached hanswers⟩

end Kotoconn.Tun
