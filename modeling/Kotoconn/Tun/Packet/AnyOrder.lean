import Kotoconn.Tun.Packet.Sound

/-! # A datagram's fragments in any order -/

namespace Kotoconn.Tun

open Lib Protocol List Option

/-! ## Pieces -/

/-- A UDP datagram cut into pieces of `size` bytes, the last one shorter. -/
structure Cut where
  key : FragmentKey
  prefixLen : Nat
  datagram : Bytes
  size : Nat
  aligned : size % 8 = 0
  large : 1232 ≤ size
  several : size < datagram.length
  short : datagram.length + prefixLen ≤ 65535

namespace Cut

variable (t : Cut)

def count : Nat := (t.datagram.length + t.size - 1) / t.size

def chunk (i : Nat) : Bytes := slice t.datagram (i * t.size) (i * t.size + min t.size (t.datagram.length - i * t.size))

def more (i : Nat) : Bool := i + 1 < t.count

def piece (i now : Nat) : Copied := ⟨t.key, .udp, i * t.size, t.more i, t.prefixLen, t.chunk i, now, none⟩

theorem size_pos : 0 < t.size := by
  have := t.large
  omega

variable {i : Nat}

theorem lt_count_iff : i < t.count ↔ i * t.size < t.datagram.length := by
  have hpos := t.size_pos
  rw [count, ← Nat.succ_le_iff, Nat.le_div_iff_mul_le hpos, Nat.succ_mul]
  omega

theorem length_chunk (h : i < t.count) : (t.chunk i).length = min t.size (t.datagram.length - i * t.size) := by
  have := t.lt_count_iff.1 h
  rw [chunk, length_slice]
  omega

theorem stop_piece (h : i < t.count) (now : Nat) :
    stop (t.piece i now) = min (i * t.size + t.size) t.datagram.length := by
  have := t.lt_count_iff.1 h
  rw [Copied.stop_eq]
  simp only [piece, t.length_chunk h]
  omega

theorem more_iff : t.more i = true ↔ i * t.size + t.size < t.datagram.length := by
  rw [more, decide_eq_true_eq, t.lt_count_iff, add_mul, Nat.one_mul]

theorem offset_aligned (i : Nat) : i * t.size % 8 = 0 := by
  rw [Nat.mul_mod, t.aligned, Nat.mul_zero, Nat.zero_mod]

theorem chunk_ne_nil (h : i < t.count) : t.chunk i ≠ [] := by
  have := t.lt_count_iff.1 h
  have := t.size_pos
  refine length_pos_iff.1 ?_
  rw [t.length_chunk h]
  omega

theorem chunk_aligned (h : i < t.count) (hm : t.more i = true) : (t.chunk i).length % 8 = 0 := by
  have := t.more_iff.1 hm
  have := t.aligned
  rw [t.length_chunk h, Nat.min_eq_left (by omega)]
  exact this

theorem is_fragment (i : Nat) : t.more i = true ∨ i * t.size ≠ 0 := by
  by_cases h : i * t.size = 0
  · have := t.several
    exact .inl (t.more_iff.2 (by omega))
  · exact .inr h

theorem stop_last (h : i < t.count) (hm : t.more i = false) (now : Nat) : stop (t.piece i now) = t.datagram.length := by
  rw [t.stop_piece h]
  refine min_eq_right (not_lt.1 fun hlt => ?_)
  rw [t.more_iff.2 hlt] at hm
  cases hm

theorem holds_piece (h : i < t.count) (now p : Nat) :
    Holds (t.piece i now) p ↔ p < t.datagram.length ∧ p / t.size = i := by
  have hpos := t.size_pos
  rw [Holds, t.stop_piece h, Nat.div_eq_iff hpos]
  change i * t.size ≤ p ∧ _ ↔ _
  omega

theorem byteAt_piece (h : i < t.count) {now p : Nat} (hp : Holds (t.piece i now) p) :
    byteAt (t.piece i now) p = t.datagram[p]? := by
  have hlen := t.length_chunk h
  have hlo : i * t.size ≤ p := hp.1
  have hhi : p < i * t.size + (t.chunk i).length := hp.2
  change (t.chunk i)[p - i * t.size]? = _
  rw [chunk, getElem?_slice, if_pos (by omega)]
  congr 1
  omega

end Cut

/-! ## Partly filled assemblies -/

variable {A : Type} {e : DecoderEnv Limits A} {t : Cut} {start : Nat} {r : List Nat} {a : Assembly A} {l : Limits}

/-- The shared limits, an assembler as documented, and vectors that stay small against the default budget. -/
structure Platform (e : DecoderEnv Limits A) : Prop where
  leases : e.leases = Limits.leases
  assembler : e.assembler.Lawful
  allocate : ∀ n, n ≤ e.allocate n
  small : ∀ n ≤ 65535, e.metadata + e.allocate n ≤ 4 * initialBytes

/-- `a` holds the pieces in `r` and nothing else, and its lease is the only one. -/
structure Filled (e : DecoderEnv Limits A) (t : Cut) (start : Nat) (r : List Nat) (a : Assembly A) (l : Limits) :
    Prop where
  good : a.Good e t.key
  alive : a.poisoned = false
  protocol : a.protocol = .udp
  prefixLen : a.prefixLen = t.prefixLen
  below : ∀ i ∈ r, i < t.count
  only : ∀ c ∈ a.copied, ∃ i ∈ r, ∃ now, c = t.piece i now
  all : ∀ i ∈ r, ∃ now, t.piece i now ∈ a.copied
  short : a.data.length ≤ t.datagram.length
  ended : ∀ c ∈ a.copied, c.more = false → a.total = some (stop c)
  expires : start + reassemblyLifetime ≤ a.expires
  held : a.held = e.metadata + a.capacity
  charged : a.held ≤ 4 * initialBytes
  lone : l.Lone (4 * initialBytes) a.held

namespace Filled

theorem covers (h : Filled e t start r a l) {p : Nat} :
    Covers (e.assembler.iterData a.ranges) p ↔ p < t.datagram.length ∧ p / t.size ∈ r := by
  rw [h.good.covers]
  constructor
  · rintro ⟨c, hc, hp⟩
    obtain ⟨i, hi, now, rfl⟩ := h.only c hc
    obtain ⟨hlt, rfl⟩ := (t.holds_piece (h.below i hi) now p).1 hp
    exact ⟨hlt, hi⟩
  · rintro ⟨hlt, hmem⟩
    obtain ⟨now, hc⟩ := h.all _ hmem
    exact ⟨_, hc, (t.holds_piece (h.below _ hmem) now p).2 ⟨hlt, rfl⟩⟩

/-- **Any pieces of one datagram leave room in the assembler.** -/
theorem ranges_lt (hp : Platform e) (h : Filled e t start r a l) : (e.assembler.iterData a.ranges).length < 32 := by
  by_cases hne : e.assembler.iterData a.ranges = []
  · rw [hne]
    decide
  have hbound := ranges_of_blocks t.size_pos (hp.assembler.separated a.ranges) (n := t.datagram.length)
    (fun i j _ hj hdiv hi => h.covers.2 ⟨hj, hdiv ▸ (h.covers.1 hi).2⟩) (fun i hi => (h.covers.1 hi).1) hne
  have hsize := Nat.mul_le_mul_right ((e.assembler.iterData a.ranges).length - 1) (Nat.mul_le_mul_left 2 t.large)
  have hshort := t.short
  omega

theorem fits (h : Filled e t start r a l) {j : Nat} (hj : j < t.count) (hnew : j ∉ r) (now : Nat) :
    Fits e a (t.piece j now) := by
  have hlt := t.lt_count_iff.1 hj
  have hlen := t.length_chunk hj
  have hstop := t.stop_piece hj now
  have hlarge := t.large
  have hshort := t.short
  have hold := h.short
  refine ⟨?_, ?_, ?_, h.protocol.symm, fun hm => ?_, fun n hn => ?_, fun hm => ?_, fun _ => ⟨h.prefixLen.symm, fun h0 => ?_,
    fun p hp hcov => ?_⟩⟩
  · exact t.chunk_ne_nil hj
  · rw [hstop, h.prefixLen]
    omega
  · rw [h.prefixLen]
    omega
  · exact t.chunk_aligned hj hm
  · -- a known end is the datagram's
    obtain ⟨-, c, hc, hmore, hend⟩ := h.good.total n hn
    obtain ⟨i, hi, _, rfl⟩ := h.only c hc
    rw [t.stop_last (h.below i hi) hmore] at hend
    exact ⟨by omega, fun hm => (t.stop_last hj hm now).trans hend⟩
  · rw [t.stop_last hj hm]
    exact h.short
  · have hzero : j * t.size = 0 := h0
    have := t.several
    simp only [completeTransportHeader, Cut.piece, hlen, decide_eq_true_eq]
    omega
  · obtain ⟨-, hdiv⟩ := (t.holds_piece hj now p).1 hp
    exact hnew (hdiv ▸ (h.covers.1 hcov).2)

theorem new (hp : Platform e) {j now : Nat} (hnow : start ≤ now) (hl : l.Lone (4 * initialBytes) e.metadata) :
    Filled e t start [] (Assembly.new e (t.piece j now)) l where
  good := Assembly.Good.new hp.assembler _ _
  alive := rfl
  protocol := rfl
  prefixLen := rfl
  below _ hi := absurd hi not_mem_nil
  only _ hc := absurd hc not_mem_nil
  all _ hi := absurd hi not_mem_nil
  short := zero_le
  ended _ hc := absurd hc not_mem_nil
  expires := Nat.add_le_add_right hnow _
  held := rfl
  charged := le_trans le_self_add (hp.small 0 (zero_le))
  lone := hl

theorem grow (hp : Platform e) (h : Filled e t start r a l) {j : Nat} (hj : j < t.count) (now : Nat) :
    ∃ capacity l', a.grow e l (stop (t.piece j now)) now =
      some (some (a.extend (stop (t.piece j now)) capacity (e.metadata + capacity)), l') ∧
      e.metadata + capacity ≤ 4 * initialBytes ∧ l'.Lone (4 * initialBytes) (e.metadata + capacity) := by
  have hstop := t.stop_piece hj now
  have hshort := h.short
  have hdatagram := t.short
  have hcharged := h.charged
  rw [h.held] at hcharged
  have hmax : 4 * initialBytes ≤ usizeMax := by decide
  obtain ⟨length, hlength⟩ : ∃ length, length = max a.data.length (stop (t.piece j now)) := ⟨_, rfl⟩
  have hsmall := hp.small length (by omega)
  have hroom := hp.allocate length
  obtain ⟨_, hr1, hl1⟩ := h.lone.resize (show e.metadata + max a.capacity length ≤ _ by omega) hmax now
  obtain ⟨capacity, hcap⟩ : ∃ capacity, capacity = if length ≤ a.capacity then a.capacity else e.allocate length :=
    ⟨_, rfl⟩
  have hle : e.metadata + capacity ≤ 4 * initialBytes := by
    rw [hcap]
    split_ifs <;> omega
  obtain ⟨l2, hr2, hl2⟩ := hl1.resize hle hmax now
  refine ⟨capacity, l2, ?_, hle, hl2⟩
  unfold Assembly.grow
  simp only [hp.leases, Limits.leases, ← hlength, hr1, bind_eq_bind, bind_some, ← hcap, hr2, if_true]

theorem raisePrefix (h : Filled e t start r a l) (j now : Nat) : a.raisePrefix (t.piece j now) = a := by
  have : max a.prefixLen (t.piece j now).prefixLen = a.prefixLen := by
    rw [h.prefixLen]
    exact Nat.max_self _
  rw [Assembly.raisePrefix_eq, this, ite_self]

theorem store (hp : Platform e) (h : Filled e t start r a l) {j : Nat} (hj : j < t.count) (hnew : j ∉ r) {now : Nat}
    (hnow : now < start + reassemblyLifetime) {ranges : A} {capacity : Nat} {l' : Limits}
    (hadd : e.assembler.add a.ranges (j * t.size) (t.chunk j).length = some ranges)
    (hle : e.metadata + capacity ≤ 4 * initialBytes) (hl : l'.Lone (4 * initialBytes) (e.metadata + capacity)) :
    Filled e t start (j :: r)
      ((a.extend (stop (t.piece j now)) capacity (e.metadata + capacity)).store ranges (t.piece j now)) l' := by
  have hfits := h.fits hj hnew now
  have hstop := t.stop_piece hj now
  have hgood := h.good.stored hp.assembler (c := t.piece j now) (lt_of_lt_of_le hnow h.expires)
    ⟨by rw [h.raisePrefix]; exact hfits.passes hp.assembler, ranges, capacity, e.metadata + capacity, hadd, rfl⟩
  rw [h.raisePrefix] at hgood
  refine ⟨hgood, h.alive, h.protocol, h.prefixLen, forall_mem_cons.2 ⟨hj, h.below⟩, ?_, ?_, ?_, ?_, h.expires,
    rfl, hle, hl⟩
  · refine forall_mem_append.2 ⟨fun c hc => ?_, forall_mem_singleton.2 ⟨j, mem_cons_self, now, rfl⟩⟩
    obtain ⟨i, hi, hpiece⟩ := h.only c hc
    exact ⟨i, mem_cons_of_mem j hi, hpiece⟩
  · refine forall_mem_cons.2 ⟨⟨now, mem_append_right _ (mem_singleton_self _)⟩, fun i hi => ?_⟩
    obtain ⟨now', hc⟩ := h.all i hi
    exact ⟨now', mem_append_left _ hc⟩
  · have hlen : (a.extend (stop (t.piece j now)) capacity (e.metadata + capacity)).data.length =
        max a.data.length (stop (t.piece j now)) := by
      simp only [Assembly.extend, length_append, length_replicate]
      omega
    simp only [Assembly.store]
    rw [length_writeAt (by rw [hlen]; exact le_max_right _ _), hlen]
    have := h.short
    omega
  · have hend : ∀ c ∈ a.copied ++ [t.piece j now], c.more = false → stop c = t.datagram.length := by
      refine forall_mem_append.2 ⟨fun c hc hm => ?_, forall_mem_singleton.2 fun hm => ?_⟩
      · obtain ⟨i, hi, now', rfl⟩ := h.only c hc
        exact t.stop_last (h.below i hi) hm now'
      · exact t.stop_last hj hm now
    intro c hc hm
    rw [hend c hc hm]
    simp only [Assembly.store, Assembly.extend]
    split_ifs with hmore
    · rcases mem_append.1 hc with hc' | hc'
      · rw [h.ended c hc' hm, hend c hc hm]
      · rw [mem_singleton.1 hc', hmore] at hm
        cases hm
    · rw [← hend (t.piece j now) (mem_append_right _ (mem_singleton_self _))
        (Bool.eq_false_iff.2 hmore)]
      rfl

theorem complete_iff (hp : Platform e) (h : Filled e t start r a l) :
    a.total = some (e.assembler.peekFront a.ranges) ↔ ∀ i < t.count, i ∈ r := by
  have hpos := t.size_pos
  constructor
  · intro htotal i hi
    obtain ⟨-, c, hc, hmore, hstop⟩ := h.good.total _ htotal
    obtain ⟨k, hk, now, rfl⟩ := h.only c hc
    rw [t.stop_last (h.below k hk) hmore] at hstop
    have hcov := h.covers.1 (hp.assembler.front_covers a.ranges (i * t.size) (hstop ▸ t.lt_count_iff.1 hi))
    rw [Nat.mul_div_cancel i hpos] at hcov
    exact hcov.2
  · intro hall
    have hcover : ∀ p < t.datagram.length, Covers (e.assembler.iterData a.ranges) p := by
      intro p hlt
      have := Nat.div_mul_le_self p t.size
      exact h.covers.2 ⟨hlt, hall _ (t.lt_count_iff.2 (by omega))⟩
    have hfront : e.assembler.peekFront a.ranges = t.datagram.length := by
      rcases Nat.lt_trichotomy (e.assembler.peekFront a.ranges) t.datagram.length with hlt | heq | hgt
      · exact absurd (hcover _ hlt) (hp.assembler.front_ends a.ranges)
      · exact heq
      · have := (h.covers.1 (hp.assembler.front_covers a.ranges _ hgt)).1
        omega
    -- the last piece has set the end
    have hcount : 0 < t.count := t.lt_count_iff.2 (by have := t.several; omega)
    obtain ⟨now, hc⟩ := h.all _ (hall (t.count - 1) (by omega))
    have hlast : (t.piece (t.count - 1) now).more = false := decide_eq_false (by omega)
    rw [h.ended _ hc hlast, hfront, t.stop_last (by omega) hlast]

theorem data_eq (hp : Platform e) (h : Filled e t start r a l) (hall : ∀ i < t.count, i ∈ r) : a.data = t.datagram := by
  have hsound := h.good.reassembled hp.assembler ((h.complete_iff hp).2 hall)
  have hlen : a.data.length = t.datagram.length := by
    obtain ⟨c, hc, hmore, hstop⟩ := hsound.ends
    obtain ⟨i, hi, now, rfl⟩ := h.only c hc
    rw [← hstop, t.stop_last (h.below i hi) hmore]
  refine ext_getElem? fun p => ?_
  by_cases hlt : p < a.data.length
  · obtain ⟨c, hlatest, hbyte⟩ := hsound.bytes p hlt
    obtain ⟨hc, hholds⟩ := mem_of_latest hlatest
    obtain ⟨i, hi, _, rfl⟩ := h.only c hc
    rw [hbyte, t.byteAt_piece (h.below i hi) hholds]
  · rw [getElem?_eq_none (by omega), getElem?_eq_none (by omega)]

theorem merge (hp : Platform e) (h : Filled e t start r a l) {j : Nat} (hj : j < t.count) (hnew : j ∉ r) {now : Nat}
    (hnow : now < start + reassemblyLifetime) (d : Decoder A) : ∃ b l', Filled e t start (j :: r) b l' ∧
      b.expires = a.expires ∧ (b.total ≠ some (e.assembler.peekFront b.ranges) → d.merge e l a (t.piece j now) =
        some (.waiting, { d with fragments := d.fragments.insert t.key b }, l')) ∧
      (b.total = some (e.assembler.peekFront b.ranges) → ∃ d' l'', d.merge e l a (t.piece j now) =
        some (.complete b, d', l'')) := by
  obtain ⟨capacity, l', hgrow, hle, hl⟩ := h.grow hp hj now
  have hpass := (h.fits hj hnew now).passes hp.assembler
  cases hadd : e.assembler.add a.ranges (j * t.size) (t.chunk j).length with
  | none =>
    have := hp.assembler.room _ _ _ hadd
    have := h.ranges_lt hp
    omega
  | some =>
    have hfilled := h.store hp hj hnew hnow hadd hle hl
    have hpass' : (a.raisePrefix (t.piece j now)).conflicts e (t.piece j now) = false := by
      rw [h.raisePrefix]
      exact hpass
    have hgrow' : (a.raisePrefix (t.piece j now)).grow e l (stop (t.piece j now)) now =
        some (some (a.extend (stop (t.piece j now)) capacity (e.metadata + capacity)), l') := by
      rw [h.raisePrefix]
      exact hgrow
    have hmerge := Decoder.merge_stores (d := d) hpass' hgrow' hadd
    refine ⟨_, l', hfilled, rfl, fun htotal => hmerge.trans (if_pos htotal), fun htotal => ?_⟩
    obtain ⟨l'', hdrop⟩ := (hfilled.lone.complete (e.metadata + capacity) now).drop
    have hdrop' : e.leases.drop (e.leases.complete l' (e.metadata + capacity) now) (e.metadata + capacity) =
        some l'' := by
      rw [hp.leases]
      exact hdrop
    exact ⟨_, l'', (hmerge.trans (if_neg (not_not.2 htotal))).trans (congrArg (Option.bind · _) hdrop')⟩

end Filled

/-! ## The decoder -/

/-- The decoder holds the pieces in `r` of one datagram, and nothing else. -/
inductive Holding (e : DecoderEnv Limits A) (t : Cut) (start : Nat) : List Nat → Decoder A → Limits → Prop where
  | fresh {l : Limits} : l.Lone (4 * initialBytes) 0 → Holding e t start [] Decoder.new l
  | filled {r : List Nat} {a : Assembly A} {d : Decoder A} {l : Limits} : d.fragments.lookup t.key = some a →
      d.nextExpiry = some a.expires → Filled e t start r a l → Holding e t start r d l

theorem Holding.enter (hp : Platform e) {d : Decoder A} (h : Holding e t start r d l) {j now : Nat}
    (hstart : start ≤ now) (hnow : now < start + reassemblyLifetime) (id : Nat) (hj : j < t.count) :
    ∃ (a : Assembly A) (d1 : Decoder A) (l1 : Limits), Filled e t start r a l1 ∧ d1.nextExpiry = some a.expires ∧
      d.reassemble e l t.key .udp ⟨id, j * t.size, t.more j, t.prefixLen⟩ (t.chunk j) now none =
        d1.merge e l1 a (t.piece j now) := by
  have hlt := t.lt_count_iff.1 hj
  have hshort := t.short
  have hmod := t.offset_aligned j
  have hvalid : t.prefixLen ≤ 65535 ∧ j * t.size ≤ 0xfff8 ∧ j * t.size % 8 = 0 := ⟨by omega, by omega, hmod⟩
  cases h with
  | fresh hl =>
    have hmeta := hp.small 0 (zero_le)
    obtain ⟨l1, hr, hl1⟩ := hl.resize (show e.metadata ≤ _ by omega) (by decide) now
    refine ⟨_, Decoder.new.insertNew e (t.piece j now), l1, Filled.new hp hstart hl1, rfl, ?_⟩
    unfold Decoder.reassemble
    rw [if_pos hvalid]
    have hexpire : (Decoder.new : Decoder A).expire e l now = some (Decoder.new, l) := rfl
    have henter : (Decoder.new : Decoder A).enter e l (t.piece j now) =
        some (some (Assembly.new e (t.piece j now)), Decoder.new.insertNew e (t.piece j now), l1) := by
      unfold Decoder.enter
      simp only [Decoder.new, AList.lookup_empty, hp.leases, Limits.leases]
      exact congrArg (Option.bind · _) hr
    rw [hexpire]
    exact congrArg (Option.bind · _) henter
  | @filled _ a _ _ hlook hnext hf =>
    refine ⟨a, d, l, hf, hnext, ?_⟩
    unfold Decoder.reassemble
    rw [if_pos hvalid]
    have hexpire : d.expire e l now = some (d, l) := by
      unfold Decoder.expire
      rw [hnext, if_neg]
      have := hf.expires
      simp only [any_some, decide_eq_true_eq]
      omega
    have henter : d.enter e l (t.piece j now) = some (some a, d, l) := by
      unfold Decoder.enter
      simp only [Cut.piece, hlook]
    rw [hexpire]
    refine (congrArg (Option.bind · _) henter).trans ?_
    simp only [bind_some, hf.alive, Bool.false_eq_true, if_false]
    rfl

/-- **Pieces may come in any order**: a new one waits while another is missing, and the last one completes the
datagram. -/
theorem Holding.reassemble (hp : Platform e) {d : Decoder A} (h : Holding e t start r d l) {j now : Nat}
    (hstart : start ≤ now) (hnow : now < start + reassemblyLifetime) (id : Nat) (hj : j < t.count) (hnew : j ∉ r) :
    ((∃ i < t.count, i ∉ j :: r) → ∃ d' l',
      d.reassemble e l t.key .udp ⟨id, j * t.size, t.more j, t.prefixLen⟩ (t.chunk j) now none =
        some (.waiting, d', l') ∧ Holding e t start (j :: r) d' l') ∧ ((∀ i < t.count, i ∈ j :: r) → ∃ b d' l',
      d.reassemble e l t.key .udp ⟨id, j * t.size, t.more j, t.prefixLen⟩ (t.chunk j) now none =
        some (.complete b, d', l') ∧ b.data = t.datagram) := by
  obtain ⟨_, d1, _, hf, hnext, heq⟩ := h.enter hp hstart hnow id hj
  obtain ⟨b, l', hb, hexpires, hwait, hdone⟩ := hf.merge hp hj hnew hnow d1
  rw [heq]
  constructor
  · rintro ⟨i, hi, hmissing⟩
    refine ⟨_, l', hwait fun htotal => hmissing ((hb.complete_iff hp).1 htotal i hi), ?_⟩
    exact .filled (AList.lookup_insert _) (by rw [hexpires]; exact hnext) hb
  · intro hall
    obtain ⟨d', l'', hmerge⟩ := hdone ((hb.complete_iff hp).2 hall)
    exact ⟨b, d', l'', hmerge, hb.data_eq hp hall⟩

end Kotoconn.Tun
