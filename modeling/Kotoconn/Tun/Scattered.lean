import Kotoconn.Tun.TcpStorage.Read
import Kotoconn.Tun.Transmit

/-! # Scattered TCP output -/

namespace Kotoconn.Tun
open Lib List Option

/-! ## Model -/

namespace TcpStorage.Storage

def overlaps (s : Storage) (position : Nat) : Bool :=
  (s.blocks.lastBelow position).any fun block => position < block.1 + block.2.length

def segmentCount (s : Storage) (lo hi : Nat) : Nat :=
  (s.overlaps (s.head + lo)).toNat + s.blocks.countIn (s.head + lo) (s.head + hi)

/-- At most `n` turns of the loop of `segment_len`. -/
def segmentLenWithin (s : Storage) (stop : Nat) : Nat → Nat → Option Nat
  | 0, position => some position
  | n + 1, position =>
    if position = stop then some position
    else
      match s.getAllocated position (stop - position) with
      | none | some [] => none
      | some part => segmentLenWithin s stop n (position + part.length)

def segmentLen (s : Storage) (offset size : Nat) : Option Nat :=
  (s.segmentLenWithin (offset + min size (s.length - offset)) 64 offset).map (· - offset)

end TcpStorage.Storage

open TcpStorage

namespace IpRepr

def payloadLen : IpRepr → Nat
  | ipv4 r => r.payloadLen
  | ipv6 r => r.payloadLen

def bufferLen (ip : IpRepr) : Nat := ip.headerLen + ip.payloadLen

end IpRepr

/-- `PacketArena::encode` of headers, and of parts behind them. -/
structure Arena where
  encode : (len : Nat) → List Bytes → Bytes
  length_encode : ∀ len parts, (encode len parts).length = len

def Transmit.of (packet : Bytes) (payload : List Bytes) : Option Nat → Transmit
  | some segmentSize => .tcpGso packet payload segmentSize
  | none => .packet packet

/-- `emit` once its permit is granted: what it reserved, and what it sends. -/
def emit (arena : Arena) (ip : IpRepr) (segmentSize : Option Nat) : Nat × Transmit :=
  (charge ip.bufferLen, .of (arena.encode ip.bufferLen []) [] segmentSize)

/-- `emit_scattered`, with the size of a `Bytes` and the length of the TCP header. Without segmentation the parts are
copied behind that header, where they must fit. -/
def emitScattered (arena : Arena) (handle : Nat) (ip : IpRepr) (header : Nat) (segmentSize : Option Nat) (s : Storage)
    (lo hi : Nat) : Option (Nat × Transmit) :=
  if hi ≤ lo then some (emit arena ip segmentSize)
  else do
    let cost := charge ip.bufferLen + s.segmentCount lo hi * handle
    let parts ← s.segments lo hi
    match segmentSize with
    | some _ => some (cost, .of (arena.encode (ip.headerLen + header) []) parts segmentSize)
    | none =>
      if header + parts.flatten.length ≤ ip.payloadLen then
        some (cost, .of (arena.encode ip.bufferLen parts) parts segmentSize)
      else none

/-- The vectors of `send_vectors`; `none` is the failed assertion. -/
def sendVectors (virtio header : Bytes) (payload : List Bytes) : Option (List Bytes) :=
  if payload.length ≤ 64 then
    some ((virtio :: header :: (payload.take 64 ++ List.replicate (64 - payload.length) [])).take (payload.length + 2))
  else none

/-! ## Walks over the blocks -/

namespace TcpStorage.Storage
open Sparse
variable {s : Storage} {q : Nat × Bytes} {pos stop : Nat}

/-- The blocks that meet `pos .. stop`. -/
def parts (s : Storage) (pos stop : Nat) : Nat :=
  if pos < stop then (s.overlaps pos).toNat + s.blocks.countIn pos stop else 0

theorem overlaps_eq_false (h : ∀ p ∈ s.blocks, p.1 < pos → p.1 + p.2.length ≤ pos) : s.overlaps pos = false := by
  unfold overlaps
  cases hlast : s.blocks.lastBelow pos with
  | none => rfl
  | some p =>
    obtain ⟨hp, hlt, -⟩ := OrdMap.lastBelow_some hlast
    exact decide_eq_false (not_lt.2 (h p hp hlt))

theorem overlaps_add_countIn (h : Apart s.blocks) (hq : q ∈ s.blocks) (hle : q.1 ≤ pos) (hlt : pos < q.1 + q.2.length)
    (hstop : pos < stop) (hend : stop ≤ q.1 + q.2.length) : (s.overlaps pos).toNat + s.blocks.countIn pos stop = 1 := by
  have hother : ∀ p ∈ s.blocks, p.1 < q.1 → p.1 + p.2.length ≤ q.1 := fun p hp => h.disjoint p hp q hq
  have hlater : ∀ p ∈ s.blocks, q.1 < p.1 → stop ≤ p.1 := fun p hp hqp =>
    le_trans hend (h.disjoint q hq p hp hqp)
  by_cases heq : q.1 = pos
  · subst heq
    rw [overlaps_eq_false hother, OrdMap.countIn_add (Nat.le_succ q.1) hstop, OrdMap.countIn_single hq,
      OrdMap.countIn_eq_zero fun p hp hin => not_lt.2 (hlater p hp hin.1) hin.2]
    rfl
  · have hpos : pos - 1 + 1 = pos := by omega
    have hlast := h.lastAtMost (i := pos - 1) hq ⟨by omega, by omega⟩
    rw [OrdMap.lastAtMost, hpos] at hlast
    rw [overlaps, hlast, OrdMap.countIn_eq_zero fun p hp hin => ?_]
    · simp [hlt]
    · have := hlater p hp (by omega)
      omega

theorem parts_step (h : Apart s.blocks) (hq : q ∈ s.blocks) (hle : q.1 ≤ pos) (hlt : pos < q.1 + q.2.length)
    (hstop : pos < stop) : s.parts pos stop = s.parts (min stop (q.1 + q.2.length)) stop + 1 := by
  have hfirst := overlaps_add_countIn h hq hle hlt (show pos < min stop (q.1 + q.2.length) by omega) (min_le_right _ _)
  have hsplit := OrdMap.countIn_add (m := s.blocks) (show pos ≤ min stop (q.1 + q.2.length) by omega)
    (min_le_left stop (q.1 + q.2.length))
  have hnext : s.parts (min stop (q.1 + q.2.length)) stop = s.blocks.countIn (min stop (q.1 + q.2.length)) stop := by
    unfold parts
    split_ifs with hmore
    · rw [overlaps_eq_false fun p hp hp' => ?_]
      · exact zero_add _
      · by_cases hpq : p.1 ≤ q.1
        · rcases Nat.lt_or_eq_of_le hpq with hpq | hpq
          · have := h.disjoint p hp q hq hpq
            omega
          · rw [OrdMap.eq_of_key hp hq hpq]
            omega
        · have := h.disjoint q hq p hp (by omega)
          omega
    · exact (OrdMap.countIn_eq_zero fun p _ hin => hmore (lt_of_le_of_lt hin.1 hin.2)).symm
  rw [hnext, parts, if_pos hstop]
  omega

theorem segments_length (h : s.Published) {lo hi : Nat} (hlt : lo < hi) (hhi : hi ≤ s.length) {ds : List Bytes}
    (hds : s.segments lo hi = some ds) : s.segmentCount lo hi = ds.length := by
  have hcount : s.segmentCount lo hi = s.parts (s.head + lo) (s.head + hi) :=
    (if_pos (Nat.add_lt_add_left hlt _)).symm
  -- what was collected and what is left are all blocks of the range
  let Inv (st : Nat × List Bytes) : Prop := s.head + lo ≤ st.1 ∧
    st.2.length + s.parts st.1 (s.head + hi) = s.parts (s.head + lo) (s.head + hi)
  have hturn : ∀ st, Inv st → (∃ ds, s.segmentTurn (s.head + hi) st = .done ds ∧
      ds.length = s.parts (s.head + lo) (s.head + hi)) ∨
      ∃ st', s.segmentTurn (s.head + hi) st = .again st' ∧ Inv st' ∧ s.head + hi - st'.1 < s.head + hi - st.1 := by
    rintro ⟨pos, ds⟩ ⟨hpos, hlength⟩
    simp only at hpos hlength
    unfold segmentTurn
    simp only
    split_ifs with hmore
    · obtain ⟨q, hq, hqle, hqlt⟩ := h.covered pos (by omega) (by omega)
      have hstep := parts_step h.apart hq hqle hqlt hmore
      have hnext : pos + min (s.head + hi - pos) (q.1 + q.2.length - pos) = min (s.head + hi) (q.1 + q.2.length) := by
        omega
      rw [h.apart.lastAtMost hq ⟨hqle, hqlt⟩]
      simp only
      rw [if_neg (by omega), hnext]
      refine .inr ⟨_, rfl, ⟨by simp only; omega, ?_⟩, by simp only; omega⟩
      simp only [length_append, length_singleton]
      omega
    · refine .inl ⟨ds, rfl, ?_⟩
      rw [parts, if_neg hmore] at hlength
      exact hlength
  obtain ⟨_, hsome, hlength⟩ := loop_spec Inv _ (fun st => s.head + hi - st.1) hturn (hi - lo + 1) (s.head + lo, [])
    ⟨le_rfl, zero_add _⟩ (by simp only; omega)
  rw [hcount, ← hlength, some.inj (hsome.symm.trans hds)]

theorem getAllocated_length (h : s.Published) {position : Nat} (hq : q ∈ s.blocks) (hle : q.1 ≤ s.head + position)
    (hlt : s.head + position < q.1 + q.2.length) (hpos : position < stop) (hstop : stop ≤ s.length) :
    ∃ part, s.getAllocated position (stop - position) = some part ∧
      s.head + position + part.length = min (s.head + stop) (q.1 + q.2.length) := by
  unfold getAllocated
  rw [if_neg (by omega)]
  simp only [h.apart.lastAtMost hq ⟨hle, hlt⟩]
  rw [if_pos (by omega)]
  refine ⟨_, rfl, ?_⟩
  rw [length_slice]
  omega

theorem segmentLenWithin_spec (h : s.Published) (hstop : stop ≤ s.length) (n : Nat) {position : Nat}
    (hposition : position ≤ stop) : ∃ last, s.segmentLenWithin stop n position = some last ∧ position ≤ last ∧
      last ≤ stop ∧ (n ≠ 0 → position < stop → position < last) ∧ s.parts (s.head + position) (s.head + last) ≤ n := by
  have hnone : s.parts (s.head + position) (s.head + position) = 0 := if_neg (lt_irrefl _)
  induction n generalizing position with
  | zero => exact ⟨position, rfl, le_rfl, hposition, fun hn => absurd rfl hn, le_of_eq hnone⟩
  | succ n ih =>
    unfold segmentLenWithin
    by_cases heq : position = stop
    · rw [if_pos heq]
      exact ⟨position, rfl, le_rfl, hposition, fun _ hlt => absurd heq (Nat.ne_of_lt hlt),
        hnone ▸ zero_le⟩
    · have hlt := Nat.lt_of_le_of_ne hposition heq
      obtain ⟨q, hq, hqle, hqlt⟩ := h.covered (s.head + position) (by omega) (by omega)
      obtain ⟨part, hpart, hlength⟩ := getAllocated_length h hq hqle hqlt hlt hstop
      obtain ⟨last, hlast, hle, hle', -, hparts⟩ := ih (show position + part.length ≤ stop by omega)
        (if_neg (lt_irrefl _))
      rw [if_neg heq, hpart]
      cases part with
      | nil =>
        rw [length_nil] at hlength
        omega
      | cons first rest =>
        have hpos : 0 < (first :: rest).length := Nat.succ_pos _
        refine ⟨last, hlast, by omega, hle', fun _ _ => by omega, ?_⟩
        have hnext : min (s.head + last) (q.1 + q.2.length) = s.head + (position + (first :: rest).length) := by omega
        rw [parts_step h.apart hq hqle hqlt (by omega), hnext]
        exact Nat.succ_le_succ hparts

theorem segmentLen_spec (h : s.Published) (offset size : Nat) : ∃ n, s.segmentLen offset size = some n ∧
    n ≤ s.length - offset ∧ (offset < s.length → 0 < size → 0 < n) ∧
    s.parts (s.head + offset) (s.head + (offset + n)) ≤ 64 := by
  by_cases hin : offset ≤ s.length
  · have hstop : offset + min size (s.length - offset) ≤ s.length := by omega
    obtain ⟨last, hlast, hle, hle', hmore, hparts⟩ := segmentLenWithin_spec h hstop 64 (Nat.le_add_right offset _)
    refine ⟨last - offset, by rw [segmentLen, hlast]; rfl, by omega, fun hlt hsize => ?_, ?_⟩
    · have := hmore (by decide) (by omega)
      omega
    · rwa [Nat.add_sub_cancel' hle]
  · have hzero : offset + min size (s.length - offset) = offset := by omega
    refine ⟨0, ?_, zero_le, fun hlt => by omega, ?_⟩
    · rw [segmentLen, hzero, segmentLenWithin, if_pos rfl, map_some, Nat.sub_self]
    · rw [add_zero, parts, if_neg (lt_irrefl _)]
      exact zero_le

end TcpStorage.Storage

/-! ## Reservations and vectors -/

theorem sendVectors_eq {payload : List Bytes} (h : payload.length ≤ 64) (virtio header : Bytes) :
    sendVectors virtio header payload = some (virtio :: header :: payload) := by
  unfold sendVectors
  rw [if_pos h, take_of_length_le h, take_succ_cons, take_succ_cons, take_left]

theorem size_of_emit (arena : Arena) (handle : Nat) (ip : IpRepr) (segmentSize : Option Nat) :
    (emit arena ip segmentSize).2.size handle ≤ (emit arena ip segmentSize).1 := by
  cases segmentSize with
  | none => exact le_of_eq (congrArg charge (arena.length_encode _ _))
  | some => simp [emit, Transmit.of, Transmit.size, arena.length_encode]

theorem emitScattered_size {s : Storage} (h : s.Published) (arena : Arena) (handle : Nat) {ip : IpRepr} {header : Nat}
    (segmentSize : Option Nat) {lo hi : Nat} (hhi : hi ≤ s.length) (hip : ip.payloadLen = header + (hi - lo)) :
    ∃ cost item, emitScattered arena handle ip header segmentSize s lo hi = some (cost, item) ∧
      item.size handle ≤ cost := by
  unfold emitScattered
  by_cases hempty : hi ≤ lo
  · rw [if_pos hempty]
    exact ⟨_, _, rfl, size_of_emit arena handle ip segmentSize⟩
  · obtain ⟨parts, hparts, -, -, hlength⟩ := Storage.segments_spec h (Nat.le_of_not_le hempty) hhi
    have hcount := Storage.segments_length h (not_le.1 hempty) hhi hparts
    rw [if_neg hempty, hparts]
    cases segmentSize with
    | none =>
      simp only [bind_eq_bind, bind_some]
      rw [if_pos (by rw [hip, hlength])]
      refine ⟨_, _, rfl, ?_⟩
      simp only [Transmit.of, Transmit.size, arena.length_encode]
      exact le_self_add
    | some =>
      refine ⟨_, _, rfl, ?_⟩
      simp only [Transmit.of, Transmit.size, arena.length_encode, hcount, IpRepr.bufferLen, hip, charge,
        ← List.length_flatten, hlength]
      omega

/-- **Scattered output fits its reservation and its vectors**, over blocks that cover the published prefix. -/
theorem TcpStorage.Storage.Published.scattered_output {s : Storage} (h : s.Published) :
    (∀ lo hi, lo < hi → hi ≤ s.length → ∃ parts, s.segments lo hi = some parts ∧ s.segmentCount lo hi = parts.length ∧
      (∀ part ∈ parts, part ≠ []) ∧ s.abs.Reads (s.head + lo) parts.flatten ∧ parts.flatten.length = hi - lo) ∧
    (∀ offset size, ∃ n, s.segmentLen offset size = some n ∧ n ≤ s.length - offset ∧
      (offset < s.length → 0 < size → 0 < n) ∧ ∀ parts, s.segments offset (offset + n) = some parts →
        parts.length ≤ 64 ∧ ∀ virtio header, sendVectors virtio header parts = some (virtio :: header :: parts)) ∧
    ∀ (arena : Arena) (handle : Nat) (ip : IpRepr) (header : Nat) (segmentSize : Option Nat),
      (emit arena ip segmentSize).2.size handle ≤ (emit arena ip segmentSize).1 ∧
      ∀ lo hi, hi ≤ s.length → ip.payloadLen = header + (hi - lo) → ∃ cost item,
        emitScattered arena handle ip header segmentSize s lo hi = some (cost, item) ∧ item.size handle ≤ cost := by
  refine ⟨fun lo hi hlt hhi => ?_, fun offset size => ?_, fun arena handle ip header segmentSize => ?_⟩
  · obtain ⟨parts, hparts, hne, hreads, hlength⟩ := segments_spec h (le_of_lt hlt) hhi
    exact ⟨parts, hparts, segments_length h hlt hhi hparts, hne, hreads, hlength⟩
  · obtain ⟨n, hn, hle, hpos, hparts⟩ := segmentLen_spec h offset size
    refine ⟨n, hn, hle, hpos, fun parts hsegments => ?_⟩
    have hlength : parts.length ≤ 64 := by
      by_cases hzero : n = 0
      · have hnil : s.segments offset (offset + n) = some [] := by
          rw [hzero, segments, add_zero, Nat.sub_self]
          exact loop_done (if_neg (lt_irrefl _))
        rw [some.inj (hsegments.symm.trans hnil)]
        exact zero_le
      · rw [← segments_length h (by omega) (by omega) hsegments]
        rwa [Storage.parts, if_pos (by omega)] at hparts
    exact ⟨hlength, sendVectors_eq hlength⟩
  · exact ⟨size_of_emit arena handle ip segmentSize, fun lo hi => emitScattered_size h arena handle segmentSize⟩

theorem TcpStorage.Storage.Published.scattered_output_two : ∃ s : Storage, s.length = 7 ∧ s.segmentCount 1 6 = 2 ∧
    s.segments 1 6 = some [[2, 3], [4, 5, 6]] ∧ s.segmentLen 1 5 = some 5 ∧
    ∃ parts, s.segments 1 6 = some parts ∧ s.segmentCount 1 6 = parts.length := by
  have h : Published (((new 100 true 0 0).push [1, 2, 3]).2.push [4, 5, 6, 7]).2 := by
    have hmem : ∀ p ∈ [(0, ([1, 2, 3] : Bytes)), (3, [4, 5, 6, 7])], p = (0, [1, 2, 3]) ∨ p = (3, [4, 5, 6, 7]) := by
      simp
    refine ⟨⟨fun p hp => ?_, fun p hp q hq => ?_⟩, fun i _ hi => ?_⟩
    · rcases hmem p hp with rfl | rfl <;> exact nofun
    · rcases hmem p hp with rfl | rfl <;> rcases hmem q hq with rfl | rfl <;> decide
    · by_cases hfirst : i < 3
      · exact ⟨(0, [1, 2, 3]), mem_cons_self, zero_le, hfirst⟩
      · exact ⟨(3, [4, 5, 6, 7]), mem_cons_of_mem _ mem_cons_self, not_lt.1 hfirst, hi⟩
  obtain ⟨parts, hparts, hcount, -⟩ := h.scattered_output.1 1 6 (by decide) (by decide)
  exact ⟨_, rfl, rfl, rfl, rfl, parts, hparts, hcount⟩

end Kotoconn.Tun
