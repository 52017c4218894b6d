import Kotoconn.Tun.TcpStorage.Blocks

/-!
# What the readers return

On well-formed blocks every reader returns bytes of the flat stream: `getAllocated` a part that ends with its block,
`getSegment`, `readAllocated` and `dequeueSlice` all the bytes asked for that are published, `segments` views that
concatenate to the range.
-/

namespace Kotoconn.Tun.TcpStorage
open Lib Lib.Sparse List

theorem Flat.Reads.nil (f : Flat) (pos : Nat) : f.Reads pos [] := fun i hi => absurd hi (Nat.not_lt_zero i)

theorem Flat.Reads.append {f : Flat} {pos : Nat} {a b : Bytes} (ha : f.Reads pos a) (hb : f.Reads (pos + a.length) b) :
    f.Reads pos (a ++ b) := by
  intro i hi
  rw [length_append] at hi
  rw [getElem?_append]
  split_ifs with h
  · exact ha i h
  · have := hb (i - a.length) (by omega)
    rwa [show pos + a.length + (i - a.length) = pos + i by omega] at this

namespace Storage

variable {s : Storage}

theorem reads_slice (h : Apart s.blocks) {q : Nat × Bytes} (hq : q ∈ s.blocks) (lo : Nat) {hi : Nat}
    (hhi : hi ≤ q.2.length) : s.abs.Reads (q.1 + lo) (slice q.2 lo hi) := by
  intro i hi'
  rw [length_slice] at hi'
  rw [getElem?_slice, if_pos (by omega), abs_bytes, add_assoc]
  exact cell_of_mem h hq (by omega)

theorem getAllocated_spec (h : s.Published) (offset size : Nat) :
    ∃ d, s.getAllocated offset size = some d ∧ s.abs.Reads (s.head + offset) d ∧
      d.length ≤ min size (s.length - offset) ∧ (0 < min size (s.length - offset) → d ≠ []) := by
  unfold getAllocated
  by_cases hout : s.length ≤ offset
  · rw [if_pos hout]
    exact ⟨[], rfl, Flat.Reads.nil _ _, zero_le, fun hpos => by omega⟩
  · rw [if_neg hout]
    obtain ⟨q, hq, hle, hlt⟩ := h.covered (s.head + offset) (by omega) (by omega)
    simp only [h.apart.lastAtMost hq ⟨hle, hlt⟩]
    rw [if_pos (by omega)]
    refine ⟨_, rfl, ?_, ?_, fun hpos he => ?_⟩
    · have hr := reads_slice h.apart hq (s.head + offset - q.1)
        (min_le_left q.2.length (s.head + offset - q.1 + min size (s.length - offset)))
      rwa [show q.1 + (s.head + offset - q.1) = s.head + offset by omega] at hr
    · rw [length_slice]
      omega
    · have hl := congrArg List.length he
      rw [length_slice, length_nil] at hl
      omega

def Copied (s : Storage) (offset size : Nat) (out : Bytes) : Prop :=
  s.abs.Reads (s.head + offset) out ∧ out.length ≤ min size (s.length - offset)

theorem Copied.nil (s : Storage) (offset size : Nat) : s.Copied offset size [] :=
  ⟨Flat.Reads.nil _ _, zero_le⟩

variable (h : s.WellFormed)
include h

theorem Copied.part {offset size : Nat} {out : Bytes} (hc : s.Copied offset size out) :
    ∃ d, s.getAllocated (offset + out.length) (size - out.length) = some d ∧ s.Copied offset size (out ++ d) ∧
      (d = [] ↔ out.length = min size (s.length - offset)) := by
  obtain ⟨d, hd, hr, _, hne⟩ := getAllocated_spec h.published (offset + out.length) (size - out.length)
  have hcl := hc.2
  rw [← add_assoc] at hr
  refine ⟨d, hd, ⟨hc.1.append hr, by rw [length_append]; omega⟩, fun he => ?_, fun hl => ?_⟩
  · by_contra hlt
    exact hne (by omega) he
  · exact length_eq_zero_iff.1 (by omega)

theorem gather_spec {offset wanted : Nat} (hw : wanted ≤ s.length - offset) :
    ∃ d, loop (s.gather offset wanted) (wanted + 1) [] = some d ∧ s.abs.Reads (s.head + offset) d ∧
      d.length = wanted := by
  refine loop_spec (s.Copied offset wanted) (fun d => s.abs.Reads (s.head + offset) d ∧ d.length = wanted)
    (fun out => wanted - out.length) (fun out hout => ?_) _ [] (Copied.nil s offset wanted) (by omega)
  unfold gather
  have hle := hout.2
  split_ifs with hmore
  · obtain ⟨d, hd, hc, hiff⟩ := hout.part h
    rw [hd]
    cases d with
    | nil => have := hiff.1 rfl; omega
    | cons =>
      refine .inr ⟨_, rfl, hc, ?_⟩
      rw [length_append, length_cons]
      omega
  · exact .inl ⟨out, rfl, hout.1, by omega⟩

theorem getSegment_spec (offset size : Nat) :
    ∃ d s', s.getSegment offset size = some (d, s') ∧ s.abs.Reads (s.head + offset) d ∧
      d.length = min size (s.length - offset) ∧ s'.WellFormed ∧ s'.abs = s.abs := by
  unfold getSegment
  obtain ⟨part, hpart, hr, -, -⟩ := getAllocated_spec h.published offset (min size (s.length - offset))
  simp only [hpart]
  split_ifs with hwhole
  · exact ⟨part, s, rfl, hr, hwhole, h, rfl⟩
  · obtain ⟨d, hd, hdr, hlen⟩ := gather_spec h (min_le_right size (s.length - offset))
    rw [hd]
    exact ⟨d, _, rfl, hdr, hlen, ⟨h.apart, h.fromHead, h.covered⟩, rfl⟩

theorem readAllocated_spec (offset size : Nat) :
    ∃ d, s.readAllocated offset size = some d ∧ s.abs.Reads (s.head + offset) d ∧
      d.length = min size (s.length - offset) := by
  refine loop_spec (s.Copied offset size) (fun d => s.abs.Reads (s.head + offset) d ∧
    d.length = min size (s.length - offset)) (fun out => size - out.length) (fun out hout => ?_) _ []
    (Copied.nil s offset size) (by omega)
  unfold readTurn
  have hle := hout.2
  split_ifs with hmore
  · obtain ⟨d, hd, hc, hiff⟩ := hout.part h
    rw [hd]
    cases d with
    | nil => exact .inl ⟨out, rfl, hout.1, hiff.1 rfl⟩
    | cons =>
      refine .inr ⟨_, rfl, hc, ?_⟩
      rw [length_append, length_cons]
      omega
  · exact .inl ⟨out, rfl, hout.1, by omega⟩

theorem dequeueSlice_spec (size : Nat) :
    ∃ d s', s.dequeueSlice size = some (d, s') ∧ s.abs.Reads s.head d ∧ d.length = min size s.length ∧
      s'.WellFormed ∧ s'.abs = s.abs.consume d.length := by
  obtain ⟨d, hd, hr, hlen⟩ := readAllocated_spec h 0 size
  obtain ⟨s', hs', hwf, habs⟩ := dequeueAllocated_spec h (show d.length ≤ s.length by omega)
  refine ⟨d, s', ?_, hr, hlen, hwf, habs⟩
  simp only [dequeueSlice, hd, hs', Option.map_some]

omit h

theorem segments_spec (h : s.Published) {lo hi : Nat} (hle : lo ≤ hi) (hhi : hi ≤ s.length) :
    ∃ ds, s.segments lo hi = some ds ∧ (∀ d ∈ ds, d ≠ []) ∧ s.abs.Reads (s.head + lo) ds.flatten ∧
      ds.flatten.length = hi - lo := by
  -- the views collected so far end where the next one starts
  let Inv (st : Nat × List Bytes) : Prop := (∀ d ∈ st.2, d ≠ []) ∧ s.abs.Reads (s.head + lo) st.2.flatten ∧
    st.1 = s.head + lo + st.2.flatten.length ∧ st.1 ≤ s.head + hi
  refine loop_spec Inv (fun ds : List Bytes => (∀ d ∈ ds, d ≠ []) ∧ s.abs.Reads (s.head + lo) ds.flatten ∧
    ds.flatten.length = hi - lo) (fun st => s.head + hi - st.1) (fun st hst => ?_) (hi - lo + 1) (s.head + lo, [])
    ⟨by simp, Flat.Reads.nil _ _, by simp, by simp only; omega⟩ (by simp only; omega)
  obtain ⟨pos, ds⟩ := st
  obtain ⟨hne, hr, hpos, hend⟩ := hst
  simp only at hne hr hpos hend
  unfold segmentTurn
  simp only
  split_ifs with hmore
  · obtain ⟨q, hq, hqle, hqlt⟩ := h.covered pos (by omega) (by omega)
    rw [h.apart.lastAtMost hq ⟨hqle, hqlt⟩]
    simp only
    rw [if_neg (by omega)]
    have hlen : (slice q.2 (pos - q.1) (pos - q.1 + min (s.head + hi - pos) (q.1 + q.2.length - pos))).length
        = min (s.head + hi - pos) (q.1 + q.2.length - pos) := by
      rw [length_slice]; omega
    have hstop : pos - q.1 + min (s.head + hi - pos) (q.1 + q.2.length - pos) ≤ q.2.length := by omega
    have hslice := reads_slice h.apart hq (pos - q.1) hstop
    rw [show q.1 + (pos - q.1) = s.head + lo + ds.flatten.length by omega] at hslice
    refine .inr ⟨_, rfl, ⟨fun d hd => ?_, ?_, ?_, ?_⟩, ?_⟩
    · rcases mem_append.1 hd with hd | hd
      · exact hne d hd
      · rw [mem_singleton.1 hd]
        intro he
        rw [he, length_nil] at hlen
        omega
    · simp only [flatten_append, flatten_singleton]
      exact hr.append hslice
    · simp only [flatten_append, flatten_singleton, length_append, hlen]
      omega
    · simp only; omega
    · simp only; omega
  · exact .inl ⟨ds, rfl, hne, hr, by omega⟩

end Storage

end Kotoconn.Tun.TcpStorage
