import Kotoconn.Tun.TcpStorage.Model

/-!
# The flat byte stream behind a storage

What a storage is for: a partial map from absolute stream positions to bytes and a published prefix.
-/

namespace Kotoconn.Tun.TcpStorage
open Lib Lib.Sparse

inductive Op where
  | push (bytes : Bytes)
  | take
  | writeUnallocated (offset : Nat) (data : Bytes)
  | enqueueUnallocated (count : Nat)
  | dequeueAllocated (count : Nat)
  | clear
  deriving DecidableEq

/-- A partial map from stream positions to bytes, published from `head` for `length` positions. -/
structure Flat where
  bytes : Nat → Option UInt8
  head : Nat
  length : Nat

namespace Flat

def empty : Flat := ⟨fun _ => none, 0, 0⟩

/-- Positions `pos` onward read `data`. -/
def overwrite (bytes : Nat → Option UInt8) (pos : Nat) (data : Bytes) : Nat → Option UInt8 :=
  fun i => if pos ≤ i ∧ i < pos + data.length then data[i - pos]? else bytes i

/-- Positions before `stop` are gone. -/
def forget (bytes : Nat → Option UInt8) (stop : Nat) : Nat → Option UInt8 :=
  fun i => if i < stop then none else bytes i

/-- The stream reads `data` from `pos` on. -/
def Reads (f : Flat) (pos : Nat) (data : Bytes) : Prop := ∀ i < data.length, f.bytes (pos + i) = data[i]?

/-- Drop the first `count` published positions. -/
def consume (f : Flat) (count : Nat) : Flat := ⟨forget f.bytes (f.head + count), f.head + count, f.length - count⟩

/-- What the callers keep to: a transmit buffer is only appended to while nothing unpublished is stored, the TCP
assembler only publishes positions that were written, and no more than the published prefix is dropped. -/
def Allowed (f : Flat) : Op → Prop
  | .push _ => ∀ i, f.head + f.length ≤ i → f.bytes i = none
  | .enqueueUnallocated n => ∀ i, f.head + f.length ≤ i → i < f.head + f.length + n → f.bytes i ≠ none
  | .dequeueAllocated n => n ≤ f.length
  | .take | .writeUnallocated _ _ | .clear => True

inductive Step (f : Flat) : Op → Option Bytes → Flat → Prop
  | push (d : Bytes) :
      Step f (.push d) none ⟨overwrite f.bytes (f.head + f.length) d, f.head, f.length + d.length⟩
  | takeNone (h : f.length = 0) : Step f .take none f
  | takeSome (d : Bytes) (hne : d ≠ []) (hle : d.length ≤ f.length) (hd : f.Reads f.head d) :
      Step f .take (some d) (f.consume d.length)
  | write (o : Nat) (d : Bytes) :
      Step f (.writeUnallocated o d) none ⟨overwrite f.bytes (f.head + f.length + o) d, f.head, f.length⟩
  | enqueue (n : Nat) : Step f (.enqueueUnallocated n) none ⟨f.bytes, f.head, f.length + n⟩
  | dequeue (n : Nat) : Step f (.dequeueAllocated n) none (f.consume n)
  | clear : Step f .clear none empty

inductive Run : List (Op × Option Bytes) → Flat → Prop
  | new : Run [] empty
  | step {t : List (Op × Option Bytes)} {f f' : Flat} {op : Op} {out : Option Bytes} :
      Run t f → f.Allowed op → f.Step op out f' → Run (t ++ [(op, out)]) f'

end Flat

namespace Storage

def abs (s : Storage) : Flat := ⟨cell s.blocks, s.head, s.length⟩

@[simp] theorem abs_bytes (s : Storage) : s.abs.bytes = cell s.blocks := rfl

/-- Blocks are non-empty, pairwise disjoint, start at or after the head and cover the published prefix. -/
structure WellFormed (s : Storage) : Prop where
  apart : Apart s.blocks
  fromHead : ∀ q ∈ s.blocks, s.head ≤ q.1
  covered : ∀ i, s.head ≤ i → i < s.head + s.length → ∃ q ∈ s.blocks, q.1 ≤ i ∧ i < q.1 + q.2.length

structure Published (s : Storage) : Prop where
  apart : Apart s.blocks
  covered : ∀ i, s.head ≤ i → i < s.head + s.length → ∃ q ∈ s.blocks, q.1 ≤ i ∧ i < q.1 + q.2.length

theorem WellFormed.published {s : Storage} (h : s.WellFormed) : s.Published := ⟨h.apart, h.covered⟩

theorem wellFormed_iff {s : Storage} : s.WellFormed ↔ Apart s.blocks ∧ (∀ i < s.head, cell s.blocks i = none) ∧
    ∀ i, s.head ≤ i → i < s.head + s.length → cell s.blocks i ≠ none := by
  constructor
  · intro h
    refine ⟨h.apart, fun i hi => cell_eq_none h.apart (fun q hq hqi => ?_), fun i h1 h2 => ?_⟩
    · have := h.fromHead q hq
      omega
    · obtain ⟨q, hq, _, hlt⟩ := h.covered i h1 h2
      have hc := cell_of_mem h.apart hq (i := i - q.1) (by omega)
      rw [show q.1 + (i - q.1) = i by omega] at hc
      rw [hc, List.getElem?_eq_getElem (by omega)]
      exact Option.some_ne_none _
  · rintro ⟨hap, hbelow, hcov⟩
    refine ⟨hap, fun q hq => ?_, fun i h1 h2 => exists_block hap (hcov i h1 h2)⟩
    by_contra hlt
    have hpos := hap.length_pos hq
    have hc := cell_of_mem hap hq (i := 0) hpos
    rw [add_zero, hbelow q.1 (by omega), List.getElem?_eq_getElem hpos] at hc
    cases hc

theorem WellFormed.below {s : Storage} (h : s.WellFormed) {i : Nat} (hi : i < s.head) : cell s.blocks i = none :=
  (wellFormed_iff.1 h).2.1 i hi

theorem WellFormed.stored {s : Storage} (h : s.WellFormed) {i : Nat} (h1 : s.head ≤ i) (h2 : i < s.head + s.length) :
    cell s.blocks i ≠ none := (wellFormed_iff.1 h).2.2 i h1 h2

theorem new_wellFormed (target : Nat) (tx : Bool) (outstanding released : Nat) :
    (new target tx outstanding released).WellFormed :=
  ⟨Apart.empty, fun q hq => absurd hq (OrdMap.not_mem_empty q), fun i h1 h2 => by
    simp only [new] at h1 h2; omega⟩

theorem new_abs (target : Nat) (tx : Bool) (outstanding released : Nat) :
    (new target tx outstanding released).abs = Flat.empty := by
  have hcell : cell (OrdMap.empty : OrdMap Bytes) = fun _ => none := by
    funext i
    exact cell_eq_none Apart.empty (fun q hq => absurd hq (OrdMap.not_mem_empty q))
  simp [abs, new, Flat.empty, hcell]

end Storage

end Kotoconn.Tun.TcpStorage
