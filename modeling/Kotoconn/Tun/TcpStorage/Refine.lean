import Kotoconn.Tun.TcpStorage.Read

/-!
# A storage refines its flat byte stream

`Storage.Run` is any sequence of operations from `Storage::new` that its callers keep to (`Flat.Allowed`), with the
shared cells changing in between. `step_refines` takes one operation, `run_refines` a whole run: the storage stays
well formed and hands out what the flat stream hands out. `storage_refines_flat` adds the readers.
-/

namespace Kotoconn.Tun.TcpStorage
open Lib Lib.Sparse Option

namespace Storage

def apply (s : Storage) : Op → Option (Option Bytes × Storage)
  | .push d => some (none, (s.push d).2)
  | .take => s.take
  | .writeUnallocated o d => (s.writeUnallocated o d).map (fun s' => (none, s'))
  | .enqueueUnallocated n => some (none, s.enqueueUnallocated n)
  | .dequeueAllocated n => (s.dequeueAllocated n).map (fun s' => (none, s'))
  | .clear => s.clear.map (fun s' => (none, s'))

/-- A run from `Storage::new`. The stream writes the shared cells at any time (`cells`). -/
inductive Run (target : Nat) (tx : Bool) (outstanding released : Nat) : List (Op × Option Bytes) → Storage → Prop
  | new : Run target tx outstanding released [] (new target tx outstanding released)
  | step {t : List (Op × Option Bytes)} {s s' : Storage} {op : Op} {out : Option Bytes} :
      Run target tx outstanding released t s → s.abs.Allowed op → s.apply op = some (out, s') →
      Run target tx outstanding released (t ++ [(op, out)]) s'
  | cells {t : List (Op × Option Bytes)} {s : Storage} (target' outstanding' released' : Nat) :
      Run target tx outstanding released t s →
      Run target tx outstanding released t
        { s with target := target', outstanding := outstanding', released := released' }

/-- Every reader returns bytes of the flat stream: `getAllocated` a part of what was asked, non-empty unless nothing
is there, the others all of it. -/
structure ReadsFlat (s : Storage) : Prop where
  getAllocated : ∀ offset size, ∃ d, s.getAllocated offset size = some d ∧ s.abs.Reads (s.head + offset) d ∧
    d.length ≤ min size (s.length - offset) ∧ (0 < min size (s.length - offset) → d ≠ [])
  getSegment : ∀ offset size, ∃ d s', s.getSegment offset size = some (d, s') ∧ s.abs.Reads (s.head + offset) d ∧
    d.length = min size (s.length - offset) ∧ s'.WellFormed ∧ s'.abs = s.abs
  readAllocated : ∀ offset size, ∃ d, s.readAllocated offset size = some d ∧ s.abs.Reads (s.head + offset) d ∧
    d.length = min size (s.length - offset)
  dequeueSlice : ∀ size, ∃ d s', s.dequeueSlice size = some (d, s') ∧ s.abs.Reads s.head d ∧
    d.length = min size s.length ∧ s'.WellFormed ∧ s'.abs = s.abs.consume d.length
  segments : ∀ lo hi, lo ≤ hi → hi ≤ s.length → ∃ ds, s.segments lo hi = some ds ∧ (∀ d ∈ ds, d ≠ []) ∧
    s.abs.Reads (s.head + lo) ds.flatten ∧ ds.flatten.length = hi - lo

theorem WellFormed.readsFlat {s : Storage} (h : s.WellFormed) : s.ReadsFlat where
  getAllocated := getAllocated_spec h.published
  getSegment := getSegment_spec h
  readAllocated := readAllocated_spec h
  dequeueSlice := dequeueSlice_spec h
  segments _ _ := segments_spec h.published

theorem step_refines {s : Storage} (h : s.WellFormed) {op : Op} (hop : s.abs.Allowed op) :
    ∃ out s', s.apply op = some (out, s') ∧ s'.WellFormed ∧ s.abs.Step op out s'.abs := by
  cases op with
  | push d =>
    obtain ⟨hwf, -, habs⟩ := push_spec h d hop
    refine ⟨none, _, rfl, hwf, ?_⟩
    rw [habs]
    exact Flat.Step.push d
  | take =>
    rcases take_spec h with ⟨h0, ht⟩ | ⟨d, s', ht, hwf, hne, hle, hr, habs⟩
    · exact ⟨none, s, ht, h, Flat.Step.takeNone h0⟩
    · refine ⟨some d, s', ht, hwf, ?_⟩
      rw [habs]
      exact Flat.Step.takeSome d hne hle hr
  | writeUnallocated o d =>
    obtain ⟨s', hs', hwf, habs⟩ := writeUnallocated_spec h o d
    refine ⟨none, s', by rw [apply, hs', map_some], hwf, ?_⟩
    rw [habs]
    exact Flat.Step.write o d
  | enqueueUnallocated n => exact ⟨none, _, rfl, enqueueUnallocated_spec h n hop, Flat.Step.enqueue n⟩
  | dequeueAllocated n =>
    obtain ⟨s', hs', hwf, habs⟩ := dequeueAllocated_spec h hop
    refine ⟨none, s', by rw [apply, hs', map_some], hwf, ?_⟩
    rw [habs]
    exact Flat.Step.dequeue n
  | clear =>
    obtain ⟨s', hs', hwf, habs⟩ := clear_spec h
    refine ⟨none, s', by rw [apply, hs', map_some], hwf, ?_⟩
    rw [habs]
    exact Flat.Step.clear

variable {target outstanding released : Nat} {tx : Bool} {t : List (Op × Option Bytes)} {s : Storage}

theorem run_refines (h : Run target tx outstanding released t s) : Flat.Run t s.abs ∧ s.WellFormed := by
  induction h with
  | new => exact ⟨by rw [new_abs]; exact Flat.Run.new, new_wellFormed _ _ _ _⟩
  | step _ hop hap ih =>
    obtain ⟨hrun, hwf⟩ := ih
    obtain ⟨_, _, hap', hwf', hstep⟩ := step_refines hwf hop
    rw [hap] at hap'
    obtain ⟨rfl, rfl⟩ := Prod.mk.inj (some.inj hap')
    exact ⟨Flat.Run.step hrun hop hstep, hwf'⟩
  | cells _ _ _ _ ih => exact ⟨ih.1, ih.2.apart, ih.2.fromHead, ih.2.covered⟩

/-- **A storage refines the flat byte stream**: along every allowed run its blocks stay well formed, the run is one
of the flat stream with the same outputs, every operation that is allowed next succeeds as the flat stream's, and
every reader returns the flat stream's bytes. -/
theorem storage_refines_flat (h : Run target tx outstanding released t s) : s.WellFormed ∧ Flat.Run t s.abs ∧
      (∀ op, s.abs.Allowed op → ∃ out s', s.apply op = some (out, s') ∧ s.abs.Step op out s'.abs) ∧ s.ReadsFlat := by
  obtain ⟨hrun, hwf⟩ := run_refines h
  refine ⟨hwf, hrun, fun op hop => ?_, hwf.readsFlat⟩
  obtain ⟨out, s', hap, -, hstep⟩ := step_refines hwf hop
  exact ⟨out, s', hap, hstep⟩

theorem storage_refines_flat_overlap : ∃ s, Run 128 false 0 0
      [(.writeUnallocated 2 [7, 8, 9], none), (.writeUnallocated 0 [1, 2, 3], none), (.enqueueUnallocated 4, none),
        (.take, some [1, 2, 3])] s ∧ s.WellFormed ∧ s.ReadsFlat := by
  have h0 : Run 128 false 0 0 [] (new 128 false 0 0) := Run.new
  have h1 := Run.step h0 (show Flat.Allowed _ (.writeUnallocated 2 [7, 8, 9]) from trivial) rfl
  have h2 := Run.step h1 (show Flat.Allowed _ (.writeUnallocated 0 [1, 2, 3]) from trivial) rfl
  have h3 := Run.step h2 (show Flat.Allowed _ (.enqueueUnallocated 4) by
    intro i _ hi
    have hi : i < 4 := hi
    interval_cases i <;> decide) rfl
  have h4 := Run.step h3 (show Flat.Allowed _ .take from trivial) rfl
  exact ⟨_, h4, (storage_refines_flat h4).1, (storage_refines_flat h4).2.2.2⟩

end Storage

end Kotoconn.Tun.TcpStorage
