import Kotoconn.Lib.Bytes
import Kotoconn.Lib.Channel

/-!
# `shadowsocks2022/buffered.rs`: the write adapter

The writer of the library below captures its input as a frame, and when that frame is out reports the length of the
input of the call that finished it. The adapter presents the same input until then.

`Writer`: the stream below; `Writer.Documented` is what the library does.
-/

namespace Kotoconn.Shadowsocks2022
open Lib List Option

structure Writer (σ ε : Type) where
  pollWrite : σ → Bytes → Poll (Except ε Nat) × σ
  pollFlush : σ → Poll (Except ε Unit) × σ

/-- The frames that a state has captured, and whether the last one is still in progress. A call without a frame in
progress captures its whole input; one that finishes a frame reports the length of its own input. -/
structure Writer.Documented {σ ε : Type} (w : Writer σ ε) (frames : σ → List Bytes) (busy : σ → Bool) : Prop where
  captures : ∀ s input, busy s = false → frames (w.pollWrite s input).2 = frames s ++ [input]
  continues : ∀ s input, busy s = true → frames (w.pollWrite s input).2 = frames s
  outcome : ∀ s input, (w.pollWrite s input).1 = .ready (.ok input.length) ∧ busy (w.pollWrite s input).2 = false ∨
    (w.pollWrite s input).1 = .pending ∧ busy (w.pollWrite s input).2 = true
  flush : ∀ s, frames (w.pollFlush s).2 = frames s ∧ busy (w.pollFlush s).2 = busy s

inductive WriteError (ε : Type) where
  | invalidInput (text : String)
  | inner (e : ε)
  deriving DecidableEq

def changed {ε : Type} : WriteError ε := .invalidInput "Shadowsocks write retry changed its pending prefix"

structure Buffered (σ : Type) where
  stream : σ
  pending : Option Bytes

namespace Buffered
variable {σ ε : Type}

def new (stream : σ) : Buffered σ := ⟨stream, none⟩

def maxInput : Nat := 8192

/-- The stream below is polled with `input`, which is kept while the write is pending. -/
def forward (w : Writer σ ε) (b : Buffered σ) (input : Bytes) : Poll (Except (WriteError ε) Nat) × Buffered σ :=
  match w.pollWrite b.stream input with
  | (.pending, stream) => (.pending, ⟨stream, some (b.pending.getD input)⟩)
  | (.ready (.ok n), stream) => (.ready (.ok n), ⟨stream, none⟩)
  | (.ready (.error e), stream) => (.ready (.error (.inner e)), ⟨stream, none⟩)

def pollWrite (w : Writer σ ε) (b : Buffered σ) (data : Bytes) : Poll (Except (WriteError ε) Nat) × Buffered σ :=
  match b.pending with
  | some pending =>
    if pending <+: data then b.forward w pending
    else (.ready (.error changed), b)
  | none => b.forward w (data.take maxInput)

def pollFlush (w : Writer σ ε) (b : Buffered σ) : Poll (Except ε Unit) × Buffered σ :=
  let r := w.pollFlush b.stream
  (r.1, { b with stream := r.2 })

def reported (r : Poll (Except (WriteError ε) Nat)) (data : Bytes) : List (Nat × Bytes) :=
  match r with
  | .ready (.ok n) => [(n, data)]
  | _ => []

/-- Writes, with any inputs, and flushes; `reports` is what the writes were told. -/
inductive Run (w : Writer σ ε) (start : σ) : List (Nat × Bytes) → Buffered σ → Prop
  | start : Run w start [] (new start)
  | write {reports : List (Nat × Bytes)} {b : Buffered σ} (data : Bytes) : Run w start reports b →
      Run w start (reports ++ reported (b.pollWrite w data).1 data) (b.pollWrite w data).2
  | flush {reports : List (Nat × Bytes)} {b : Buffered σ} : Run w start reports b →
      Run w start reports (b.pollFlush w).2

variable {w : Writer σ ε} {frames : σ → List Bytes} {busy : σ → Bool} {start : σ} {reports : List (Nat × Bytes)}
  {b : Buffered σ}

/-- The reports are the frames: each is a prefix of an input that was captured as one frame, and a frame that is not
reported is the one in progress. -/
structure Exact (frames : σ → List Bytes) (busy : σ → Bool) (start : σ) (reports : List (Nat × Bytes))
    (b : Buffered σ) : Prop where
  frames : frames b.stream = frames start ++ reports.map (fun x => x.2.take x.1) ++ b.pending.toList
  within : ∀ x ∈ reports, x.1 ≤ x.2.length ∧ x.1 ≤ maxInput
  pending : ∀ p, b.pending = some p → p.length ≤ maxInput
  busy : busy b.stream = b.pending.isSome

/-- A write whose input begins with what is in progress, or, without that, with the frame to be captured. -/
theorem Exact.forward (hw : w.Documented frames busy) (h : Exact frames busy start reports b) {data input : Bytes}
    (hdata : input <+: data) (hinput : input.length ≤ maxInput) (hpending : ∀ p, b.pending = some p → p = input) :
    Exact frames busy start (reports ++ reported (b.forward w input).1 data) (b.forward w input).2 := by
  -- the frame in progress is the input
  have hframes : frames (w.pollWrite b.stream input).2 =
      frames start ++ reports.map (fun x => x.2.take x.1) ++ [input] := by
    cases hb : b.pending with
    | none =>
      have hidle : busy b.stream = false := by rw [h.busy, hb]; rfl
      rw [hw.captures _ _ hidle, h.frames, hb, toList_none, append_nil]
    | some p =>
      have hbusy : busy b.stream = true := by rw [h.busy, hb]; rfl
      rw [hw.continues _ _ hbusy, h.frames, hb, hpending p hb, toList_some]
  unfold Buffered.forward
  rcases hcall : w.pollWrite b.stream input with ⟨r, stream⟩
  have houtcome := hw.outcome b.stream input
  rw [hcall] at hframes houtcome
  rcases houtcome with ⟨hr, hidle⟩ | ⟨hr, hbusy⟩
  · simp only at hr hidle hframes
    subst hr
    have hhead : data.take input.length = input := (prefix_iff_eq_take.1 hdata).symm
    refine ⟨?_, fun x hx => ?_, fun p hp => (nomatch hp), hidle⟩
    · simp only [reported, map_append, map_cons, map_nil, hhead, toList_none, append_nil]
      rw [hframes, append_assoc]
    · rcases mem_append.1 hx with hx | hx
      · exact h.within x hx
      · rw [mem_singleton.1 hx]
        exact ⟨hdata.length_le, hinput⟩
  · simp only at hr hbusy hframes
    subst hr
    have hkept : b.pending.getD input = input := by
      cases hb : b.pending with
      | none => rfl
      | some p => exact hpending p hb
    simp only [reported, append_nil, hkept]
    refine ⟨hframes, h.within, fun p hp => ?_, hbusy⟩
    rw [← some.inj hp]
    exact hinput

theorem Exact.write (hw : w.Documented frames busy) (h : Exact frames busy start reports b) (data : Bytes) :
    Exact frames busy start (reports ++ reported (b.pollWrite w data).1 data) (b.pollWrite w data).2 := by
  unfold pollWrite
  cases hb : b.pending with
  | some p =>
    simp only
    split_ifs with hdata
    · refine h.forward hw hdata (h.pending p hb) fun q hq => ?_
      exact some.inj (hq.symm.trans hb)
    · simp only [reported, append_nil]
      exact h
  | none =>
    refine h.forward hw ( take_prefix _ _) (length_take_le _ _) fun q hq => ?_
    cases hq.symm.trans hb

theorem Exact.flush (hw : w.Documented frames busy) (h : Exact frames busy start reports b) :
    Exact frames busy start reports (b.pollFlush w).2 := by
  obtain ⟨hframes, hbusy⟩ := hw.flush b.stream
  exact ⟨hframes.trans h.frames, h.within, h.pending, hbusy.trans h.busy⟩

/-- **The adapter reports exactly what was encrypted**: after any writes and flushes, on a stream without a frame in
progress at the start, the prefixes that were reported are the frames captured, of at most 8192 bytes each, but for the
one in progress; and a write that does not begin with the frame in progress fails and changes nothing. -/
theorem Run.reports_exact (hw : w.Documented frames busy) (hstart : busy start = false) (h : Run w start reports b) :
    Exact frames busy start reports b ∧ ∀ p data, b.pending = some p → ¬p <+: data →
      b.pollWrite w data = (.ready (.error changed), b) := by
  refine ⟨?_, fun p data hp hdata => ?_⟩
  · induction h with
    | start => exact ⟨by simp [new], fun _ hx => (nomatch hx), fun _ hp => (nomatch hp), hstart⟩
    | write data _ ih => exact ih.write hw data
    | flush _ ih => exact ih.flush hw
  · rw [pollWrite, hp]
    exact if_neg hdata

/-! ## A writer -/

/-- The frames captured, whether the last one is in progress, and the results of the coming calls: whether each is
pending. -/
structure Scripted where
  frames : List Bytes
  busy : Bool
  script : List Bool

def scripted : Writer Scripted Unit where
  pollWrite s input :=
    let frames := if s.busy then s.frames else s.frames ++ [input]
    match s.script with
    | true :: script => (.pending, ⟨frames, true, script⟩)
    | script => (.ready (.ok input.length), ⟨frames, false, script.tail⟩)
  pollFlush s := (.ready (.ok ()), s)

theorem scripted_documented : scripted.Documented Scripted.frames Scripted.busy where
  captures s input h := by
    simp only [scripted, h]
    split <;> rfl
  continues s input h := by
    simp only [scripted, h]
    split <;> rfl
  outcome s input := by
    simp only [scripted]
    split
    · exact .inr ⟨rfl, rfl⟩
    · exact .inl ⟨rfl, rfl⟩
  flush _ := ⟨rfl, rfl⟩

theorem reports_exact_grown : ∃ b, Run scripted ⟨[], false, [true, false, true]⟩ [(2, [1, 2, 3])] b ∧ b.pending = some [3] ∧
    Exact Scripted.frames Scripted.busy ⟨[], false, [true, false, true]⟩ [(2, [1, 2, 3])] b ∧
    ∀ p data, b.pending = some p → ¬p <+: data → b.pollWrite scripted data = (.ready (.error changed), b) := by
  have h₁ := (Run.start : Run scripted ⟨[], false, [true, false, true]⟩ _ _).write [1, 2]
  have h₂ := h₁.flush.write [1, 2, 3]
  have h₃ := h₂.write [3]
  have hrun : Run scripted ⟨[], false, [true, false, true]⟩ [(2, [1, 2, 3])] ⟨⟨[[1, 2], [3]], true, []⟩, some [3]⟩ := h₃
  exact ⟨_, hrun, rfl, hrun.reports_exact scripted_documented rfl⟩

end Buffered

end Kotoconn.Shadowsocks2022
