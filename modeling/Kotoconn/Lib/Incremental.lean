import Mathlib

/-!
# Decoders that keep what they cannot use yet

A decoder takes a state and a buffer to its output, the next state and the part of the buffer it keeps.

* `Resumable run`: decoding `x ++ y` is decoding `x` and then what is left of it with `y` behind;
* `feed`: one arrival; `Resumable.foldl_feed`: how the input is cut into arrivals does not matter.
-/

namespace Kotoconn.Lib
open List

section
variable {σ α β : Type}

def Resumable (run : σ → List β → List α × σ × List β) : Prop := ∀ s x y, run s (x ++ y) =
  ((run s x).1 ++ (run (run s x).2.1 ((run s x).2.2 ++ y)).1, (run (run s x).2.1 ((run s x).2.2 ++ y)).2)

def feed (run : σ → List β → List α × σ × List β) (st : List α × σ × List β) (chunk : List β) : List α × σ × List β :=
  (st.1 ++ (run st.2.1 (st.2.2 ++ chunk)).1, (run st.2.1 (st.2.2 ++ chunk)).2)

/-- **Arrivals can be cut anywhere.** -/
theorem Resumable.foldl_feed {run : σ → List β → List α × σ × List β} (h : Resumable run) (s : σ) (x : List β)
    (chunks : List (List β)) : chunks.foldl (feed run) (run s x) = run s (x ++ chunks.flatten) := by
  induction chunks generalizing x with
  | nil => rw [foldl_nil, flatten_nil, append_nil]
  | cons chunk _ ih =>
    have hfeed : feed run (run s x) chunk = run s (x ++ chunk) := (h s x chunk).symm
    rw [foldl_cons, hfeed, ih, flatten_cons, append_assoc]

end

end Kotoconn.Lib
