import Kotoconn.Protocol.Relay

/-! # The calls of a relay -/

namespace Kotoconn.Protocol
open Lib

variable {ω : Type}

/-! ## Calls -/

namespace Direction

inductive Call (reader writer : Stream ω) (d : Direction) (w : ω) : Option ErrorKind → Direction → ω → Prop
  | read {chunk : Bytes} {w' : ω} (hbytes : d.bytes = []) (heof : d.eof = false) (hdone : d.done = false)
      (h : reader.pollReadChunk w = (.ready (.ok chunk), w')) :
      Call reader writer d w none { d with bytes := chunk, eof := chunk.isEmpty } w'
  | readPending {w' : ω} (hbytes : d.bytes = []) (h : reader.pollReadChunk w = (.pending, w')) :
      Call reader writer d w none d w'
  | readFailed {e : ErrorKind} {w' : ω} (hbytes : d.bytes = []) (h : reader.pollReadChunk w = (.ready (.error e), w')) :
      Call reader writer d w (some e) d w'
  | flush {r : Poll (Except ErrorKind Unit)} {w' : ω} (h : writer.pollFlush w = (r, w'))
      (hr : ∀ e, r ≠ .ready (.error e)) : Call reader writer d w none d w'
  | flushFailed {e : ErrorKind} {w' : ω} (h : writer.pollFlush w = (.ready (.error e), w')) :
      Call reader writer d w (some e) d w'
  | shutdown {w' : ω} (heof : d.eof = true) (hdone : d.done = false)
      (h : writer.pollShutdown w = (.ready (.ok ()), w')) : Call reader writer d w none { d with done := true } w'
  | shutdownPending {w' : ω} (heof : d.eof = true) (hdone : d.done = false)
      (h : writer.pollShutdown w = (.pending, w')) : Call reader writer d w none d w'
  | shutdownFailed {e : ErrorKind} {w' : ω} (heof : d.eof = true) (hdone : d.done = false)
      (h : writer.pollShutdown w = (.ready (.error e), w')) : Call reader writer d w (some e) d w'
  | write {n : Nat} {w' : ω} (heof : d.eof = false) (hpos : 0 < n) (hle : n ≤ d.bytes.length)
      (h : writer.pollWriteChunk w d.bytes = (.ready (.ok n), d.bytes.drop n, w')) :
      Call reader writer d w none { d with bytes := d.bytes.drop n, transferred := d.transferred + n }
        (reader.consumeChunk w' n)
  | writePending {w' : ω} (h : writer.pollWriteChunk w d.bytes = (.pending, d.bytes, w')) :
      Call reader writer d w none d w'
  | writeZero {bytes : Bytes} {w' : ω} (h : writer.pollWriteChunk w d.bytes = (.ready (.ok 0), bytes, w')) :
      Call reader writer d w (some .writeZero) { d with bytes := bytes } w'
  | writeFailed {e : ErrorKind} {bytes : Bytes} {w' : ω}
      (h : writer.pollWriteChunk w d.bytes = (.ready (.error e), bytes, w')) :
      Call reader writer d w (some e) { d with bytes := bytes } w'

def Calls (reader writer : Stream ω) : Direction × ω → Direction × ω → Prop :=
  Relation.ReflTransGen fun x y => Call reader writer x.1 x.2 none y.1 y.2

inductive Ends (reader writer : Stream ω) (x : Direction × ω) : Poll (Except ErrorKind Unit) → Direction × ω → Prop
  | pending {y : Direction × ω} (h : Calls reader writer x y) : Ends reader writer x .pending y
  | ok {y : Direction × ω} (h : Calls reader writer x y) (hdone : y.1.done = true) : Ends reader writer x (.ready (.ok ())) y
  | error {e : ErrorKind} {y z : Direction × ω} (h : Calls reader writer x y)
      (hfail : Call reader writer y.1 y.2 (some e) z.1 z.2) : Ends reader writer x (.ready (.error e)) z

variable {reader writer : Stream ω} {d : Direction} {w : ω}

theorem Ends.of_calls {x y z : Direction × ω} {r : Poll (Except ErrorKind Unit)} (hxy : Calls reader writer x y)
    (h : Ends reader writer y r z) : Ends reader writer x r z := by
  cases h with
  | pending h => exact .pending (hxy.trans h)
  | ok h hdone => exact .ok (hxy.trans h) hdone
  | error h hfail => exact .error (hxy.trans h) hfail

inductive Turned (reader writer : Stream ω) (x : Direction × ω) : Turn (Direction × ω) (Polled ω) → Prop
  | again {y : Direction × ω} (h : Calls reader writer x y) (hdone : y.1.done = false) : Turned reader writer x (.again y)
  | done {r : Poll (Except ErrorKind Unit)} {y : Direction × ω} (h : Ends reader writer x r y) :
      Turned reader writer x (.done (r, y))

theorem Turned.of_calls {x y : Direction × ω} {t : Turn (Direction × ω) (Polled ω)} (hxy : Calls reader writer x y)
    (h : Turned reader writer y t) : Turned reader writer x t := by
  cases h with
  | again h hdone => exact .again (hxy.trans h) hdone
  | done h => exact .done (h.of_calls hxy)

theorem one {d' : Direction} {w' : ω} (h : Call reader writer d w none d' w') : Calls reader writer (d, w) (d', w') :=
  .single h

theorem forward_turned (hw : writer.Lawful) (hdone : d.done = false) :
    Turned reader writer (d, w) (forward reader writer d w) := by
  unfold forward
  split_ifs with heof
  · rcases hs : writer.pollShutdown w with ⟨r, w'⟩
    match r with
    | .ready (.ok ()) => exact .done (.ok (one (.shutdown heof hdone hs)) rfl)
    | .ready (.error e) => exact .done (.error .refl (.shutdownFailed heof hdone hs))
    | .pending => exact .done (.pending (one (.shutdownPending heof hdone hs)))
  · have heof := Bool.eq_false_iff.2 heof
    rcases hs : writer.pollWriteChunk w d.bytes with ⟨r, bytes, w'⟩
    match r with
    | .pending =>
      have hsame : bytes = d.bytes := by simpa only [hs] using hw.pending w d.bytes (by rw [hs])
      subst hsame
      exact .done (.pending (one (.writePending hs)))
    | .ready (.error e) => exact .done (.error .refl (.writeFailed hs))
    | .ready (.ok n) =>
      obtain ⟨hle, hrest⟩ := hw.written w d.bytes n (by rw [hs])
      obtain rfl : bytes = d.bytes.drop n := by simpa only [hs] using hrest
      simp only
      rw [if_neg (by rw [List.length_drop]; omega)]
      split_ifs with hzero
      · subst hzero
        exact .done (.error .refl (.writeZero hs))
      · exact .again (one (.write heof (by omega) hle hs)) hdone

theorem turn_turned (hw : writer.Lawful) (hdone : d.done = false) :
    Turned reader writer (d, w) (turn reader writer d w) := by
  unfold turn
  split_ifs with hread
  · obtain ⟨hempty, heof⟩ := hread
    rcases hs : reader.pollReadChunk w with ⟨r, w'⟩
    match r with
    | .ready (.error e) => exact .done (.error .refl (.readFailed hempty hs))
    | .pending =>
      simp only
      rcases hf : writer.pollFlush w' with ⟨r, w''⟩
      have hcall : Calls reader writer (d, w) (d, w') := one (.readPending hempty hs)
      match r with
      | .ready (.error e) => exact .done (.error hcall (.flushFailed hf))
      | .ready (.ok ()) => exact .done (.pending (hcall.tail (.flush hf nofun)))
      | .pending => exact .done (.pending (hcall.tail (.flush hf nofun)))
    | .ready (.ok chunk) =>
      exact Turned.of_calls (one (.read hempty heof hdone hs)) (forward_turned hw hdone)
  · exact forward_turned hw hdone

theorem turns_ends (hw : writer.Lawful) : ∀ n d w, d.done = false →
    ∃ r y, turns reader writer n d w = some (r, y) ∧ Ends reader writer (d, w) r y := by
  intro n
  induction n with
  | zero => exact fun d w _ => ⟨_, _, rfl, .pending .refl⟩
  | succ _ ih =>
    intro d w hdone
    have hturn : Turned reader writer (d, w) (turn reader writer d w) := turn_turned hw hdone
    rw [turns]
    generalize turn reader writer d w = t at hturn
    cases hturn with
    | done h => exact ⟨_, _, rfl, h⟩
    | @again y h hdone' =>
      obtain ⟨r, z, heq, hends⟩ := ih y.1 y.2 hdone'
      exact ⟨r, z, heq, hends.of_calls h⟩

theorem poll_ends (reader : Stream ω) (hw : writer.Lawful) (d : Direction) (w : ω) :
    ∃ r y, poll reader writer d w = some (r, y) ∧ Ends reader writer (d, w) r y := by
  unfold poll
  split_ifs with hdone
  · exact ⟨_, _, rfl, .ok .refl hdone⟩
  · exact turns_ends hw 32 d w (Bool.eq_false_iff.2 hdone)

end Direction

/-! ## Both directions -/

namespace Copy

inductive Call (a b : Stream ω) (c : Copy) (w : ω) : Option ErrorKind → Copy → ω → Prop
  | upload {e : Option ErrorKind} {d : Direction} {w' : ω} (h : Direction.Call a b c.upload w e d w') :
      Call a b c w e { c with upload := d } w'
  | download {e : Option ErrorKind} {d : Direction} {w' : ω} (h : Direction.Call b a c.download w e d w') :
      Call a b c w e { c with download := d } w'

def Calls (a b : Stream ω) : Copy × ω → Copy × ω → Prop :=
  Relation.ReflTransGen fun x y => Call a b x.1 x.2 none y.1 y.2

variable {a b : Stream ω} {c : Copy} {w : ω}

theorem calls_upload {y : Direction × ω} (h : Direction.Calls a b (c.upload, w) y) :
    Calls a b (c, w) ({ c with upload := y.1 }, y.2) := by
  induction h with
  | refl => exact .refl
  | tail _ hcall ih => exact ih.tail (.upload hcall)

theorem calls_download {y : Direction × ω} (h : Direction.Calls b a (c.download, w) y) :
    Calls a b (c, w) ({ c with download := y.1 }, y.2) := by
  induction h with
  | refl => exact .refl
  | tail _ hcall ih => exact ih.tail (.download hcall)

inductive Ends (a b : Stream ω) (x : Copy × ω) : Poll (Except ErrorKind (Nat × Nat)) → Copy × ω → Prop
  | pending {y : Copy × ω} (h : Calls a b x y) : Ends a b x .pending y
  | ok {y : Copy × ω} (h : Calls a b x y) (hup : y.1.upload.done = true) (hdown : y.1.download.done = true) :
      Ends a b x (.ready (.ok (y.1.upload.transferred, y.1.download.transferred))) y
  | error {e : ErrorKind} {y z : Copy × ω} (h : Calls a b x y) (hfail : Call a b y.1 y.2 (some e) z.1 z.2) :
      Ends a b x (.ready (.error e)) z

/-- The second half of `poll`. -/
def pollDownload (a b : Stream ω) (c : Copy) (first : Poll (Except ErrorKind Unit)) (up : Direction) (w : ω) :
    Option (Poll (Except ErrorKind (Nat × Nat)) × Copy × ω) :=
  match c.download.poll b a w with
  | none => none
  | some (.ready (.error e), download, w) => some (.ready (.error e), ⟨up, download⟩, w)
  | some (second, download, w) => some (result first second up download, ⟨up, download⟩, w)

/-- **A poll of the relay is a sequence of calls.** -/
theorem poll_ends (ha : a.Lawful) (hb : b.Lawful) (c : Copy) (w : ω) :
    ∃ r y, poll a b c w = some (r, y) ∧ Ends a b (c, w) r y := by
  obtain ⟨first, ⟨up, w₁⟩, hfirst, hends⟩ := Direction.poll_ends a hb c.upload w
  rw [poll, hfirst]
  have hsecond : ∀ hcalls : Direction.Calls a b (c.upload, w) (up, w₁), ∀ ready : Bool, (ready = true → up.done = true) →
      first = (if ready then .ready (.ok ()) else .pending) →
      ∃ r y, pollDownload a b c first up w₁ = some (r, y) ∧ Ends a b (c, w) r y := by
    intro hcalls ready hready hfirst
    have hup := calls_upload hcalls
    obtain ⟨_, ⟨down, _⟩, heq, hends₂⟩ := Direction.poll_ends b ha c.download w₁
    rw [pollDownload, heq]
    cases hends₂ with
    | pending h =>
      have hnot : result first .pending up down = .pending := by
        rw [hfirst]
        cases ready with
        | true | false => rfl
      exact ⟨_, _, rfl, hnot ▸ .pending (hup.trans (calls_download (c := { c with upload := up }) h))⟩
    | error h hfail =>
      exact ⟨_, _, rfl, .error (hup.trans (calls_download (c := { c with upload := up }) h)) (.download hfail)⟩
    | ok h hdone =>
      have hall := hup.trans (calls_download (c := { c with upload := up }) h)
      rw [hfirst]
      cases ready with
      | true => exact ⟨_, _, rfl, .ok hall (hready rfl) hdone⟩
      | false => exact ⟨_, _, rfl, .pending hall⟩
  cases hends with
  | error h hfail => exact ⟨_, _, rfl, .error (calls_upload h) (.upload hfail)⟩
  | pending h => exact hsecond h false (by simp) rfl
  | ok h hdone => exact hsecond h true (fun _ => hdone) rfl

end Copy

end Kotoconn.Protocol
