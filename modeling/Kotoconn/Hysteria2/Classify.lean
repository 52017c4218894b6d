import Kotoconn.Hysteria2.RoundTrip
import Kotoconn.Lib.Channel

/-!
# `stream.rs`: which protocol a stream speaks

The first variable-length integer of a stream tells a TCP request from an HTTP/3 stream. An HTTP/3 stream gets the
integer back.
-/

namespace Kotoconn.Hysteria2

open Lib Protocol List

def tcpRequest : Nat := 0x401
def maxPadding : Nat := 4096

inductive ReadError where
  | transport
  | eof
  | wire (error : Error)
  deriving DecidableEq

/-! ## The stream -/

inductive Arrival where
  | waiting
  | chunk (bytes : Bytes) (nonempty : bytes ≠ [])

def Arrival.bytes : Arrival → Bytes
  | .waiting => []
  | .chunk bytes _ => bytes

/-- `h3_quinn::RecvStream`: what its polls report, and whether the peer then finishes or resets the stream. -/
structure Inner where
  arrivals : List Arrival
  reset : Bool

def Inner.bytes (i : Inner) : Bytes := (i.arrivals.map Arrival.bytes).flatten

def Inner.pollData (i : Inner) : Poll (Except ReadError (Option Bytes)) × Inner :=
  match i.arrivals with
  | .waiting :: rest => (.pending, { i with arrivals := rest })
  | .chunk bytes _ :: rest => (.ready (.ok (some bytes)), { i with arrivals := rest })
  | [] => (.ready (if i.reset then .error .transport else .ok none), i)

/-- `Receive`; `pushed` is its `prefix`. -/
structure Receive where
  pushed : Bytes
  inner : Inner

namespace Receive

def new (inner : Inner) : Receive := ⟨[], inner⟩

def pollData (r : Receive) : Poll (Except ReadError (Option Bytes)) × Receive :=
  if r.pushed ≠ [] then (.ready (.ok (some r.pushed)), { r with pushed := [] })
  else ((r.inner.pollData).1, { r with inner := (r.inner.pollData).2 })

/-- `split_to` the room that is left. -/
def splitTo (r : Receive) (remaining : Nat) : Bytes × Receive :=
  let length := min remaining r.pushed.length
  (r.pushed.take length, { r with pushed := r.pushed.drop length })

/-- `Stream::poll_read` into `remaining` free bytes, with what it puts there. -/
def pollRead (r : Receive) (remaining : Nat) : Poll (Except ReadError Bytes) × Receive :=
  if remaining = 0 then (.ready (.ok []), r)
  else if r.pushed = [] then
    match r.inner.pollData with
    | (.pending, inner) => (.pending, { r with inner })
    | (.ready (.error error), inner) => (.ready (.error error), { r with inner })
    | (.ready (.ok none), inner) => (.ready (.ok []), { r with inner })
    | (.ready (.ok (some bytes)), inner) =>
      let (put, r) := splitTo ⟨bytes, inner⟩ remaining
      (.ready (.ok put), r)
  else
    let (put, r) := r.splitTo remaining
    (.ready (.ok put), r)

def unread (r : Receive) : Bytes := r.pushed ++ r.inner.bytes

@[simp] theorem unread_new (inner : Inner) : (new inner).unread = inner.bytes := rfl

theorem splitTo_append (r : Receive) (remaining : Nat) :
    (r.splitTo remaining).1 ++ (r.splitTo remaining).2.unread = r.unread := by
  simp only [splitTo, unread]
  rw [← append_assoc, take_append_drop]

theorem splitTo_ne {r : Receive} {remaining : Nat} (hr : remaining ≠ 0) (hp : r.pushed ≠ []) :
    (r.splitTo remaining).1 ≠ [] := by
  have := length_pos_iff.2 hp
  rw [← length_pos_iff, splitTo, length_take]
  omega

end Receive

/-! ## What a call can do -/

inductive Report where
  | waiting
  | bytes (b : Bytes)
  | finished
  | failed

def Report.delivered : Report → Bytes
  | .bytes b => b
  | _ => []

inductive Call where
  | pollData
  | pollRead (remaining : Nat)

def Call.Roomy : Call → Prop
  | .pollData => True
  | .pollRead remaining => remaining ≠ 0

def Report.ofRead (remaining : Nat) : Poll (Except ReadError Bytes) → Report
  | .pending => .waiting
  | .ready (.error _) => .failed
  | .ready (.ok b) => if b = [] ∧ remaining ≠ 0 then .finished else .bytes b

def Report.ofData : Poll (Except ReadError (Option Bytes)) → Report
  | .pending => .waiting
  | .ready (.error _) => .failed
  | .ready (.ok none) => .finished
  | .ready (.ok (some b)) => .bytes b

def Call.run (r : Receive) : Call → Report × Receive
  | .pollData => (.ofData r.pollData.1, r.pollData.2)
  | .pollRead remaining => (.ofRead remaining (r.pollRead remaining).1, (r.pollRead remaining).2)

/-- What a call with room can do: it delivers the next bytes, waits for the transport, or reports that nothing is
left. -/
inductive Moves (r : Receive) : Report → Receive → Prop
  | waiting {r' : Receive} (hbytes : r'.unread = r.unread)
      (hlt : r'.inner.arrivals.length < r.inner.arrivals.length) : Moves r .waiting r'
  | bytes {b : Bytes} {r' : Receive} (hb : b ≠ []) (hbytes : r.unread = b ++ r'.unread)
      (hle : r'.inner.arrivals.length ≤ r.inner.arrivals.length) : Moves r (.bytes b) r'
  | finished (hbytes : r.unread = []) : Moves r .finished r
  | failed (hbytes : r.unread = []) : Moves r .failed r

theorem Receive.pollData_moves (r : Receive) : Moves r (.ofData r.pollData.1) r.pollData.2 := by
  obtain ⟨pushed, arrivals, reset⟩ := r
  by_cases hp : pushed = []
  · subst hp
    match arrivals with
    | .waiting :: rest => exact .waiting rfl (lt_add_one _)
    | .chunk bytes hne :: rest => exact .bytes hne rfl (Nat.le_succ _)
    | [] =>
      cases reset with
      | false => exact .finished rfl
      | true => exact .failed rfl
  · rw [Receive.pollData, if_pos hp]
    exact .bytes hp rfl le_rfl

theorem Report.ofRead_bytes {remaining : Nat} {b : Bytes} (hb : b ≠ []) :
    Report.ofRead remaining (.ready (.ok b)) = .bytes b := if_neg fun h => hb h.1

theorem Receive.splitTo_moves {r : Receive} {remaining : Nat} (hr : remaining ≠ 0) (hp : r.pushed ≠ []) :
    Moves r (.ofRead remaining (.ready (.ok (r.splitTo remaining).1))) (r.splitTo remaining).2 := by
  rw [Report.ofRead_bytes (splitTo_ne hr hp)]
  exact .bytes (splitTo_ne hr hp) (r.splitTo_append remaining).symm le_rfl

theorem Receive.pollRead_moves (r : Receive) {remaining : Nat} (hr : remaining ≠ 0) :
    Moves r (.ofRead remaining (r.pollRead remaining).1) (r.pollRead remaining).2 := by
  obtain ⟨pushed, arrivals, reset⟩ := r
  rw [Receive.pollRead, if_neg hr]
  by_cases hp : pushed = []
  · subst hp
    rw [if_pos rfl]
    match arrivals with
    | .waiting :: rest => exact .waiting rfl (lt_add_one _)
    | .chunk bytes hne :: rest =>
      have hsplit := splitTo_ne (r := ⟨bytes, rest, reset⟩) hr hne
      have happend := splitTo_append ⟨bytes, rest, reset⟩ remaining
      show Moves _ (.ofRead remaining (.ready (.ok (splitTo ⟨bytes, rest, reset⟩ remaining).1))) _
      rw [Report.ofRead_bytes hsplit]
      exact .bytes hsplit happend.symm (Nat.le_succ _)
    | [] =>
      cases reset with
      | false =>
        have hended : Report.ofRead remaining (.ready (.ok [])) = .finished := if_pos ⟨rfl, hr⟩
        show Moves _ (.ofRead remaining (.ready (.ok []))) _
        rw [hended]
        exact .finished rfl
      | true => exact .failed rfl
  · rw [if_neg hp]
    exact splitTo_moves hr hp

theorem Call.run_moves (r : Receive) {c : Call} (hc : c.Roomy) : Moves r (c.run r).1 (c.run r).2 := by
  cases c with
  | pollData => exact r.pollData_moves
  | pollRead => exact r.pollRead_moves hc

namespace Moves
variable {r r' : Receive} {report : Report}

theorem delivered_unread (h : Moves r report r') : report.delivered ++ r'.unread = r.unread := by
  cases h with
  | waiting hbytes => exact hbytes
  | bytes _ hbytes => exact hbytes.symm
  | finished => rfl
  | failed => rfl

theorem progress (h : Moves r report r') : r.unread = [] ∨
    r'.inner.arrivals.length + r'.unread.length < r.inner.arrivals.length + r.unread.length := by
  cases h with
  | waiting hbytes hlt => rw [hbytes]; exact .inr (Nat.add_lt_add_right hlt _)
  | bytes hb hbytes =>
    have hpos := length_pos_iff.2 hb
    rw [hbytes, length_append]
    omega
  | finished hbytes => exact .inl hbytes
  | failed hbytes => exact .inl hbytes

theorem unread_of_finished (h : Moves r .finished r') : r.unread = [] := by
  cases h with
  | finished hbytes => exact hbytes

theorem unread_of_failed (h : Moves r .failed r') : r.unread = [] := by
  cases h with
  | failed hbytes => exact hbytes

end Moves

/-! ## Sequences of calls -/

def drain (r : Receive) : List Call → Bytes × Receive
  | [] => ([], r)
  | c :: calls => ((c.run r).1.delivered ++ (drain (c.run r).2 calls).1, (drain (c.run r).2 calls).2)

/-- Calls on `r`, of either kind and in any order, deliver `bytes` and nothing else. -/
structure Delivers (r : Receive) (bytes : Bytes) : Prop where
  order : ∀ calls : List Call, (drain r calls).1 <+: bytes
  finished : ∀ (calls : List Call) (c : Call), (c.run (drain r calls).2).1 = .finished → (drain r calls).1 = bytes
  complete : ∃ n, ∀ calls : List Call, (∀ c ∈ calls, c.Roomy) → n ≤ calls.length → (drain r calls).1 = bytes

theorem Call.run_full (r : Receive) {c : Call} (hc : ¬ c.Roomy) : c.run r = (.bytes [], r) := by
  cases c with
  | pollData => exact absurd trivial hc
  | pollRead remaining =>
    have h0 : remaining = 0 := not_not.1 hc
    subst h0
    rfl

theorem Call.run_unread (r : Receive) (c : Call) : (c.run r).1.delivered ++ (c.run r).2.unread = r.unread := by
  by_cases hc : c.Roomy
  · exact (Call.run_moves r hc).delivered_unread
  · rw [Call.run_full r hc]
    rfl

theorem drain_unread (r : Receive) (calls : List Call) : (drain r calls).1 ++ (drain r calls).2.unread = r.unread := by
  induction calls generalizing r with
  | nil => rfl
  | cons _ _ ih => rw [drain, append_assoc, ih, Call.run_unread]

theorem drain_complete (calls : List Call) (hroomy : ∀ c ∈ calls, c.Roomy) (r : Receive)
    (hlength : r.inner.arrivals.length + r.unread.length ≤ calls.length) : (drain r calls).2.unread = [] := by
  induction calls generalizing r with
  | nil =>
    have h0 : r.unread.length = 0 := by simp only [length_nil] at hlength; omega
    exact eq_nil_of_length_eq_zero h0
  | cons c calls ih =>
    have hmoves := Call.run_moves r (hroomy c mem_cons_self)
    rcases hmoves.progress with hend | hlt
    · -- nothing was left, and no call adds to that
      have hdrain := drain_unread r (c :: calls)
      rw [hend] at hdrain
      exact (append_eq_nil_iff.1 hdrain).2
    · rw [length_cons] at hlength
      exact ih (fun c hc => hroomy c (mem_cons_of_mem _ hc)) _ (by omega)

theorem Receive.delivers (r : Receive) : Delivers r r.unread where
  order calls := ⟨_, drain_unread r calls⟩
  finished calls c h := by
    have hroomy : c.Roomy := by
      by_contra hc
      rw [Call.run_full _ hc] at h
      exact absurd h (by simp)
    have hmoves := Call.run_moves (drain r calls).2 hroomy
    rw [h] at hmoves
    have hdrain := drain_unread r calls
    rwa [hmoves.unread_of_finished, append_nil] at hdrain
  complete := by
    refine ⟨r.inner.arrivals.length + r.unread.length, fun calls hroomy hlength => ?_⟩
    have hdrain := drain_unread r calls
    rwa [drain_complete calls hroomy r hlength, append_nil] at hdrain

/-! ## Reading fields -/

theorem Receive.pollRead_pending {r r' : Receive} {n : Nat} (hn : n ≠ 0) (h : r.pollRead n = (.pending, r')) :
    r'.unread = r.unread ∧ r'.inner.arrivals.length < r.inner.arrivals.length := by
  have hmoves := r.pollRead_moves hn
  rw [h] at hmoves
  cases hmoves with
  | waiting hbytes hlt => exact ⟨hbytes, hlt⟩

theorem Receive.pollRead_bytes {r r' : Receive} {n : Nat} {b : Bytes} (hn : n ≠ 0) (hb : b ≠ [])
    (h : r.pollRead n = (.ready (.ok b), r')) :
    r.unread = b ++ r'.unread ∧ r'.inner.arrivals.length ≤ r.inner.arrivals.length := by
  have hmoves := r.pollRead_moves hn
  rw [h, Report.ofRead_bytes hb] at hmoves
  cases hmoves with
  | bytes _ hbytes hle => exact ⟨hbytes, hle⟩

/-- `AsyncReadExt::read_exact`: it reads until `n` bytes are there, and waits when there is nothing to read yet. -/
def Receive.fill (r : Receive) (n : Nat) : Except ReadError Bytes × Receive :=
  if hn : n = 0 then (.ok [], r)
  else
    match h : r.pollRead n with
    | (.pending, r') =>
      have := (pollRead_pending hn h).2
      r'.fill n
    | (.ready (.error error), r') => (.error error, r')
    | (.ready (.ok b), r') =>
      if hb : b = [] then (.error .eof, r')
      else
        have := (pollRead_bytes hn hb h).2
        have := length_pos_iff.2 hb
        ((r'.fill (n - b.length)).1.map (b ++ ·), (r'.fill (n - b.length)).2)
termination_by n + r.inner.arrivals.length

abbrev Reader (α : Type) : Type := ExceptT ReadError (StateM Receive) α

def readExact (n : Nat) : Reader Bytes := fun r => r.fill n

/-- The width that the first byte of an integer tells, `1 << (first >> 6)`. -/
def varintWidth (first : UInt8) : Nat := 1 <<< (first.toNat >>> 6)

def readInteger : Reader Bytes := do
  let first ← readExact 1
  let rest ← readExact (varintWidth (first.headD 0) - 1)
  pure (first ++ rest)

def decodeInteger (e : WireEnv) (bytes : Bytes) : Reader Nat :=
  match e.varintDecode bytes with
  | none => throw (.wire .varint)
  | some (value, _) => pure value

def readVarint (e : WireEnv) : Reader Nat := do decodeInteger e (← readInteger)

def readField (e : WireEnv) (max : Nat) : Reader Bytes := do
  let length ← readVarint e
  if length ≤ max then readExact length else throw (.wire (.message "oversized Hysteria field"))

/-- `read_request`, on a stream from which `classify` has read the first integer. -/
def readRequest (e : WireEnv) : Reader Target := do
  let bytes ← readField e maxAddress
  match fromUtf8 bytes with
  | none => throw (.wire .utf8)
  | some text =>
    match parseAddress e text with
    | .error error => throw (.wire error)
    | .ok target =>
      let _ ← readField e maxPadding
      pure target

/-- `request` with the padding that was drawn. -/
def request (e : WireEnv) (target : Target) (padding : Bytes) : Except Error Bytes := do
  let id ← putVarint e tcpRequest
  let field ← putField e (asBytes (← address e target))
  let padding ← putField e padding
  pure (id ++ field ++ padding)

/-- `classify`: another integer than that of a TCP request is put back in front of the rest of its chunk. -/
def classify (e : WireEnv) : Reader Bool := do
  let integer ← readInteger
  let frame ← decodeInteger e integer
  if frame = tcpRequest then pure true
  else
    modify fun r => { r with pushed := integer ++ r.pushed }
    pure false

/-! ## What the readers read -/

/-- On every stream whose unread bytes are `bytes`, `m` returns `a` and leaves `rest`. -/
def Reads {α : Type} (m : Reader α) (bytes : Bytes) (a : α) (rest : Bytes) : Prop :=
  ∀ r : Receive, r.unread = bytes → ∃ r' : Receive, m r = (.ok a, r') ∧ r'.unread = rest

namespace Reads
variable {α β : Type} {m : Reader α} {f : α → Reader β} {bytes rest rest' : Bytes} {a : α} {b : β}

theorem pure (a : α) (bytes : Bytes) : Reads (Pure.pure a) bytes a bytes := fun r hr => ⟨r, rfl, hr⟩

theorem bind (hm : Reads m bytes a rest) (hf : Reads (f a) rest b rest') : Reads (m >>= f) bytes b rest' := by
  intro r hr
  obtain ⟨r₁, hrun, hr₁⟩ := hm r hr
  obtain ⟨r₂, hrun', hr₂⟩ := hf r₁ hr₁
  refine ⟨r₂, ?_, hr₂⟩
  show (ExceptT.bind m f) r = _
  simp only [ExceptT.bind, ExceptT.mk, Bind.bind, StateT.bind, hrun, ExceptT.bindCont]
  exact hrun'

end Reads

namespace Receive
variable {r r' : Receive} {n : Nat} {b : Bytes}

theorem fill_pending (hn : n ≠ 0) (h : r.pollRead n = (.pending, r')) : r.fill n = r'.fill n := by
  rw [fill, dif_neg hn]
  split <;> simp_all

theorem fill_bytes (hn : n ≠ 0) (hb : b ≠ []) (h : r.pollRead n = (.ready (.ok b), r')) :
    r.fill n = ((r'.fill (n - b.length)).1.map (b ++ ·), (r'.fill (n - b.length)).2) := by
  rw [fill, dif_neg hn]
  split <;> simp_all

theorem length_splitTo_le (r : Receive) (n : Nat) : (r.splitTo n).1.length ≤ n := by
  rw [splitTo, length_take]
  omega

theorem pollRead_length_le (h : r.pollRead n = (.ready (.ok b), r')) : b.length ≤ n := by
  unfold pollRead at h
  split_ifs at h
  · cases h
    exact zero_le
  · split at h
    · cases h
    · cases h
    · cases h
      exact zero_le
    · cases h
      exact length_splitTo_le _ n
  · cases h
    exact length_splitTo_le r n

/-- **`read_exact` reads the next bytes**, however they arrive. -/
theorem fill_spec (r : Receive) (n : Nat) (h : n ≤ r.unread.length) :
    ∃ r', r.fill n = (.ok (r.unread.take n), r') ∧ r'.unread = r.unread.drop n := by
  induction hk : n + r.inner.arrivals.length using Nat.strong_induction_on generalizing r n with
  | _ _ ih =>
    by_cases hn : n = 0
    · subst hn
      exact ⟨r, by rw [fill]; rfl, rfl⟩
    · have hmoves := r.pollRead_moves hn
      match hpoll : r.pollRead n with
      | (.pending, r') =>
        obtain ⟨hbytes, _⟩ := pollRead_pending hn hpoll
        rw [fill_pending hn hpoll, ← hbytes]
        exact ih _ (by omega) r' n (hbytes ▸ h) rfl
      | (.ready (.error error), r') =>
        rw [hpoll] at hmoves
        rw [hmoves.unread_of_failed] at h
        exact absurd h (by simpa using hn)
      | (.ready (.ok b), r') =>
        by_cases hb : b = []
        · rw [hpoll, Report.ofRead, if_pos ⟨hb, hn⟩] at hmoves
          rw [hmoves.unread_of_finished] at h
          exact absurd h (by simpa using hn)
        · obtain ⟨hbytes, _⟩ := pollRead_bytes hn hb hpoll
          have hpos := length_pos_iff.2 hb
          have hlength := pollRead_length_le hpoll
          rw [hbytes, length_append] at h
          obtain ⟨r'', hfill, hrest⟩ := ih _ (by omega) r' (n - b.length) (by omega) rfl
          refine ⟨r'', ?_, ?_⟩
          · rw [fill_bytes hn hb hpoll, hfill, hbytes, take_append, take_of_length_le hlength]
            rfl
          · rw [hrest, hbytes, drop_append, drop_eq_nil_of_le hlength, nil_append]

end Receive

theorem readExact_reads {n : Nat} {b : Bytes} (hb : b.length = n) (rest : Bytes) :
    Reads (readExact n) (b ++ rest) b rest := by
  intro r hr
  obtain ⟨r', hfill, hrest⟩ := r.fill_spec n (by rw [hr, length_append]; omega)
  refine ⟨r', ?_, ?_⟩
  · rw [hr, take_left' hb] at hfill
    exact hfill
  · rw [hrest, hr, drop_left' hb]

/-! ## Integers -/

def IsVarint : Bytes → Prop
  | [] => False
  | first :: tail => tail.length + 1 = varintWidth first

def varintValue (b : Bytes) : Nat := bigEndian b % 2 ^ (8 * b.length - 2)

/-- QUIC's integers: every encoding is decoded, and the encoder writes one of them. Socket addresses are read back. -/
structure WireEnv.Quic (e : WireEnv) : Prop where
  decode : ∀ b, IsVarint b → e.varintDecode b = some (varintValue b, [])
  encode : ∀ v, v < 2 ^ 62 → IsVarint (e.varintEncode v) ∧ varintValue (e.varintEncode v) = v
  socket : ∀ address port, e.parseSocket (e.formatSocket address port) = some (address, port)

theorem readInteger_reads {b : Bytes} (hb : IsVarint b) (rest : Bytes) : Reads readInteger (b ++ rest) b rest := by
  match b with
  | first :: tail =>
    have htail : tail.length = varintWidth first - 1 := by
      rw [← show tail.length + 1 = varintWidth first from hb]
      rfl
    exact (readExact_reads (b := [first]) rfl (tail ++ rest)).bind ((readExact_reads htail rest).bind (.pure _ _))

section Fields
variable {e : WireEnv} {b : Bytes}

theorem decodeInteger_reads (he : e.Quic) (hb : IsVarint b) (rest : Bytes) :
    Reads (decodeInteger e b) rest (varintValue b) rest := by
  rw [decodeInteger, he.decode b hb]
  exact .pure _ _

theorem readVarint_reads (he : e.Quic) {v : Nat} (hv : v < 2 ^ 62) (rest : Bytes) :
    Reads (readVarint e) (e.varintEncode v ++ rest) v rest := by
  obtain ⟨hvarint, hvalue⟩ := he.encode v hv
  have hdecode := decodeInteger_reads he hvarint rest
  rw [hvalue] at hdecode
  exact (readInteger_reads hvarint rest).bind hdecode

theorem readField_reads (he : e.Quic) {value : Bytes} {max : Nat} (hmax : value.length ≤ max)
    (hv : value.length < 2 ^ 62) (rest : Bytes) :
    Reads (readField e max) (e.varintEncode value.length ++ value ++ rest) value rest := by
  rw [append_assoc]
  refine (readVarint_reads he hv (value ++ rest)).bind ?_
  rw [if_pos hmax]
  exact readExact_reads rfl rest

theorem classify_reads (he : e.Quic) (hb : IsVarint b) (rest : Bytes) :
    Reads (classify e) (b ++ rest) (decide (varintValue b = tcpRequest))
      (if varintValue b = tcpRequest then rest else b ++ rest) := by
  refine (readInteger_reads hb rest).bind ((decodeInteger_reads he hb rest).bind ?_)
  split_ifs with htcp
  · rw [decide_eq_true htcp]
    exact .pure _ _
  · rw [decide_eq_false htcp]
    intro r hr
    refine ⟨{ r with pushed := b ++ r.pushed }, rfl, ?_⟩
    rw [← hr, Receive.unread, append_assoc]
    rfl

/-- Every address that is sent can be parsed. A domain that is an IPv4 literal is parsed as a socket address. -/
theorem parseAddress_ok (he : e.Quic) {target : Target} {text : String} (h : address e target = .ok text) :
    ∃ parsed, parseAddress e text = .ok parsed := by
  obtain ⟨hlen, hform⟩ := address_eq_ok h
  rw [parseAddress, if_pos hlen]
  cases target with
  | ip =>
    rw [hform, he.socket]
    exact ⟨_, rfl⟩
  | domain _ port =>
    obtain ⟨hname, rfl⟩ := hform
    split
    · exact ⟨_, rfl⟩
    · exact ⟨_, parseDomain_formatDomain hname port⟩

theorem request_eq_ok {target : Target} {padding sent : Bytes} (hpadding : padding.length ≤ maxPadding)
    (h : request e target padding = .ok sent) : ∃ text, address e target = .ok text ∧
      (asBytes text).length ≤ maxAddress ∧
      sent = e.varintEncode tcpRequest ++ addressField e text ++ (e.varintEncode padding.length ++ padding) := by
  unfold request at h
  cases haddress : address e target with
  | error => rw [haddress, putVarint_eq (by decide)] at h; cases h
  | ok text =>
    have htext := (address_eq_ok haddress).1
    rw [haddress, putVarint_eq (by decide)] at h
    simp only [bind, Except.bind, putField_text htext,
      putField_eq (lt_of_le_of_lt hpadding (by decide : maxPadding < 2 ^ 62))] at h
    cases h
    exact ⟨text, rfl, htext, rfl⟩

theorem readRequest_reads (he : e.Quic) {text : String} {parsed : Target} {padding : Bytes}
    (htext : (asBytes text).length ≤ maxAddress) (hparse : parseAddress e text = .ok parsed)
    (hpadding : padding.length ≤ maxPadding) (payload : Bytes) :
    Reads (readRequest e) (addressField e text ++ (e.varintEncode padding.length ++ padding ++ payload)) parsed
      payload := by
  have hsmall : (asBytes text).length < 2 ^ 62 := lt_of_le_of_lt htext (by decide)
  have hsmall' : padding.length < 2 ^ 62 := lt_of_le_of_lt hpadding (by decide)
  refine (readField_reads he htext hsmall _).bind ?_
  simp only [fromUtf8_asBytes, hparse]
  exact (readField_reads he hpadding hsmall' payload).bind (.pure _ _)

/-- **Classification loses no byte.** A stream that starts with an integer is a TCP request exactly when the integer is,
whatever its width. Later calls deliver the bytes after it, or the whole stream if it was put back. A request with its
payload gives the target, and then the payload. -/
theorem classify_lossless (he : e.Quic) (inner : Inner) : (∀ b rest, IsVarint b → inner.bytes = b ++ rest →
      ∃ r, classify e (Receive.new inner) = (.ok (decide (varintValue b = tcpRequest)), r) ∧
        Delivers r (if varintValue b = tcpRequest then rest else inner.bytes)) ∧
    ∀ target padding sent payload, padding.length ≤ maxPadding → request e target padding = .ok sent →
      inner.bytes = sent ++ payload →
      ∃ text parsed r r', address e target = .ok text ∧ parseAddress e text = .ok parsed ∧
        classify e (Receive.new inner) = (.ok true, r) ∧ readRequest e r = (.ok parsed, r') ∧ Delivers r' payload := by
  constructor
  · intro b rest hb hbytes
    obtain ⟨r, hrun, hunread⟩ := classify_reads he hb rest (Receive.new inner) hbytes
    refine ⟨r, hrun, ?_⟩
    rw [hbytes, ← hunread]
    exact r.delivers
  · intro target padding sent payload hpadding hsent hbytes
    obtain ⟨text, haddress, htext, rfl⟩ := request_eq_ok hpadding hsent
    obtain ⟨parsed, hparse⟩ := parseAddress_ok he haddress
    obtain ⟨hvarint, hvalue⟩ := he.encode tcpRequest (by decide)
    have hclassify := classify_reads he hvarint
      (addressField e text ++ (e.varintEncode padding.length ++ padding ++ payload))
    rw [decide_eq_true hvalue, if_pos hvalue] at hclassify
    obtain ⟨r, hrun, hunread⟩ := hclassify (Receive.new inner) (by
      simpa only [append_assoc, Receive.unread_new] using hbytes)
    obtain ⟨r', hrun', hunread'⟩ := readRequest_reads he htext hparse hpadding payload r hunread
    refine ⟨text, parsed, r, r', haddress, hparse, hrun, hrun', ?_⟩
    rw [← hunread']
    exact r'.delivers

end Fields

/-! ## An instance -/

/-- QUIC's encoding in `2 ^ tag` bytes. -/
def encodeWidth (tag v : Nat) : Bytes := toBytes (2 ^ tag) (v + tag * 2 ^ (8 * 2 ^ tag - 2))

theorem encodeWidth_spec {tag v : Nat} (htag : tag < 4) (hv : v < 2 ^ (8 * 2 ^ tag - 2)) :
    IsVarint (encodeWidth tag v) ∧ varintValue (encodeWidth tag v) = v := by
  have htags : tag = 0 ∨ tag = 1 ∨ tag = 2 ∨ tag = 3 := by omega
  have hbound : v + tag * 2 ^ (8 * 2 ^ tag - 2) < 256 ^ 2 ^ tag := by
    rcases htags with rfl | rfl | rfl | rfl <;>
      simp only [Nat.reducePow, Nat.reduceMul, Nat.reduceSub] at hv ⊢ <;> omega
  constructor
  · obtain ⟨tail, hhead, hlength⟩ := toBytes_head (2 ^ tag - 1) (v + tag * 2 ^ (8 * 2 ^ tag - 2))
    rw [Nat.sub_add_cancel Nat.one_le_two_pow] at hhead
    rw [encodeWidth, hhead]
    show tail.length + 1 = varintWidth _
    rw [hlength, Nat.sub_add_cancel Nat.one_le_two_pow, varintWidth, Nat.one_shiftLeft, Nat.shiftRight_eq_div_pow,
      UInt8.toNat_ofNat']
    congr 1
    rcases htags with rfl | rfl | rfl | rfl <;>
      simp only [Nat.reducePow, Nat.reduceMul, Nat.reduceSub] at hv ⊢ <;> omega
  · rw [varintValue, encodeWidth, bigEndian_toBytes hbound, length_toBytes, Nat.add_mul_mod_self_right]
    exact Nat.mod_eq_of_lt hv

/-- `plainWire` with QUIC's integers in their shortest encoding. -/
def quicWire : WireEnv :=
  { plainWire with
    varintEncode := fun v =>
      if v < 2 ^ 6 then encodeWidth 0 v
      else if v < 2 ^ 14 then encodeWidth 1 v
      else if v < 2 ^ 30 then encodeWidth 2 v
      else encodeWidth 3 v
    varintDecode := fun b =>
      match b with
      | [] => none
      | first :: _ =>
        let width := varintWidth first
        if width ≤ b.length then some (varintValue (b.take width), b.drop width) else none }

theorem quicWire_quic : quicWire.Quic where
  decode b hb := by
    match b with
    | first :: tail =>
      have hwidth : (first :: tail).length = varintWidth first := hb
      simp only [quicWire, ← hwidth, le_refl, if_true, take_length, drop_length]
  encode v hv := by
    simp only [quicWire]
    split_ifs with h₀ h₁ h₂
    · exact encodeWidth_spec (by decide) h₀
    · exact encodeWidth_spec (by decide) h₁
    · exact encodeWidth_spec (by decide) h₂
    · exact encodeWidth_spec (by decide) hv
  socket := plainWire_inverse.socket

def wideRequest : Inner :=
  ⟨[.chunk [0xc0, 0, 0] (by decide), .waiting, .chunk [0, 0, 0, 4, 1, 9] (by decide)], false⟩

theorem classify_lossless_wide : ∃ r, classify quicWire (Receive.new wideRequest) = (.ok true, r) ∧ Delivers r [9] := by
  have h := (classify_lossless quicWire_quic wideRequest).1 [0xc0, 0, 0, 0, 0, 0, 4, 1] [9] rfl rfl
  rwa [show varintValue [0xc0, 0, 0, 0, 0, 0, 4, 1] = tcpRequest from by decide, decide_eq_true rfl, if_pos rfl] at h

end Kotoconn.Hysteria2
