import Kotoconn.AnyTls.Session

/-!
# `wire.rs`: records and padding

`Codec`: `Frame::to_bytes` and `Frame::from_bytes` of the library; `Codec.Lawful` is what is assumed of them.
-/

namespace Kotoconn.AnyTls
open Lib List Option

/-- `HEADER_OVERHEAD_SIZE` -/
def headerSize : Nat := 7

def checkMark : Int := -1

def waste (n : Nat) : Frame := ⟨.other 0, 0, List.replicate n 0⟩

def Frame.isWaste (f : Frame) : Bool := f.cmd = .other 0

structure Codec where
  toBytes : Frame → Except String Bytes
  fromBytes : Bytes → Option Frame

/-- Encoding and decoding are inverse, and only a whole frame is decoded. A frame has a header and its data; Waste that
fits its length field can be encoded. -/
structure Codec.Lawful (c : Codec) : Prop where
  size : ∀ f b, c.toBytes f = .ok b → b.length = headerSize + f.data.length
  read : ∀ f b rest, c.toBytes f = .ok b → c.fromBytes (b ++ rest) = some f
  whole : ∀ buffer f, c.fromBytes buffer = some f → ∃ b, c.toBytes f = .ok b ∧ b <+: buffer
  waste : ∀ n ≤ 65535, ∃ b, c.toBytes (waste n) = .ok b

/-- `PaddingFactory`; what it generates for a packet is random. -/
structure Padding where
  stop : Nat
  generate : Nat → List Int

def Padding.Valid (p : Padding) : Prop :=
  ∀ packet, ∀ size ∈ p.generate packet, size = checkMark ∨ 1 ≤ size ∧ size ≤ 65535

/-! ## Writing -/

/-- A record of the scheduled `size`, made when `input` was left. -/
structure Record where
  size : Nat
  input : Bytes
  bytes : Bytes

def fill (c : Codec) (size : Nat) (input : Bytes) : Except String Bytes :=
  if input.length + headerSize ≤ size then
    (c.toBytes (waste (size - input.length - headerSize))).map (input ++ ·)
  else .ok input

def records (c : Codec) : List Int → Bytes → Except String (List Record × Bytes)
  | [], input => .ok ([], input)
  | size :: sizes, input =>
    if size = checkMark then if input = [] then .ok ([], input) else records c sizes input
    else if size < 0 then .error "out of range integral type conversion attempted"
    else if 65535 < size then .error "AnyTLS padding record too large"
    else if size.toNat ≤ input.length then
      (records c sizes (input.drop size.toNat)).map fun r =>
        (⟨size.toNat, input, input.take size.toNat⟩ :: r.1, r.2)
    else
      (fill c size.toNat input).bind fun record =>
        (records c sizes []).map fun r => (⟨size.toNat, input, record⟩ :: r.1, r.2)

/-- `write_records`: the writes to the connection. -/
def writeRecords (c : Codec) (padding : Option Padding) (packet : Nat) (bytes : Bytes) : Except String (List Bytes) :=
  match padding.filter fun p => packet < p.stop with
  | none => .ok [bytes]
  | some p => (records c (p.generate packet) bytes).map fun r => r.1.map Record.bytes ++ [r.2]

structure Call where
  padding : Option Padding
  packet : Nat
  bytes : Bytes

def writeAll (c : Codec) : List Call → Except String Bytes
  | [] => .ok []
  | call :: calls =>
    (writeRecords c call.padding call.packet call.bytes).bind fun written =>
      (writeAll c calls).map fun rest => written.flatten ++ rest

/-! ## Reading -/

/-- `Frames::decode`; `none` is a failed debug assertion. -/
def decode (c : Codec) (buffer : Bytes) : Option (Option Frame × Bytes) :=
  match c.fromBytes buffer with
  | none => some (none, buffer)
  | some f =>
    if headerSize + f.data.length ≤ buffer.length then some (some f, buffer.drop (headerSize + f.data.length)) else none

def decodeAll (c : Codec) : Nat → Bytes → Option (List Frame × Bytes)
  | 0, _ => none
  | fuel + 1, buffer =>
    match decode c buffer with
    | none => none
    | some (none, buffer) => some ([], buffer)
    | some (some f, buffer) => (decodeAll c fuel buffer).map fun r => (f :: r.1, r.2)

/-- `FramedRead`: the frames of a stream that arrives in chunks, and what is left in the buffer. -/
def framedRead (c : Codec) (chunks : List Bytes) : Option (List Frame × Bytes) :=
  chunks.foldlM (fun st chunk =>
    (decodeAll c ((st.2 ++ chunk).length + 1) (st.2 ++ chunk)).map fun r => (st.1 ++ r.1, r.2)) ([], [])

/-! ## Encodings -/

inductive Encodes (c : Codec) : List Frame → Bytes → Prop
  | nil : Encodes c [] []
  | cons {f : Frame} {frames : List Frame} {b bytes : Bytes} : c.toBytes f = .ok b → Encodes c frames bytes →
      Encodes c (f :: frames) (b ++ bytes)

section
variable {c : Codec} {frames frames' : List Frame} {bytes bytes' buffer rest rest' : Bytes}

theorem Encodes.append (h : Encodes c frames bytes) (h' : Encodes c frames' bytes') :
    Encodes c (frames ++ frames') (bytes ++ bytes') := by
  induction h with
  | nil => exact h'
  | cons hf _ ih =>
    rw [append_assoc]
    exact .cons hf ih

def Parses (c : Codec) (buffer : Bytes) (frames : List Frame) (rest : Bytes) : Prop :=
  ∃ bytes, Encodes c frames bytes ∧ buffer = bytes ++ rest ∧ c.fromBytes rest = none

theorem Codec.Lawful.fromBytes_nil (hc : c.Lawful) : c.fromBytes [] = none := by
  cases h : c.fromBytes [] with
  | none => rfl
  | some f =>
    obtain ⟨b, hb, hbuffer⟩ := hc.whole [] f h
    have hsize := hc.size f b hb
    rw [prefix_nil.1 hbuffer, headerSize, length_nil] at hsize
    omega

theorem Encodes.parses (hc : c.Lawful) (h : Encodes c frames bytes) : Parses c bytes frames [] :=
  ⟨bytes, h, (append_nil _).symm, hc.fromBytes_nil⟩

theorem Parses.unique (hc : c.Lawful) (h : Parses c buffer frames rest) (h' : Parses c buffer frames' rest') :
    frames = frames' ∧ rest = rest' := by
  obtain ⟨bytes, hencodes, rfl, hrest⟩ := h
  induction hencodes generalizing frames' with
  | nil =>
    obtain ⟨bytes', hencodes', heq, -⟩ := h'
    cases hencodes' with
    | nil => exact ⟨rfl, heq⟩
    | cons hf =>
      rw [nil_append] at heq
      rw [heq, append_assoc, hc.read _ _ _ hf] at hrest
      cases hrest
  | @cons f _ b bytes hf _ ih =>
    obtain ⟨bytes', hencodes', heq, hrest'⟩ := h'
    have hread : c.fromBytes (b ++ bytes ++ rest) = some f := by
      rw [append_assoc]
      exact hc.read _ _ _ hf
    cases hencodes' with
    | nil =>
      rw [heq, nil_append, hrest'] at hread
      cases hread
    | @cons _ _ b' bytes' hf' hencodes' =>
      rw [heq, append_assoc, hc.read _ _ _ hf'] at hread
      obtain rfl := some.inj hread
      obtain rfl : b' = b := Except.ok.inj (hf'.symm.trans hf)
      rw [append_assoc, append_assoc] at heq
      obtain ⟨rfl, rfl⟩ := ih ⟨bytes', hencodes', append_cancel_left heq, hrest'⟩
      exact ⟨rfl, rfl⟩

theorem Parses.append (h : Parses c buffer frames rest) {chunk : Bytes} (h' : Parses c (rest ++ chunk) frames' rest') :
    Parses c (buffer ++ chunk) (frames ++ frames') rest' := by
  obtain ⟨bytes, hencodes, rfl, -⟩ := h
  obtain ⟨bytes', hencodes', heq, hrest'⟩ := h'
  exact ⟨bytes ++ bytes', hencodes.append hencodes', by rw [append_assoc, heq, append_assoc], hrest'⟩

/-- **Decoding**: no assertion fails, and every whole frame is taken. -/
theorem decodeAll_spec (hc : c.Lawful) {fuel : Nat} (hfuel : buffer.length < fuel) :
    ∃ frames rest, decodeAll c fuel buffer = some (frames, rest) ∧ Parses c buffer frames rest := by
  induction fuel generalizing buffer with
  | zero => exact absurd hfuel (Nat.not_lt_zero _)
  | succ fuel ih =>
    cases hread : c.fromBytes buffer with
    | none =>
      have hdecode : decode c buffer = some (none, buffer) := by rw [decode, hread]
      exact ⟨[], buffer, by rw [decodeAll, hdecode], [], .nil, rfl, hread⟩
    | some f =>
      obtain ⟨b, hb, tail, rfl⟩ := hc.whole buffer f hread
      have hsize := hc.size f b hb
      have hdecode : decode c (b ++ tail) = some (some f, tail) := by
        simp only [decode, hread, ← hsize]
        rw [if_pos (by simp), drop_left]
      have htail : tail.length < fuel := by
        rw [length_append, hsize, headerSize] at hfuel
        omega
      obtain ⟨frames, rest, hall, bytes, hencodes, rfl, hrest⟩ := ih htail
      refine ⟨f :: frames, rest, ?_, b ++ bytes, .cons hb hencodes, (append_assoc _ _ _).symm, hrest⟩
      simp only [decodeAll, hdecode, hall]
      rfl

theorem framedRead_spec (hc : c.Lawful) (chunks : List Bytes) :
    ∃ frames rest, framedRead c chunks = some (frames, rest) ∧ Parses c chunks.flatten frames rest := by
  -- the induction is over the chunks, from any buffer that was read so far
  have hgeneral : ∀ (chunks : List Bytes) (st : List Frame × Bytes) (before : Bytes), Parses c before st.1 st.2 →
      ∃ frames rest, chunks.foldlM (fun st chunk =>
        (decodeAll c ((st.2 ++ chunk).length + 1) (st.2 ++ chunk)).map fun r => (st.1 ++ r.1, r.2)) st =
          some (frames, rest) ∧ Parses c (before ++ chunks.flatten) frames rest := by
    intro chunks
    induction chunks with
    | nil =>
      intro st before h
      exact ⟨st.1, st.2, rfl, by rwa [flatten_nil, append_nil]⟩
    | cons chunk _ ih =>
      intro st before h
      obtain ⟨more, left, hall, hparses⟩ := decodeAll_spec hc (lt_add_one (st.2 ++ chunk).length)
      obtain ⟨frames, rest, hfold, _⟩ := ih (st.1 ++ more, left) (before ++ chunk) (h.append hparses)
      refine ⟨frames, rest, ?_, by rwa [flatten_cons, ← append_assoc]⟩
      rw [foldlM_cons, hall]
      exact hfold
  exact hgeneral chunks ([], []) [] ⟨[], .nil, rfl, hc.fromBytes_nil⟩

end

/-! ## Padding -/

section
variable {c : Codec}

/-- While input remains a record has its size, except one in which the input ends and no Waste header fits. -/
def Record.Exact (r : Record) : Prop :=
  r.input ≠ [] → r.bytes.length = r.size ∨
    r.input.length < r.size ∧ r.size < r.input.length + headerSize ∧ r.bytes = r.input

/-- The records that `sizes` schedule for an input: one for each size that is not a check mark, made from what the ones
before it left, up to a check mark at which no input is left. -/
inductive Scheduled : List Int → Bytes → List Record → Bytes → Prop
  | done (input : Bytes) : Scheduled [] input [] input
  | stop (sizes : List Int) : Scheduled (checkMark :: sizes) [] [] []
  | skip {sizes : List Int} {input left : Bytes} {rs : List Record} : input ≠ [] → Scheduled sizes input rs left →
      Scheduled (checkMark :: sizes) input rs left
  | record {size : Int} {sizes : List Int} {left : Bytes} {r : Record} {rs : List Record} : r.size = size →
      Scheduled sizes (r.input.drop r.size) rs left → Scheduled (size :: sizes) r.input (r :: rs) left

def Padded (c : Codec) (tail : Bytes) : Prop := ∃ ns : List Nat, Encodes c (ns.map waste) tail ∧ ∀ n ∈ ns, n ≤ 65535

theorem Padded.append {tail tail' : Bytes} (h : Padded c tail) (h' : Padded c tail') : Padded c (tail ++ tail') := by
  obtain ⟨ns, hencodes, hle⟩ := h
  obtain ⟨ns', hencodes', hle'⟩ := h'
  refine ⟨ns ++ ns', by rw [map_append]; exact hencodes.append hencodes', fun n hn => ?_⟩
  rcases mem_append.1 hn with hn | hn
  · exact hle n hn
  · exact hle' n hn

theorem fill_spec (hc : c.Lawful) (size : Nat) {input : Bytes} (hsize : size ≤ 65535) (hlt : input.length < size) :
    ∃ record tail, fill c size input = .ok record ∧ record = input ++ tail ∧ Padded c tail ∧
      (⟨size, input, record⟩ : Record).Exact := by
  unfold fill
  by_cases hroom : input.length + headerSize ≤ size
  · rw [if_pos hroom]
    have hfits : size - input.length - headerSize ≤ 65535 := by omega
    obtain ⟨b, hb⟩ := hc.waste _ hfits
    rw [hb]
    have hpadded : Padded c b := by
      refine ⟨[size - input.length - headerSize], ?_, fun n hn => ?_⟩
      · rw [← append_nil b]
        exact .cons hb .nil
      · rwa [mem_singleton.1 hn]
    refine ⟨_, b, rfl, rfl, hpadded, fun _ => .inl ?_⟩
    have hlength := hc.size _ b hb
    simp only [waste, length_replicate] at hlength
    show (input ++ b).length = size
    rw [length_append, hlength]
    omega
  · rw [if_neg hroom]
    exact ⟨input, [], rfl, (append_nil _).symm, ⟨[], .nil, fun _ hn => nomatch hn⟩,
      fun _ => .inr ⟨hlt, not_le.1 hroom, rfl⟩⟩

/-- **The records of a write**: they are those scheduled, together they are the input and then Waste frames, and while
input remains each has its scheduled size. -/
theorem records_spec (hc : c.Lawful) {sizes : List Int}
    (hsizes : ∀ size ∈ sizes, size = checkMark ∨ 1 ≤ size ∧ size ≤ 65535) (input : Bytes) :
    ∃ rs left tail, records c sizes input = .ok (rs, left) ∧ (rs.map Record.bytes).flatten ++ left = input ++ tail ∧
      Padded c tail ∧ Scheduled sizes input rs left ∧ ∀ r ∈ rs, r.Exact := by
  have hnone : Padded c [] := ⟨[], .nil, fun _ hn => nomatch hn⟩
  induction sizes generalizing input with
  | nil => exact ⟨[], input, [], rfl, by simp, hnone, .done input, fun _ hr => nomatch hr⟩
  | cons size _ ih =>
    have hrest := fun input => ih (fun s hs => hsizes s (mem_cons_of_mem _ hs)) input
    unfold records
    rcases hsizes size mem_cons_self with hmark | ⟨hpos, hle⟩
    · rw [if_pos hmark]
      subst hmark
      split_ifs with hinput
      · subst hinput
        exact ⟨[], [], [], rfl, rfl, hnone, .stop _, fun _ hr => nomatch hr⟩
      · obtain ⟨rs, left, tail, hrecords, hflatten, hpadded, hscheduled, hexact⟩ := hrest input
        exact ⟨rs, left, tail, hrecords, hflatten, hpadded, .skip hinput hscheduled, hexact⟩
    · have hmark : size ≠ checkMark := by
        unfold checkMark
        omega
      rw [if_neg hmark, if_neg (by omega), if_neg (by omega)]
      have hsize : (size.toNat : Int) = size := Int.toNat_of_nonneg (by omega)
      by_cases hlong : size.toNat ≤ input.length
      · rw [if_pos hlong]
        obtain ⟨rs, left, tail, hrecords, hflatten, hpadded, hscheduled, hexact⟩ := hrest (input.drop size.toNat)
        rw [hrecords]
        refine ⟨_, left, tail, rfl, ?_, hpadded, @Scheduled.record _ _ _ ⟨_, input, _⟩ _ hsize hscheduled, fun r hr => ?_⟩
        · rw [map_cons, flatten_cons, append_assoc, hflatten, ← append_assoc,
            take_append_drop]
        · rcases mem_cons.1 hr with rfl | hr
          · exact fun _ => .inl (length_take_of_le hlong)
          · exact hexact r hr
      · rw [if_neg hlong]
        obtain ⟨_, filler, hfill, rfl, hfiller, hrecord⟩ :=
          fill_spec hc size.toNat (by omega) (not_le.1 hlong)
        obtain ⟨_, left, tail, hrecords, hflatten, hpadded, hscheduled, hexact⟩ := hrest []
        rw [hfill, hrecords]
        rw [← drop_eq_nil_of_le (Nat.le_of_not_le hlong)] at hscheduled
        refine ⟨_, left, filler ++ tail, rfl, ?_, hfiller.append hpadded,
          @Scheduled.record _ _ _ ⟨_, input, _⟩ _ hsize hscheduled, fun r hr => ?_⟩
        · rw [map_cons, flatten_cons, append_assoc, hflatten, nil_append, append_assoc]
        · rcases mem_cons.1 hr with rfl | hr
          · exact hrecord
          · exact hexact r hr

structure Call.Writes (c : Codec) (call : Call) (frames : List Frame) : Prop where
  padding : ∀ p ∈ call.padding, p.Valid
  bytes : Encodes c frames call.bytes

/-- What a call writes: the input in one piece, or the records that its padding schedules and then what is left. -/
def Call.Cut (call : Call) (written : List Bytes) : Prop :=
  match call.padding.filter fun p => call.packet < p.stop with
  | none => written = [call.bytes]
  | some p => ∃ rs left, written = rs.map Record.bytes ++ [left] ∧
      Scheduled (p.generate call.packet) call.bytes rs left ∧ ∀ r ∈ rs, r.Exact

theorem writeRecords_spec (hc : c.Lawful) {call : Call} (hpadding : ∀ p ∈ call.padding, p.Valid) :
    ∃ written tail, writeRecords c call.padding call.packet call.bytes = .ok written ∧
      written.flatten = call.bytes ++ tail ∧ Padded c tail ∧ call.Cut written := by
  unfold writeRecords Call.Cut
  cases hp : call.padding.filter fun p => call.packet < p.stop with
  | none => exact ⟨[call.bytes], [], rfl, by simp, ⟨[], .nil, fun _ hn => nomatch hn⟩, rfl⟩
  | some p =>
    have hvalid := hpadding p (eq_some_of_filter_eq_some hp)
    obtain ⟨_, _, tail, hrecords, hflatten, hpadded, hcut⟩ := records_spec hc (hvalid call.packet) call.bytes
    simp only [hrecords]
    exact ⟨_, tail, rfl, by simpa using hflatten, hpadded, _, _, rfl, hcut⟩

def withoutWaste (frames : List Frame) : List Frame := frames.filter fun f => !f.isWaste

theorem withoutWaste_append (frames frames' : List Frame) :
    withoutWaste (frames ++ frames') = withoutWaste frames ++ withoutWaste frames' := filter_append _ _

theorem withoutWaste_wastes (ns : List Nat) : withoutWaste (ns.map waste) = [] := by
  refine filter_eq_nil_iff.2 fun f hf => ?_
  obtain ⟨_, -, rfl⟩ := List.mem_map.1 hf
  simp [waste, Frame.isWaste]

theorem writeAll_spec (hc : c.Lawful) {calls : List (Call × List Frame)} (h : ∀ x ∈ calls, x.1.Writes c x.2) :
    ∃ stream sent, writeAll c (calls.map Prod.fst) = .ok stream ∧ Encodes c sent stream ∧
      withoutWaste sent = withoutWaste (calls.flatMap Prod.snd) := by
  induction calls with
  | nil => exact ⟨[], [], rfl, .nil, rfl⟩
  | cons x _ ih =>
    have hx := h x mem_cons_self
    obtain ⟨written, _, hwritten, hflatten, ⟨ns, hns, -⟩, -⟩ := writeRecords_spec hc hx.padding
    obtain ⟨stream, sent, hstream, hsent, hsame⟩ := ih fun y hy => h y (mem_cons_of_mem _ hy)
    refine ⟨written.flatten ++ stream, x.2 ++ ns.map waste ++ sent, ?_, ?_, ?_⟩
    · rw [map_cons, writeAll, hwritten, hstream]
      rfl
    · rw [hflatten]
      exact (hx.bytes.append hns).append hsent
    · rw [withoutWaste_append, withoutWaste_append, withoutWaste_wastes, append_nil, hsame, flatMap_cons,
        withoutWaste_append]

theorem framedRead_encodes (hc : c.Lawful) {sent : List Frame} {stream : Bytes} (h : Encodes c sent stream)
    {chunks : List Bytes} (hchunks : chunks.flatten = stream) : framedRead c chunks = some (sent, []) := by
  obtain ⟨_, _, hread, hparses⟩ := framedRead_spec hc chunks
  rw [hchunks] at hparses
  obtain ⟨rfl, rfl⟩ := hparses.unique hc (h.parses hc)
  exact hread

/-- **Padding is invisible to the receiver.** A write is its input and then complete Waste frames, its records are those
scheduled and have their sizes while input remains, and however the stream of many writes is cut into reads, the frames
decoded from it are, without Waste, those written, with nothing left over. -/
theorem padding_invisible (hc : c.Lawful) {calls : List (Call × List Frame)} (h : ∀ x ∈ calls, x.1.Writes c x.2) :
    (∀ x ∈ calls, ∃ written tail, writeRecords c x.1.padding x.1.packet x.1.bytes = .ok written ∧
      written.flatten = x.1.bytes ++ tail ∧ Padded c tail ∧ x.1.Cut written) ∧
    ∃ stream, writeAll c (calls.map Prod.fst) = .ok stream ∧ ∀ chunks : List Bytes, chunks.flatten = stream →
      ∃ decoded, framedRead c chunks = some (decoded, []) ∧
        withoutWaste decoded = withoutWaste (calls.flatMap Prod.snd) := by
  obtain ⟨stream, sent, hstream, hsent, hsame⟩ := writeAll_spec hc h
  exact ⟨fun x hx => writeRecords_spec hc (h x hx).padding, stream, hstream, fun chunks hchunks =>
    ⟨sent, framedRead_encodes hc hsent hchunks, hsame⟩⟩

end

/-! ## The format -/

def Command.code : Command → UInt8
  | .syn => 1
  | .psh => 2
  | .fin => 3
  | .alert => 5
  | .synAck => 7
  | .other code => code

def Command.ofCode (code : UInt8) : Command :=
  if code = 1 then .syn else if code = 2 then .psh else if code = 3 then .fin else if code = 5 then .alert
  else if code = 7 then .synAck else .other code

theorem Command.code_ofCode (code : UInt8) : (Command.ofCode code).code = code := by
  unfold Command.ofCode
  split_ifs with h1 h2 h3 h4 h5
  · exact h1.symm
  · exact h2.symm
  · exact h3.symm
  · exact h4.symm
  · exact h5.symm
  · rfl

def format : Codec where
  toBytes f :=
    if Command.ofCode f.cmd.code = f.cmd ∧ f.sid < 2 ^ 32 ∧ f.data.length < 2 ^ 16 then
      .ok (f.cmd.code :: (toBytes 4 f.sid ++ toBytes 2 f.data.length) ++ f.data)
    else .error "invalid frame"
  fromBytes b :=
    match b with
    | [] => none
    | code :: rest =>
      if rest.length < 6 ∨ rest.length < 6 + numberAt rest 4 2 then none
      else some ⟨.ofCode code, numberAt rest 0 4, (rest.drop 6).take (numberAt rest 4 2)⟩

theorem format_toBytes {f : Frame} {b : Bytes} (h : format.toBytes f = .ok b) :
    (Command.ofCode f.cmd.code = f.cmd ∧ f.sid < 2 ^ 32 ∧ f.data.length < 2 ^ 16) ∧
      b = f.cmd.code :: (toBytes 4 f.sid ++ toBytes 2 f.data.length) ++ f.data := by
  simp only [format] at h
  split_ifs at h with hf
  exact ⟨hf, (Except.ok.inj h).symm⟩

theorem format_read {f : Frame} {b rest : Bytes} (h : format.toBytes f = .ok b) :
    format.fromBytes (b ++ rest) = some f := by
  obtain ⟨⟨hcode, hsid, hlength⟩, rfl⟩ := format_toBytes h
  obtain ⟨tail, htail⟩ : ∃ tail, tail = toBytes 4 f.sid ++ toBytes 2 f.data.length ++ f.data ++ rest := ⟨_, rfl⟩
  have hbuffer : f.cmd.code :: (toBytes 4 f.sid ++ toBytes 2 f.data.length) ++ f.data ++ rest = f.cmd.code :: tail := by
    rw [htail]
    simp
  have hnumber : numberAt tail 0 4 = f.sid := numberAt_toBytes (a := [])
    (c := toBytes 2 f.data.length ++ f.data ++ rest) (by rw [htail]; simp) rfl hsid
  have hsize : numberAt tail 4 2 = f.data.length := numberAt_toBytes (a := toBytes 4 f.sid) (c := f.data ++ rest)
    (by rw [htail]; simp) (length_toBytes _ _) hlength
  have hlong : tail.length = 6 + f.data.length + rest.length := by
    rw [htail]
    simp only [length_append, length_toBytes]
  have hdata : (tail.drop 6).take f.data.length = f.data := by
    rw [htail, append_assoc, drop_left' (by simp), take_left]
  rw [hbuffer]
  simp only [format, hnumber, hsize, hdata, hcode]
  rw [if_neg (by omega)]

theorem format_whole {buffer : Bytes} {f : Frame} (h : format.fromBytes buffer = some f) :
    ∃ b, format.toBytes f = .ok b ∧ b <+: buffer := by
  cases buffer with
  | nil => cases h
  | cons _ rest =>
    simp only [format] at h
    split_ifs at h with hshort
    obtain rfl := some.inj h
    obtain ⟨_, _⟩ := not_or.1 hshort
    have hfour : (rest.take 4).length = 4 := length_take_of_le (by omega)
    have htwo : (slice rest 4 6).length = 2 := by
      rw [length_slice]
      omega
    have hdata : ((rest.drop 6).take (numberAt rest 4 2)).length = numberAt rest 4 2 := by
      rw [length_take, length_drop]
      omega
    have hlt : numberAt rest 0 4 < 2 ^ 32 := by
      have hbound := bigEndian_lt (rest.take 4)
      rwa [hfour] at hbound
    have hlt' : numberAt rest 4 2 < 2 ^ 16 := by
      have hbound := bigEndian_lt (slice rest 4 6)
      rwa [htwo] at hbound
    have hencoded : toBytes 4 (numberAt rest 0 4) = rest.take 4 := by
      have hround := toBytes_bigEndian (rest.take 4)
      rwa [hfour] at hround
    have hencoded' : toBytes 2 (numberAt rest 4 2) = slice rest 4 6 := by
      have hround := toBytes_bigEndian (slice rest 4 6)
      rwa [htwo] at hround
    refine ⟨_, if_pos ⟨by rw [Command.code_ofCode], hlt, by rwa [hdata]⟩, rest.drop (6 + numberAt rest 4 2), ?_⟩
    have hcut : rest.take 4 ++ slice rest 4 6 = rest.take 6 := by
      rw [slice]
      have htake : rest.take 4 = (rest.take 6).take 4 := by
        rw [take_take]
        rfl
      rw [htake, take_append_drop]
    rw [Command.code_ofCode, hdata, hencoded, hencoded', hcut]
    simp only [cons_append, append_assoc]
    rw [← drop_drop, take_append_drop, take_append_drop]

theorem format_lawful : format.Lawful where
  size f b h := by
    obtain ⟨-, rfl⟩ := format_toBytes h
    simp [headerSize]
    omega
  read f b rest h := format_read h
  whole buffer f h := format_whole h
  waste n hn := by
    have hcode : Command.ofCode (waste n).cmd.code = (waste n).cmd := rfl
    have hlength : (waste n).data.length < 2 ^ 16 := by
      simp only [waste, length_replicate]
      omega
    exact ⟨_, if_pos ⟨hcode, by simp [waste], hlength⟩⟩

def sample : Call × List Frame :=
  (⟨some ⟨8, fun _ => [4, checkMark, 20, 9]⟩, 1, [2, 0, 0, 0, 1, 0, 2, 5, 6]⟩, [⟨.psh, 1, [5, 6]⟩])

theorem sample_writes : sample.1.Writes format sample.2 where
  padding p hp packet size hsize := by
    cases some.inj hp
    simp only [mem_cons, not_mem_nil, or_false] at hsize
    rcases hsize with rfl | rfl | rfl | rfl
    · exact .inr (by decide)
    · exact .inl rfl
    · exact .inr (by decide)
    · exact .inr (by decide)
  bytes := by
    have hb : format.toBytes ⟨.psh, 1, [5, 6]⟩ = .ok [2, 0, 0, 0, 1, 0, 2, 5, 6] := rfl
    exact .cons hb .nil

theorem padding_invisible_sample : format.Lawful ∧
    (writeRecords format sample.1.padding sample.1.packet sample.1.bytes).map (List.map List.length) =
      .ok [4, 20, 9, 0] ∧
    (∃ written, writeRecords format sample.1.padding sample.1.packet sample.1.bytes = .ok written ∧
      sample.1.Cut written) ∧
    ∃ stream, writeAll format ([sample].map Prod.fst) = .ok stream ∧ ∀ chunks : List Bytes, chunks.flatten = stream →
      ∃ decoded, framedRead format chunks = some (decoded, []) ∧
        withoutWaste decoded = withoutWaste ([sample].flatMap Prod.snd) := by
  have hwrites : ∀ x ∈ [sample], x.1.Writes format x.2 := fun x hx => by
    rw [mem_singleton.1 hx]
    exact sample_writes
  obtain ⟨hwritten, hstream⟩ := padding_invisible format_lawful hwrites
  obtain ⟨written, -, hok, -, -, hcut⟩ := hwritten sample (mem_singleton.2 rfl)
  exact ⟨format_lawful, rfl, ⟨written, hok, hcut⟩, hstream⟩

end Kotoconn.AnyTls
