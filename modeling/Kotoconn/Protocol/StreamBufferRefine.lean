import Kotoconn.Protocol.StreamBuffer

/-! # A buffered stream is two channels -/

namespace Kotoconn.Protocol.StreamBuffer
open Lib List Option Function

/-! ## One pipe -/

def contents (chunks : List Chunk) : Bytes := chunks.flatMap Chunk.data

@[simp] theorem contents_nil : contents [] = [] := rfl
@[simp] theorem contents_cons (c : Chunk) (chunks : List Chunk) : contents (c :: chunks) = c.data ++ contents chunks := rfl
@[simp] theorem contents_append (a b : List Chunk) : contents (a ++ b) = contents a ++ contents b := flatMap_append

namespace Pipe
variable {p p' : Pipe} {c : Channel UInt8}

def buffered (p : Pipe) : Bytes := (contents p.chunks).drop p.offset

structure Sound (p : Pipe) : Prop where
  bytes : p.bytes = p.buffered.length
  chunks : ∀ chunk ∈ p.chunks, chunk.data ≠ []
  offset : ∀ chunk ∈ p.chunks.head?, p.offset < chunk.data.length
  start : p.readerClosed = false → p.chunks = [] → p.offset = 0
  capacity : p.capacity.Sane

structure Refines (p : Pipe) (c : Channel UInt8) : Prop where
  sound : p.Sound
  queue : c.queue = p.buffered
  closed : c.closed = p.writerClosed
  gone : c.gone = p.readerClosed

theorem new_refines (initial now : Nat) : (new initial now).Refines .empty :=
  ⟨⟨rfl, nofun, nofun, fun _ _ => rfl, Capacity.new_sane initial now⟩, rfl, rfl, rfl⟩

theorem Refines.close (h : p.Refines c) : p.close.Refines c.close :=
  ⟨⟨h.sound.bytes, h.sound.chunks, h.sound.offset, h.sound.start, h.sound.capacity⟩, h.queue, rfl, h.gone⟩

theorem Refines.leave (h : p.Refines c) : p.leave.Refines c.leave := by
  have hnil : p.leave.buffered = [] := drop_nil
  exact ⟨⟨by rw [hnil]; rfl, nofun, nofun, nofun, h.sound.capacity⟩, hnil.symm, h.closed, rfl⟩

/-! ### Reads -/

theorem buffered_cons {chunk : Chunk} {rest : List Chunk} (hchunks : p.chunks = chunk :: rest)
    (hoffset : p.offset ≤ chunk.data.length) : p.buffered = chunk.data.drop p.offset ++ contents rest := by
  rw [buffered, hchunks, contents_cons, drop_append_of_le_length hoffset]

/-- What a turn of the loop does: the bytes copied and those left are the bytes there were. -/
theorem Sound.advance (h : p.Sound) {chunk : Chunk} {rest : List Chunk} {count : Nat}
    (hchunks : p.chunks = chunk :: rest) (hcount : p.offset + count ≤ chunk.data.length) :
    (p.advance chunk.data.length count).Sound ∧
      slice chunk.data p.offset (p.offset + count) ++ (p.advance chunk.data.length count).buffered = p.buffered := by
  have hoffset : p.offset < chunk.data.length := h.offset chunk (by rw [hchunks]; rfl)
  have hbuf := buffered_cons hchunks (le_of_lt hoffset)
  have hbytes := h.bytes
  rw [hbuf, length_append, length_drop] at hbytes
  have hrest : ∀ c ∈ rest, c.data ≠ [] := fun c hc => h.chunks c (by rw [hchunks]; exact mem_cons_of_mem _ hc)
  by_cases hend : p.offset + count = chunk.data.length
  · have hadv : p.advance chunk.data.length count =
        { p with chunks := rest, offset := 0, bytes := p.bytes - count } := by
      rw [Pipe.advance, if_pos hend, hchunks, tail_cons]
    have hleft : (p.advance chunk.data.length count).buffered = contents rest := by
      rw [hadv]
      rfl
    refine ⟨?_, by rw [hleft, hbuf, hend, slice_to_end]⟩
    constructor
    case bytes =>
      rw [hleft, hadv]
      simp only
      omega
    all_goals rw [hadv]
    case chunks => exact hrest
    case offset => exact fun c hc => length_pos_of_ne_nil (hrest c (mem_of_mem_head? hc))
    case start => exact fun _ _ => rfl
    case capacity => exact h.capacity
  · have hadv : p.advance chunk.data.length count =
        { p with offset := p.offset + count, bytes := p.bytes - count } := by
      rw [Pipe.advance, if_neg hend]
    have hleft : (p.advance chunk.data.length count).buffered =
        chunk.data.drop (p.offset + count) ++ contents rest := by
      rw [hadv]
      exact buffered_cons (p := { p with offset := p.offset + count, bytes := p.bytes - count }) hchunks hcount
    refine ⟨?_, ?_⟩
    · constructor
      case bytes =>
        rw [hleft, length_append, length_drop, hadv]
        simp only
        omega
      all_goals rw [hadv]
      case chunks => exact h.chunks
      case offset =>
        intro c hc
        simp only [hchunks, head?_cons, mem_some_iff] at hc
        subst hc
        change p.offset + count < chunk.data.length
        omega
      case start => exact fun _ hnil => absurd (hchunks.symm.trans hnil) nofun
      case capacity => exact h.capacity
    · rw [hleft, hbuf, ← append_assoc, slice, drop_take, Nat.add_sub_cancel_left, ← drop_drop,
        take_append_drop]

structure Copied (p : Pipe) (remaining : Nat) (s : Bytes × Pipe) : Prop where
  sound : s.2.Sound
  split : s.1 ++ s.2.buffered = p.buffered
  room : s.1.length ≤ remaining
  capacity : s.2.capacity = p.capacity
  writerClosed : s.2.writerClosed = p.writerClosed
  readerClosed : s.2.readerClosed = p.readerClosed

theorem advance_frame (p : Pipe) (length count : Nat) : (p.advance length count).capacity = p.capacity ∧
    (p.advance length count).writerClosed = p.writerClosed ∧ (p.advance length count).readerClosed = p.readerClosed ∧
    (p.advance length count).chunks.length + (if p.offset + count = length then 1 else 0) ≤ max p.chunks.length 1 := by
  unfold advance
  split_ifs with hend
  · refine ⟨rfl, rfl, rfl, ?_⟩
    simp only [length_tail]
    omega
  · exact ⟨rfl, rfl, rfl, by simp only; omega⟩

theorem copy_spec (h : p.Sound) (remaining : Nat) : ∃ out p', p.copy remaining = some (out, p') ∧
    Copied p remaining (out, p') ∧ (out.length = remaining ∨ p'.buffered = []) := by
  suffices hloop : ∃ r, p.copy remaining = some r ∧ Copied p remaining r ∧
      (r.1.length = remaining ∨ r.2.buffered = []) by
    obtain ⟨⟨out, p'⟩, hcopy, hcopied, hfull⟩ := hloop
    exact ⟨out, p', hcopy, hcopied, hfull⟩
  refine loop_spec (Copied p remaining) _ (fun s => s.2.chunks.length + (remaining - s.1.length)) ?_
    (p.chunks.length + remaining + 1) ([], p) ⟨h, rfl, zero_le, rfl, rfl, rfl⟩ (by simp)
  rintro ⟨out, q⟩ hs
  unfold copyTurn
  split_ifs with hfull
  · have := hs.room
    exact .inl ⟨_, rfl, hs, .inl (by simp only at this hfull ⊢; omega)⟩
  cases hchunks : q.chunks with
  | nil =>
    refine .inl ⟨_, rfl, hs, .inr ?_⟩
    simp only [buffered, hchunks, contents_nil, drop_nil]
  | cons chunk =>
    have hoffset : q.offset < chunk.data.length := hs.sound.offset chunk (by rw [hchunks]; rfl)
    have hbytes : q.bytes = q.buffered.length := hs.sound.bytes
    rw [buffered_cons hchunks (le_of_lt hoffset), length_append, length_drop] at hbytes
    simp only at hfull ⊢
    rw [if_neg (by omega), if_neg (by omega)]
    refine .inr ⟨_, rfl, ?_⟩
    have hcount : q.offset + min (remaining - out.length) (chunk.data.length - q.offset) ≤ chunk.data.length := by omega
    obtain ⟨hsound, hsplit⟩ := hs.sound.advance hchunks hcount
    obtain ⟨h1, h2, h3, h4⟩ := q.advance_frame chunk.data.length
      (min (remaining - out.length) (chunk.data.length - q.offset))
    have hroom := hs.room
    simp only [hchunks, length_cons] at hroom h4
    refine ⟨⟨hsound, ?_, ?_, h1.trans hs.capacity, h2.trans hs.writerClosed, h3.trans hs.readerClosed⟩, ?_⟩
    · rw [append_assoc, hsplit, hs.split]
    · simp only [length_append, length_slice]
      omega
    · simp only [length_append, length_slice, length_cons]
      split_ifs at h4 <;> omega

theorem readInner_refines (h : p.Refines c) (remaining now : Nat) : ∃ r p' c',
    p.readInner remaining now = some (r, p') ∧ c.Read remaining r c' ∧ p'.Refines c' := by
  unfold readInner
  split_ifs with hzero
  · exact ⟨_, _, c, rfl, .nothing hzero, h⟩
  have hpos : 0 < remaining := by omega
  obtain ⟨out, p', hcopy, hcopied, hend⟩ := copy_spec h.sound remaining
  have hsplit : out ++ p'.buffered = c.queue := hcopied.split.trans h.queue.symm
  have htake : c.queue.take remaining = out ∧ c.queue.drop remaining = p'.buffered := by
    rcases hend with hfull | hnil
    · rw [← hsplit, ← hfull]
      exact ⟨take_left, drop_left⟩
    · have hroom := hcopied.room
      rw [hnil, append_nil] at hsplit
      rw [← hsplit, hnil]
      exact ⟨take_of_length_le hroom, drop_of_length_le hroom⟩
  rw [hcopy, bind_eq_bind, bind_some]
  simp only
  split_ifs with hout hclosed
  · have hqueue : c.queue ≠ [] := by
      rw [← hsplit]
      exact append_ne_nil_of_left_ne_nil (ne_nil_of_length_pos hout) _
    have hread := Channel.Read.received hpos hqueue
    rw [htake.1] at hread
    refine ⟨_, _, _, rfl, hread, ?_⟩
    have hs := hcopied.sound
    exact ⟨⟨hs.bytes, hs.chunks, hs.offset, hs.start, hs.capacity.complete _ _⟩, htake.2,
      h.closed.trans hcopied.writerClosed.symm, h.gone.trans hcopied.readerClosed.symm⟩
  all_goals
    have hnil : out = [] := eq_nil_of_length_eq_zero (by omega)
    have hqueue : c.queue = [] := by
      rcases hend with hfull | hempty
      · omega
      · rw [← hsplit, hnil, hempty]
        rfl
    rw [hnil] at hsplit
    have hrefines : p'.Refines c :=
      ⟨hcopied.sound, hsplit.symm, h.closed.trans hcopied.writerClosed.symm, h.gone.trans hcopied.readerClosed.symm⟩
  · exact ⟨_, _, c, rfl, .ended hpos hqueue (hrefines.closed.trans hclosed), hrefines⟩
  · exact ⟨_, _, c, rfl, .blocked hpos hqueue (hrefines.closed.trans (Bool.eq_false_iff.2 hclosed)), hrefines⟩

/-! ### Writes -/

structure Appended (p : Pipe) (data : Bytes) (n : Nat) (p' : Pipe) : Prop where
  sound : p'.Sound
  buffered : p'.buffered = p.buffered ++ data.take n
  writerClosed : p'.writerClosed = p.writerClosed
  readerClosed : p'.readerClosed = p.readerClosed

theorem Sound.append (h : p.Sound) (hopen : p.readerClosed = false) {data : Bytes} {n : Nat} {chunks : List Chunk}
    (hn : n ≤ data.length) (hcontents : contents chunks = contents p.chunks ++ data.take n)
    (hchunks : ∀ chunk ∈ chunks, chunk.data ≠ []) (hoffset : ∀ chunk ∈ chunks.head?, p.offset < chunk.data.length) :
    Appended p data n { p with chunks := chunks, bytes := p.bytes + n } := by
  have hle : p.offset ≤ (contents p.chunks).length := by
    cases hp : p.chunks with
    | nil => exact le_of_eq (h.start hopen hp)
    | cons chunk =>
      have := h.offset chunk (by rw [hp]; rfl)
      rw [contents_cons, length_append]
      omega
  have hbuf : ({ p with chunks := chunks, bytes := p.bytes + n } : Pipe).buffered = p.buffered ++ data.take n := by
    rw [Pipe.buffered, Pipe.buffered, hcontents, drop_append_of_le_length hle]
  refine ⟨⟨?_, hchunks, hoffset, fun _ hnil => ?_, h.capacity⟩, hbuf, rfl, rfl⟩
  · rw [hbuf, length_append, length_take, h.bytes, min_eq_left hn]
  · have hlen := congrArg List.length hcontents
    rw [show chunks = [] from hnil, contents_nil, length_append] at hlen
    change p.offset = 0
    simp only [length_nil] at hlen
    omega

theorem pushChunk_spec (h : p.Sound) (hopen : p.readerClosed = false) {data : Bytes} {count : Nat} (hpos : 0 < count)
    (hcount : count ≤ data.length) (allocated : Nat) : ∃ p', p.pushChunk data count allocated = (.ready (.ok count), p') ∧
    Appended p data count p' := by
  have htake : data.take count ≠ [] := ne_nil_of_length_pos (by rw [length_take]; omega)
  refine ⟨_, rfl, h.append hopen hcount (by simp) (fun chunk hchunk => ?_) fun chunk hchunk => ?_⟩
  · rcases mem_append.1 hchunk with hchunk | hchunk
    · exact h.chunks chunk hchunk
    · rw [mem_singleton.1 hchunk]
      exact htake
  · cases hp : p.chunks with
    | nil =>
      simp only [hp, nil_append, head?_cons, mem_some_iff] at hchunk
      subst hchunk
      rw [h.start hopen hp]
      exact length_pos_of_ne_nil htake
    | cons =>
      simp only [hp, cons_append, head?_cons, mem_some_iff] at hchunk
      exact h.offset chunk (by rw [hp, ← hchunk]; rfl)

theorem append_spec (h : p.Sound) (hopen : p.readerClosed = false) {data : Bytes} {count : Nat} (hpos : 0 < count)
    (hcount : count ≤ data.length) (allocated : Nat) : ∃ n p', p.append data count allocated = (.ready (.ok n), p') ∧
    0 < n ∧ n ≤ count ∧ Appended p data n p' := by
  have hpush : ∃ n p', p.pushChunk data count allocated = (.ready (.ok n), p') ∧ 0 < n ∧ n ≤ count ∧
      Appended p data n p' := by
    obtain ⟨p', heq, happ⟩ := pushChunk_spec h hopen hpos hcount allocated
    exact ⟨count, p', heq, hpos, le_rfl, happ⟩
  unfold Pipe.append
  cases hlast : p.chunks.getLast? with
  | none => exact hpush
  | some last =>
    simp only
    split_ifs with hroom
    · have hsplit : p.chunks.dropLast ++ [last] = p.chunks := dropLast_append_getLast? last hlast
      have hmem : last ∈ p.chunks := mem_of_getLast? hlast
      refine ⟨_, _, rfl, by omega, by omega, h.append hopen (by omega) ?_ (fun chunk hchunk => ?_)
        fun chunk hchunk => ?_⟩
      · conv_rhs => rw [← hsplit]
        simp
      · rcases mem_append.1 hchunk with hchunk | hchunk
        · exact h.chunks chunk ((dropLast_sublist _).subset hchunk)
        · rw [mem_singleton.1 hchunk]
          exact append_ne_nil_of_left_ne_nil (h.chunks last hmem) _
      · -- the last chunk may be the front one, partly read
        cases hd : p.chunks.dropLast with
        | nil =>
          rw [hd, nil_append] at hsplit
          simp only [hd, nil_append, head?_cons, mem_some_iff] at hchunk
          subst hchunk
          have := h.offset last (by rw [← hsplit]; rfl)
          simp only [length_append]
          omega
        | cons =>
          simp only [hd, cons_append, head?_cons, mem_some_iff] at hchunk
          exact h.offset chunk (by rw [← hsplit, hd, ← hchunk]; rfl)
    · exact hpush

def view : Poll (Except ErrorKind Nat) → Poll (Option Nat)
  | .ready (.ok n) => .ready (some n)
  | .ready (.error _) => .ready none
  | .pending => .pending

/-- **A write is a write of the channel** under the current target. -/
theorem writeInner_refines (h : p.Refines c) (data : Bytes) (now allocated : Nat) : ∃ c',
    c.Write (p.capacity.target now).1 data (view (p.writeInner data now allocated).1) c' ∧
      (p.writeInner data now allocated).2.Refines c' := by
  unfold writeInner
  split_ifs with hdata hclosed
  · exact ⟨c, .nothing hdata, h⟩
  · refine ⟨c, .refused hdata ?_, h⟩
    rw [h.closed, h.gone]
    exact (Bool.or_eq_true_iff.1 hclosed).symm
  · simp only [Bool.or_eq_true, not_or, Bool.not_eq_true] at hclosed
    have hopen := h.closed.trans hclosed.2
    have hstays := h.gone.trans hclosed.1
    have hs := h.sound
    have hbytes : p.bytes = c.queue.length := by rw [hs.bytes, h.queue]
    have hsound : ({ p with capacity := (p.capacity.target now).2 } : Pipe).Sound :=
      ⟨hs.bytes, hs.chunks, hs.offset, hs.start, hs.capacity.refresh now⟩
    have hpos := length_pos_of_ne_nil hdata
    simp only
    split_ifs with hspace
    · exact ⟨c, .full hdata hopen hstays (by omega), ⟨hsound, h.queue, h.closed, h.gone⟩⟩
    · have hcount : 0 < min (min ((p.capacity.target now).1 - p.bytes) data.length) chunkSize := by
        unfold chunkSize
        omega
      have hmost : min (min ((p.capacity.target now).1 - p.bytes) data.length) chunkSize ≤ data.length := by omega
      obtain ⟨n, _, heq, hn, _, happ⟩ := append_spec hsound hclosed.1 hcount hmost allocated
      have hlen : n ≤ data.length := by omega
      have hfit : c.queue.length + n ≤ (p.capacity.target now).1 := by omega
      rw [heq]
      refine ⟨_, .accepted n hn hlen hopen hstays hfit, ⟨happ.sound, ?_, ?_, ?_⟩⟩
      · rw [happ.buffered, h.queue]
        rfl
      · exact h.closed.trans happ.writerClosed.symm
      · exact h.gone.trans happ.readerClosed.symm

end Pipe

/-! ## Both directions -/

abbrev Channels := Side → Channel UInt8

/-- One call on two channels; `target` is the bound of a write. A call that is not let through does nothing. -/
inductive Channels.Step (c : Channels) (target : Nat) (side : Side) : Op → Outcome → Channels → Prop
  | read {remaining now : Nat} {r : Poll Bytes} {c' : Channel UInt8} (h : (c side.other).Read remaining r c') :
      Step c target side (.read true remaining now) (.read r) (update c side.other c')
  | readLater {remaining now : Nat} : Step c target side (.read false remaining now) (.read .pending) c
  | write {data : Bytes} {now allocated : Nat} {r : Poll (Except ErrorKind Nat)} {c' : Channel UInt8}
      (h : (c side).Write target data (Pipe.view r) c') :
      Step c target side (.write true data now allocated) (.wrote r) (update c side c')
  | writeLater {data : Bytes} {now allocated : Nat} :
      Step c target side (.write false data now allocated) (.wrote .pending) c
  | shutdown : Step c target side .shutdown .closed (update c side (c side).close)
  | drop : Step c target side .drop .closed
      (update (update c side (c side).close) side.other (c side.other).leave)

def Op.now : Op → Nat
  | read _ _ now | write _ _ now _ => now
  | shutdown | drop => 0

theorem Side.other_ne (side : Side) : side.other ≠ side := by
  cases side with
  | left | right => exact nofun

theorem Side.other_other (side : Side) : side.other.other = side := by
  cases side with
  | left | right => rfl

theorem Side.eq_or_other (side other : Side) : other = side ∨ other = side.other := by
  cases side with
  | left | right =>
    cases other with
    | left | right => simp [Side.other]

namespace Duplex
variable {d d' : Duplex} {c c' : Channels} {side : Side} {op : Op} {outcome : Outcome}

def Refines (d : Duplex) (c : Channels) : Prop := ∀ side, (d.pipes side).Refines (c side)

theorem Refines.setPipe (h : d.Refines c) (side : Side) {p : Pipe} {ch : Channel UInt8} (hp : p.Refines ch) :
    (d.setPipe side p).Refines (update c side ch) := by
  intro s
  by_cases hs : s = side
  · subst hs
    simpa [Duplex.setPipe] using hp
  · simpa [Duplex.setPipe, hs] using h s

/-- The current target of the pipe that `side` writes to. -/
def target (d : Duplex) (side : Side) (now : Nat) : Nat := ((d.pipes side).capacity.target now).1

/-- **Every call is a call on two channels**, and never fails inside. -/
theorem step_refines (h : d.Refines c) (side : Side) (op : Op) : ∃ outcome d' c',
    d.step side op = some (outcome, d') ∧ c.Step (d.target side op.now) side op outcome c' ∧ d'.Refines c' := by
  cases op with
  | read proceed remaining now =>
    cases proceed with
    | false => exact ⟨_, _, c, rfl, .readLater, h⟩
    | true =>
      obtain ⟨r, p', ch, heq, hread, hp⟩ := Pipe.readInner_refines (h side.other) remaining now
      exact ⟨.read r, d.setPipe side.other p', _, by simp [step, heq], .read hread, h.setPipe side.other hp⟩
  | write proceed data now allocated =>
    cases proceed with
    | false => exact ⟨_, _, c, rfl, .writeLater, h⟩
    | true =>
      obtain ⟨_, hwrite, hp⟩ := Pipe.writeInner_refines (h side) data now allocated
      exact ⟨_, _, _, rfl, .write hwrite, h.setPipe side hp⟩
  | shutdown => exact ⟨_, _, _, rfl, .shutdown, h.setPipe side (h side).close⟩
  | drop =>
    refine ⟨_, _, _, rfl, .drop, (h.setPipe side (h side).close).setPipe side.other ?_⟩
    simpa [Duplex.setPipe, side.other_ne] using (h side.other).leave

end Duplex

/-! ## Runs -/

def Called (side : Side) (op : Op) (events : List Event) : Prop := ∃ e ∈ events, e.side = side ∧ e.op = op

structure Ledger (events : List Event) (d : Duplex) (c : Channels) : Prop where
  refines : d.Refines c
  conserved : ∀ side, (c side).Conserved
  accepted : ∀ side, (c side).accepted = accepted side events
  received : ∀ side, (c side).received = received side.other events
  closed : ∀ side, (c side).closed = true → d.alive side = false ∨ Called side .shutdown events
  gone : ∀ side, (c side).gone = !d.alive side.other
  dropped : ∀ side, d.alive side = false → Called side .drop events

section Runs
variable {d d' : Duplex} {c c' : Channels} {side : Side} {op : Op} {outcome : Outcome} {events : List Event}
  {initial start target : Nat}

theorem accepted_snoc (e : Event) : accepted side (events ++ [e]) = accepted side events ++ e.accepted side := by
  simp [accepted]

theorem received_snoc (e : Event) : received side (events ++ [e]) = received side events ++ e.received side := by
  simp [received]

theorem Channels.Step.logs (h : c.Step target side op outcome c') (s : Side) :
    (c' s).accepted = (c s).accepted ++ Event.accepted s ⟨side, op, outcome⟩ ∧
      (c' s).received = (c s).received ++ Event.received s.other ⟨side, op, outcome⟩ := by
  have hother := side.other_ne
  cases h with
  | readLater | writeLater => exact ⟨(append_nil _).symm, (append_nil _).symm⟩
  | shutdown =>
    by_cases hs : s = side
    · subst hs
      simp [Event.accepted, Event.received, Channel.close]
    · simp [Event.accepted, Event.received, hs]
  | drop =>
    rcases side.eq_or_other s with rfl | rfl
    · simp [Event.accepted, Event.received, Channel.close, hother.symm]
    · simp [Event.accepted, Event.received, Channel.leave]
  | read hread =>
    rcases side.eq_or_other s with rfl | rfl
    · cases hread with
      | nothing | received | ended | blocked => simp [Event.accepted, Event.received, hother.symm]
    · cases hread with
      | nothing | received | ended | blocked => simp [Event.accepted, Event.received, side.other_other]
  | @write _ _ _ r _ hwrite =>
    by_cases hs : s = side
    · subst hs
      cases r with
      | pending =>
        simp only [Pipe.view] at hwrite
        cases hwrite with
        | full => simp [Event.accepted, Event.received]
      | ready r =>
        cases r with
        | error =>
          simp only [Pipe.view] at hwrite
          cases hwrite with
          | refused => simp [Event.accepted, Event.received]
        | ok =>
          simp only [Pipe.view] at hwrite
          cases hwrite with
          | nothing | accepted => simp [Event.accepted, Event.received]
    · cases r with
      | pending => simp [Event.accepted, Event.received, hs]
      | ready r =>
        cases r with
        | error => simp [Event.accepted, Event.received, hs]
        | ok => simp [Event.accepted, Event.received, hs, Ne.symm hs]

theorem Called.snoc (h : Called side op events) (e : Event) : Called side op (events ++ [e]) := by
  obtain ⟨x, hx, hside, hop⟩ := h
  exact ⟨x, mem_append_left _ hx, hside, hop⟩

theorem called_last (side : Side) (op : Op) (outcome : Outcome) (events : List Event) :
    Called side op (events ++ [⟨side, op, outcome⟩]) := ⟨_, mem_append_right _ (mem_singleton_self _), rfl, rfl⟩

theorem Channels.Step.conserved (h : c.Step target side op outcome c') (hc : ∀ s, (c s).Conserved) (s : Side) :
    (c' s).Conserved := by
  have hupdate : ∀ {c : Channels} {t : Side} {ch : Channel UInt8}, (∀ s, (c s).Conserved) → ch.Conserved →
      ∀ s, (update c t ch s).Conserved := by
    intro c t ch hall hch s
    by_cases hs : s = t
    · subst hs
      simpa using hch
    · simpa [hs] using hall s
  cases h with
  | readLater | writeLater => exact hc s
  | read hread => exact hupdate hc ((hc _).read hread) s
  | write hwrite => exact hupdate hc ((hc _).write hwrite) s
  | shutdown => exact hupdate hc (hc _).close s
  | drop => exact hupdate (hupdate hc (hc _).close) (Channel.conserved_leave _) s

theorem Channels.Step.flags (h : c.Step target side op outcome c') (s : Side) :
    ((c' s).closed = true → (c s).closed = true ∨ (s = side ∧ (op = .shutdown ∨ op = .drop))) ∧
      ((c' s).gone = ((c s).gone || decide (op = .drop ∧ s = side.other))) := by
  have hother := side.other_ne
  cases h with
  | readLater | writeLater => exact ⟨.inl, by simp⟩
  | read hread =>
    obtain ⟨h1, h2, -⟩ := hread.frame
    by_cases hs : s = side.other
    · subst hs
      simp [h1, h2]
    · simp [hs]
  | write hwrite =>
    obtain ⟨h1, h2, -⟩ := hwrite.frame
    by_cases hs : s = side
    · subst hs
      simp [h1, h2]
    · simp [hs]
  | shutdown =>
    by_cases hs : s = side
    · subst hs
      simp [Channel.close]
    · simp [hs]
  | drop =>
    rcases side.eq_or_other s with rfl | rfl
    · simp [Channel.close, hother.symm]
    · simp [Channel.leave]
      exact .inl

theorem step_alive (h : d.step side op = some (outcome, d')) (s : Side) :
    d'.alive s = (d.alive s && !decide (op = .drop ∧ s = side)) := by
  cases op with
  | read proceed =>
    cases proceed with
    | false => cases h; simp
    | true =>
      obtain ⟨_, -, hr⟩ := bind_eq_some_iff.1 h
      cases hr
      simp [Duplex.setPipe]
  | write proceed =>
    cases proceed with
    | false | true => cases h; simp [Duplex.setPipe]
  | shutdown => cases h; simp [Duplex.setPipe]
  | drop =>
    cases h
    by_cases hs : s = side
    · subst hs
      simp
    · simp [hs, Duplex.setPipe]

theorem Ledger.step (h : Ledger events d c) (hstep : d.step side op = some (outcome, d')) :
    ∃ c', c.Step (d.target side op.now) side op outcome c' ∧ Ledger (events ++ [⟨side, op, outcome⟩]) d' c' := by
  obtain ⟨_, _, c', heq, hc, hrefines⟩ := Duplex.step_refines h.refines side op
  obtain ⟨rfl, rfl⟩ := Prod.mk.inj (some.inj (heq.symm.trans hstep))
  refine ⟨c', hc, ⟨hrefines, hc.conserved h.conserved, fun s => ?_, fun s => ?_, fun s hclosed => ?_, fun s => ?_,
    fun s hdead => ?_⟩⟩
  · rw [(hc.logs s).1, accepted_snoc, h.accepted]
  · rw [(hc.logs s).2, received_snoc, h.received]
  · rcases (hc.flags s).1 hclosed with hbefore | ⟨rfl, rfl | rfl⟩
    · refine (h.closed s hbefore).imp (fun hdead => ?_) (fun hcalled => hcalled.snoc _)
      rw [step_alive hstep, hdead]
      rfl
    · exact .inr (called_last s .shutdown _ _)
    · left
      rw [step_alive hstep]
      simp
  · rw [(hc.flags s).2, h.gone, step_alive hstep]
    have hiff : s.other = side ↔ s = side.other := by
      constructor
      · rintro rfl
        exact s.other_other.symm
      · rintro rfl
        exact side.other_other
    simp [hiff]
  · rw [step_alive hstep] at hdead
    by_cases halive : d.alive s = false
    · exact (h.dropped s halive).snoc _
    · obtain ⟨rfl, rfl⟩ : op = .drop ∧ s = side := by simpa [halive] using hdead
      exact called_last s .drop _ _

theorem Reachable.ledger (h : Reachable initial start events d) : ∃ c, Ledger events d c := by
  induction h with
  | new h =>
    unfold Duplex.withCapacity at h
    split_ifs at h
    cases h
    exact ⟨fun _ => .empty, fun _ => Pipe.new_refines initial start, fun _ => Channel.conserved_empty, fun _ => rfl,
      fun _ => rfl, fun _ h => (by cases h), fun _ => rfl, fun _ h => (by cases h)⟩
  | step _ _ _ _ hstep ih =>
    obtain ⟨_, hc⟩ := ih
    obtain ⟨c', -, hc'⟩ := hc.step hstep
    exact ⟨c', hc'⟩

/-! ## The consequences -/

def Fair (events : List Event) (d : Duplex) (side : Side) : Op → Outcome → Duplex → Prop
  | .read true remaining _, .read r, d' =>
    (r = .ready [] → 0 < remaining →
      (d.pipes side.other).writerClosed = true ∧ received side events = accepted side.other events) ∧
    d'.pipes side = d.pipes side
  | .write true data now _, .wrote r, d' =>
    (data ≠ [] → (d.pipes side).bytes < d.target side now →
      (∃ n, 0 < n ∧ r = .ready (.ok n)) ∨ ∃ e, r = .ready (.error e)) ∧
    (∀ n, r = .ready (.ok n) → 0 < n → (d.pipes side).bytes + n ≤ d.target side now) ∧
    (∀ e, r = .ready (.error e) → Called side .shutdown events ∨ Called side.other .drop events) ∧
    d'.pipes side.other = d.pipes side.other
  | .shutdown, _, d' => (d'.pipes side).buffered = (d.pipes side).buffered ∧ d'.pipes side.other = d.pipes side.other
  | .drop, _, d' => (d'.pipes side).buffered = (d.pipes side).buffered
  | .read false _ _, outcome, d' => outcome = .read .pending ∧ d' = d
  | .write false _ _ _, outcome, d' => outcome = .wrote .pending ∧ d' = d
  | _, _, _ => False

theorem Ledger.fair_read (h : Ledger events d c) (halive : d.alive side = true) {remaining now : Nat}
    (hstep : d.step side (.read true remaining now) = some (outcome, d')) :
    Fair events d side (.read true remaining now) outcome d' := by
  obtain ⟨_, hc, -⟩ := h.step hstep
  obtain ⟨⟨r, _⟩, -, hr⟩ := bind_eq_some_iff.1 hstep
  cases hr
  cases hc with
  | read hread =>
    refine ⟨?_, by simp [Duplex.setPipe, side.other_ne.symm]⟩
    rintro rfl hpos
    have hend : (c side.other).queue = [] ∧ (c side.other).closed = true := by
      generalize hr : (Poll.ready [] : Poll Bytes) = r at hread
      cases hread with
      | nothing => omega
      | blocked => cases hr
      | ended _ hqueue hclosed => exact ⟨hqueue, hclosed⟩
      | received _ hqueue =>
        have hlen := congrArg List.length (Poll.ready.inj hr)
        have := length_pos_of_ne_nil hqueue
        rw [length_nil, length_take] at hlen
        omega
    have hgone : (c side.other).gone = false := by
      rw [h.gone, side.other_other, halive]
      rfl
    have hexact := h.conserved side.other hgone
    rw [hend.1, append_nil, h.received, h.accepted, side.other_other] at hexact
    exact ⟨(h.refines side.other).closed.symm.trans hend.2, hexact⟩

theorem Ledger.fair_write (h : Ledger events d c) (halive : d.alive side = true) {data : Bytes} {now allocated : Nat}
    (hstep : d.step side (.write true data now allocated) = some (outcome, d')) :
    Fair events d side (.write true data now allocated) outcome d' := by
  obtain ⟨_, hc, -⟩ := h.step hstep
  cases hstep
  cases hc with
  | write hwrite =>
    have hbytes : (d.pipes side).bytes = (c side).queue.length := by
      rw [(h.refines side).sound.bytes, (h.refines side).queue]
    generalize ((d.pipes side).writeInner data now allocated).1 = r at hwrite ⊢
    generalize hv : Pipe.view r = v at hwrite
    refine ⟨fun hdata hlt => ?_, fun n hr hpos => ?_, fun e hr => ?_, by simp [Duplex.setPipe, side.other_ne]⟩
    · cases hwrite with
      | nothing hnil => exact absurd hnil hdata
      | full _ _ _ hfull => exact absurd hfull (by rw [← hbytes]; exact not_le.2 hlt)
      | refused =>
        match r, hv with
        | .ready (.error e), _ => exact .inr ⟨e, rfl⟩
      | accepted n hpos =>
        match r, hv with
        | .ready (.ok n), hv => cases hv; exact .inl ⟨n, hpos, rfl⟩
    · subst hr
      cases hv
      cases hwrite with
      | nothing => exact absurd hpos (lt_irrefl 0)
      | accepted => rwa [hbytes]
    · subst hr
      cases hv
      cases hwrite with
      | refused _ hclosed =>
        rcases hclosed with hclosed | hgone
        · exact .inl ((h.closed side hclosed).resolve_left (by simp [halive]))
        · rw [h.gone] at hgone
          exact .inr (h.dropped side.other (by simpa using hgone))

theorem Ledger.fair (h : Ledger events d c) (halive : d.alive side = true)
    (hstep : d.step side op = some (outcome, d')) : Fair events d side op outcome d' := by
  cases op with
  | read proceed =>
    cases proceed with
    | false => cases hstep; exact ⟨rfl, rfl⟩
    | true => exact h.fair_read halive hstep
  | write proceed =>
    cases proceed with
    | false => cases hstep; exact ⟨rfl, rfl⟩
    | true => exact h.fair_write halive hstep
  | shutdown =>
    cases hstep
    simp [Fair, Duplex.setPipe, side.other_ne, Pipe.close, Pipe.buffered]
  | drop =>
    cases hstep
    simp [Fair, Duplex.setPipe, side.other_ne.symm, Pipe.close, Pipe.buffered]

/-- **A buffered stream is two bounded channels.** After any calls, each direction is a channel that holds what its
writer gave and its reader got; while the reader lives, the bytes read and the bytes buffered are the bytes accepted;
the counters describe them. Every further call goes through, is a call on the channels, and is `Fair`. -/
theorem duplex_refines_channels (h : Reachable initial start events d) :
    (∃ c : Channels, (∀ side, (d.pipes side).Refines (c side) ∧ (c side).Conserved ∧
        (c side).accepted = accepted side events ∧ (c side).received = received side.other events) ∧
      ∀ side op, ∃ outcome d' c', d.step side op = some (outcome, d') ∧
        c.Step (d.target side op.now) side op outcome c' ∧ d'.Refines c') ∧ (∀ side, (d.alive side.other = true →
        received side.other events ++ (d.pipes side).buffered = accepted side events) ∧
      (d.pipes side).bytes = (d.pipes side).buffered.length ∧
      ∀ chunk ∈ (d.pipes side).chunks.head?, (d.pipes side).offset < chunk.data.length) ∧
    ∀ side op outcome d', d.alive side = true → d.step side op = some (outcome, d') →
      Fair events d side op outcome d' := by
  obtain ⟨c, hc⟩ := h.ledger
  refine ⟨⟨c, fun side => ⟨hc.refines side, hc.conserved side, hc.accepted side, hc.received side⟩,
    Duplex.step_refines hc.refines⟩, fun side => ⟨fun halive => ?_, (hc.refines side).sound.bytes,
    (hc.refines side).sound.offset⟩, fun side op outcome d' halive hstep => hc.fair halive hstep⟩
  have hgone : (c side).gone = false := by
    rw [hc.gone, halive]
    rfl
  rw [← hc.received, ← hc.accepted, ← (hc.refines side).queue]
  exact hc.conserved side hgone

theorem duplex_refines_channels_partly : ∃ events d, Reachable 2 0 events d ∧ received .right events = [7] ∧
    accepted .left events = [7, 8] ∧ (d.pipes .left).buffered = [8] := by
  have h0 : Reachable 2 0 [] ⟨fun _ => .new 2 0, fun _ => true⟩ := .new rfl
  have h1 := h0.step .left (.write true [7, 8, 9] 0 chunkSize) rfl rfl
  have h2 := h1.step .right (.read true 1 0) rfl rfl
  have hexact := ((duplex_refines_channels h2).2.1 .left).1 rfl
  exact ⟨_, _, h2, rfl, rfl, append_cancel_left hexact⟩

end Runs

end Kotoconn.Protocol.StreamBuffer
