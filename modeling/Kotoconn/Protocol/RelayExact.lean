import Kotoconn.Protocol.RelayCalls

/-! # The relay is exact -/

namespace Kotoconn.Protocol
open Lib List

/-! ## Traces -/

/-- What a call on a stream did: `read []` is the end; `shutdown` tells whether it was completed. -/
inductive StreamEvent where
  | read (data : Bytes)
  | accepted (data : Bytes)
  | shutdown (ok : Bool)
  | credited (n : Nat)
  deriving DecidableEq

abbrev Trace (ι : Type) := List (ι × StreamEvent)

variable {ω ι : Type}

section Totals
variable [DecidableEq ι] (i : ι)

def readOf : ι × StreamEvent → Bytes
  | (j, .read data) => if j = i then data else []
  | (_, .accepted _) | (_, .shutdown _) | (_, .credited _) => []

def acceptedOf : ι × StreamEvent → Bytes
  | (j, .accepted data) => if j = i then data else []
  | (_, .read _) | (_, .shutdown _) | (_, .credited _) => []

def creditOf : ι × StreamEvent → Nat
  | (j, .credited n) => if j = i then n else 0
  | (_, .read _) | (_, .accepted _) | (_, .shutdown _) => 0

/-- The bytes read from stream `i`. -/
def obtained (t : Trace ι) : Bytes := t.flatMap (readOf i)

/-- The bytes that stream `i` accepted. -/
def accepted (t : Trace ι) : Bytes := t.flatMap (acceptedOf i)

/-- The credit that stream `i` got back. -/
def credited (t : Trace ι) : Nat := (t.map (creditOf i)).sum

def Ended (t : Trace ι) : Prop := (i, .read []) ∈ t

@[simp] theorem obtained_nil : obtained i [] = [] := rfl
@[simp] theorem accepted_nil : accepted i [] = [] := rfl
@[simp] theorem credited_nil : credited i [] = 0 := rfl

@[simp] theorem obtained_cons (e : ι × StreamEvent) (t : Trace ι) : obtained i (e :: t) = readOf i e ++ obtained i t := rfl

@[simp] theorem accepted_cons (e : ι × StreamEvent) (t : Trace ι) :
    accepted i (e :: t) = acceptedOf i e ++ accepted i t := rfl

@[simp] theorem credited_cons (e : ι × StreamEvent) (t : Trace ι) : credited i (e :: t) = creditOf i e + credited i t := rfl

@[simp] theorem obtained_append (t u : Trace ι) : obtained i (t ++ u) = obtained i t ++ obtained i u :=
  flatMap_append

@[simp] theorem accepted_append (t u : Trace ι) : accepted i (t ++ u) = accepted i t ++ accepted i u :=
  flatMap_append

@[simp] theorem credited_append (t u : Trace ι) : credited i (t ++ u) = credited i t + credited i u := by
  simp [credited]

end Totals

structure Logged (ω ι : Type) where
  world : ω
  trace : Trace ι

def Logged.note (x : Logged ω ι) (world : ω) (events : Trace ι) : Logged ω ι := ⟨world, x.trace ++ events⟩

namespace Stream

def readEvents (i : ι) : Poll (Except ErrorKind Bytes) → Trace ι
  | .ready (.ok data) => [(i, .read data)]
  | _ => []

def writeEvents (i : ι) (chunk : Bytes) : Poll (Except ErrorKind Nat) → Trace ι
  | .ready (.ok n) => [(i, .accepted (chunk.take n))]
  | _ => []

def shutdownEvents (i : ι) : Poll (Except ErrorKind Unit) → Trace ι
  | .ready (.ok ()) => [(i, .shutdown true)]
  | _ => [(i, .shutdown false)]

/-- The stream `s`, with its calls written down as those of `i`. -/
def logged (i : ι) (s : Stream ω) : Stream (Logged ω ι) where
  pollRead x n := ((s.pollRead x.world n).1, x.note (s.pollRead x.world n).2 (readEvents i (s.pollRead x.world n).1))
  pollReadChunk x :=
    ((s.pollReadChunk x.world).1, x.note (s.pollReadChunk x.world).2 (readEvents i (s.pollReadChunk x.world).1))
  pollWriteChunk x chunk :=
    ((s.pollWriteChunk x.world chunk).1, (s.pollWriteChunk x.world chunk).2.1,
      x.note (s.pollWriteChunk x.world chunk).2.2 (writeEvents i chunk (s.pollWriteChunk x.world chunk).1))
  pollFlush x := ((s.pollFlush x.world).1, x.note (s.pollFlush x.world).2 [])
  pollShutdown x :=
    ((s.pollShutdown x.world).1, x.note (s.pollShutdown x.world).2 (shutdownEvents i (s.pollShutdown x.world).1))
  consumeChunk x n := x.note (s.consumeChunk x.world n) [(i, .credited n)]

variable {i : ι} {s : Stream ω} {x x' : Logged ω ι}

theorem Lawful.logged (h : s.Lawful) (i : ι) : (s.logged i).Lawful :=
  ⟨fun x => h.read x.world, fun x => h.written x.world, fun x => h.pending x.world⟩

theorem Lawful.lift (h : s.Lawful) (α : Type) : (s.lift α).Lawful :=
  ⟨fun x => h.read x.1, fun x => h.written x.1, fun x => h.pending x.1⟩

theorem Lawful.prefixed (h : s.Lawful) : s.prefixed.Lawful where
  read x n data hread := by
    simp only [Stream.prefixed] at hread
    split_ifs at hread with hbytes
    · simp only [Poll.ready.injEq, Except.ok.injEq] at hread
      rw [← hread, length_take]
      omega
    · exact h.read x.1 n data hread
  written x := h.written x.1
  pending x := h.pending x.1

theorem logged_read {r : Poll (Except ErrorKind Bytes)} (h : (s.logged i).pollReadChunk x = (r, x')) :
    x'.trace = x.trace ++ readEvents i r := by
  obtain ⟨rfl, rfl⟩ := Prod.mk.inj h
  rfl

theorem logged_write {chunk rest : Bytes} {r : Poll (Except ErrorKind Nat)}
    (h : (s.logged i).pollWriteChunk x chunk = (r, rest, x')) : x'.trace = x.trace ++ writeEvents i chunk r := by
  obtain ⟨rfl, hrest⟩ := Prod.mk.inj h
  obtain ⟨rfl, rfl⟩ := Prod.mk.inj hrest
  rfl

theorem logged_flush {r : Poll (Except ErrorKind Unit)} (h : (s.logged i).pollFlush x = (r, x')) :
    x'.trace = x.trace ++ [] := by
  obtain ⟨rfl, rfl⟩ := Prod.mk.inj h
  rfl

theorem logged_shutdown {r : Poll (Except ErrorKind Unit)} (h : (s.logged i).pollShutdown x = (r, x')) :
    x'.trace = x.trace ++ shutdownEvents i r := by
  obtain ⟨rfl, rfl⟩ := Prod.mk.inj h
  rfl

end Stream

/-! ## What a call writes down -/

/-- The events of a call of the direction from `reader` to `writer`. -/
inductive Adds (reader writer : ι) (d : Direction) : Option ErrorKind → Trace ι → Direction → Prop
  | quiet {e : Option ErrorKind} : Adds reader writer d e [] d
  | read (chunk : Bytes) (hbytes : d.bytes = []) (heof : d.eof = false) :
      Adds reader writer d none [(reader, .read chunk)] { d with bytes := chunk, eof := chunk.isEmpty }
  | shutdown (heof : d.eof = true) :
      Adds reader writer d none [(writer, .shutdown true)] { d with done := true }
  | unfinished {e : Option ErrorKind} (heof : d.eof = true) : Adds reader writer d e [(writer, .shutdown false)] d
  | write (n : Nat) (heof : d.eof = false) (hle : n ≤ d.bytes.length) :
      Adds reader writer d none [(writer, .accepted (d.bytes.take n)), (reader, .credited n)]
        { d with bytes := d.bytes.drop n, transferred := d.transferred + n }
  | failed (bytes : Bytes) {e : ErrorKind} {events : Trace ι} (hevents : ∀ ev ∈ events, ev = (writer, .accepted [])) :
      Adds reader writer d (some e) events { d with bytes := bytes }

variable {e : Option ErrorKind} {reader writer : Stream ω}

variable {d d' : Direction}

theorem Direction.Call.adds {i j : ι} {x x' : Logged ω ι} (h : Call (reader.logged i) (writer.logged j) d x e d' x') :
    ∃ events, x'.trace = x.trace ++ events ∧ Adds i j d e events d' := by
  cases h with
  | read hbytes heof _ h => exact ⟨_, Stream.logged_read h, .read _ hbytes heof⟩
  | readPending _ h => exact ⟨_, Stream.logged_read h, .quiet⟩
  | readFailed _ h => exact ⟨_, Stream.logged_read h, .quiet⟩
  | flush h => exact ⟨_, Stream.logged_flush h, .quiet⟩
  | flushFailed h => exact ⟨_, Stream.logged_flush h, .quiet⟩
  | shutdown heof _ h => exact ⟨_, Stream.logged_shutdown h, .shutdown heof⟩
  | shutdownPending heof _ h => exact ⟨_, Stream.logged_shutdown h, .unfinished heof⟩
  | shutdownFailed heof _ h => exact ⟨_, Stream.logged_shutdown h, .unfinished heof⟩
  | write heof _ hle h =>
    refine ⟨_, ?_, .write _ heof hle⟩
    change _ ++ _ = _
    rw [Stream.logged_write h, append_assoc]
    rfl
  | writePending h => exact ⟨_, Stream.logged_write h, .quiet⟩
  | writeZero h => exact ⟨_, Stream.logged_write h, .failed _ (by simp [Stream.writeEvents])⟩
  | writeFailed h => exact ⟨_, Stream.logged_write h, .failed _ (by simp [Stream.writeEvents])⟩

/-! ## Exactness -/

section Exact
variable [DecidableEq ι] {reader writer : ι} {d d' : Direction} {t events : Trace ι}

def Ordered (reader writer : ι) (t : Trace ι) : Prop :=
  ∀ before ok, before ++ [(writer, .shutdown ok)] <+: t →
    Ended reader before ∧ accepted writer before = obtained reader before

structure Exact (reader writer : ι) (d : Direction) (t : Trace ι) : Prop where
  bytes : accepted writer t ++ d.bytes = obtained reader t
  credited : credited reader t = (accepted writer t).length
  transferred : d.transferred = (accepted writer t).length
  eof : d.eof = true ↔ Ended reader t
  empty : d.eof = true → d.bytes = []
  done : d.done = true ↔ (writer, .shutdown true) ∈ t
  ordered : Ordered reader writer t

theorem exact_new : Exact reader writer .new ([] : Trace ι) := by
  refine ⟨rfl, rfl, rfl, by simp [Ended, Direction.new], nofun, by simp [Direction.new], fun before ok h => ?_⟩
  simp at h

theorem Ordered.snoc (h : Ordered reader writer t) {e : ι × StreamEvent}
    (he : ∀ ok, e = (writer, .shutdown ok) → Ended reader t ∧ accepted writer t = obtained reader t) :
    Ordered reader writer (t ++ [e]) := by
  intro before ok hhead
  rcases prefix_concat_iff.1 hhead with heq | hhead
  · obtain ⟨rfl, hlast⟩ := append_inj' heq rfl
    exact he ok (singleton_inj.1 hlast).symm
  · exact h before ok hhead

theorem Ordered.append (h : Ordered reader writer t) (hev : ∀ ok, (writer, .shutdown ok) ∉ events) :
    Ordered reader writer (t ++ events) := by
  induction events generalizing t with
  | nil => rwa [append_nil]
  | cons _ _ ih =>
    rw [← singleton_append, ← append_assoc]
    refine ih (h.snoc fun ok he => ?_) fun ok hmem => hev ok (mem_cons_of_mem _ hmem)
    exact absurd (mem_cons.2 (.inl he.symm)) (hev ok)

theorem Adds.foreign (h : Adds writer reader d e events d') (hne : reader ≠ writer) :
    obtained reader events = [] ∧ accepted writer events = [] ∧ Protocol.credited reader events = 0 ∧
      (∀ data, (reader, .read data) ∉ events) ∧ ∀ ok, (writer, .shutdown ok) ∉ events := by
  have hne' := hne.symm
  cases h with
  | quiet => simp
  | read | shutdown | unfinished | write => simp [readOf, acceptedOf, creditOf, hne, hne']
  | failed _ hevents =>
    refine ⟨?_, ?_, ?_, fun data hmem => absurd (hevents _ hmem) (by simp), fun ok hmem =>
      absurd (hevents _ hmem) (by simp)⟩
    · exact flatMap_eq_nil_iff.2 fun ev hev => by rw [hevents ev hev]; rfl
    · exact flatMap_eq_nil_iff.2 fun ev hev => by rw [hevents ev hev]; simp [acceptedOf]
    · exact sum_eq_zero fun n hn => by
        obtain ⟨ev, hev, rfl⟩ := List.mem_map.1 hn
        rw [hevents ev hev]
        rfl

theorem Exact.other (h : Exact reader writer d t) {other other' : Direction}
    (hadds : Adds writer reader other e events other') (hne : reader ≠ writer) :
    Exact reader writer d (t ++ events) := by
  obtain ⟨h1, h2, h3, h4, h5⟩ := hadds.foreign hne
  constructor
  case bytes => rw [accepted_append, obtained_append, h1, h2, append_nil, append_nil, h.bytes]
  case credited => rw [credited_append, accepted_append, h2, h3, append_nil, add_zero, h.credited]
  case transferred => rw [accepted_append, h2, append_nil, h.transferred]
  case eof =>
    rw [h.eof]
    simp [Ended, h4]
  case empty => exact h.empty
  case done =>
    rw [h.done]
    simp [h5]
  case ordered => exact h.ordered.append h5

theorem Exact.adds (h : Exact reader writer d t) (hadds : Adds reader writer d none events d') (hne : reader ≠ writer) :
    Exact reader writer d' (t ++ events) := by
  have hne' := hne.symm
  have hbytes := h.bytes
  have hcredited := h.credited
  have htransferred := h.transferred
  generalize hlabel : (none : Option ErrorKind) = e at hadds
  cases hadds with
  | failed => cases hlabel
  | quiet => rwa [append_nil]
  | read _ hempty heof =>
    have hend : ¬ Ended reader t := fun hend => by simp [h.eof.2 hend] at heof
    rw [hempty, append_nil] at hbytes
    refine ⟨by simp [readOf, acceptedOf, hbytes], by simp [acceptedOf, creditOf, hcredited],
      by simp [acceptedOf, htransferred], ?_, by simp, by simp [h.done], h.ordered.append (by simp)⟩
    simp [Ended] at hend ⊢
    simp [hend]
  | shutdown heof =>
    have hall : accepted writer t = obtained reader t := by rw [← hbytes, h.empty heof, append_nil]
    exact ⟨by simp [readOf, acceptedOf, hbytes], by simp [acceptedOf, creditOf, hcredited],
      by simp [acceptedOf, htransferred], by rw [h.eof]; simp [Ended], h.empty, by simp,
      h.ordered.snoc fun _ _ => ⟨h.eof.1 heof, hall⟩⟩
  | unfinished heof =>
    have hall : accepted writer t = obtained reader t := by rw [← hbytes, h.empty heof, append_nil]
    exact ⟨by simp [readOf, acceptedOf, hbytes], by simp [acceptedOf, creditOf, hcredited],
      by simp [acceptedOf, htransferred], by rw [h.eof]; simp [Ended], h.empty, by rw [h.done]; simp,
      h.ordered.snoc fun _ _ => ⟨h.eof.1 heof, hall⟩⟩
  | write _ heof hle =>
    refine ⟨?_, ?_, ?_, ?_, fun hend => absurd hend (by simp [heof]), ?_, h.ordered.append (by simp)⟩
    · simp [readOf, acceptedOf, ← hbytes]
    · simp [acceptedOf, creditOf, hcredited, hle]
    · simp [acceptedOf, htransferred, hle]
    · rw [h.eof]
      simp [Ended]
    · rw [h.done]
      simp

end Exact

/-! ## Replayed bytes -/

theorem Stream.prefixed_read {inner : Stream ω} {i : ι} {x x' : Logged ω ι × Prefix}
    {r : Poll (Except ErrorKind Bytes)} (h : (inner.logged i).prefixed.pollReadChunk x = (r, x')) :
    (x.2.bytes ≠ [] ∧ r = .ready (.ok x.2.bytes) ∧ x' = (x.1, ⟨[], true⟩)) ∨
      (x.2.bytes = [] ∧ x'.2 = ⟨[], false⟩ ∧ x'.1.trace = x.1.trace ++ readEvents i r) := by
  simp only [Stream.prefixed] at h
  split_ifs at h with hbytes
  · obtain ⟨rfl, rfl⟩ := Prod.mk.inj h
    exact .inl ⟨hbytes, rfl, rfl⟩
  · obtain ⟨rfl, rfl⟩ := Prod.mk.inj h
    exact .inr ⟨not_not.1 hbytes, by simp [not_not.1 hbytes], rfl⟩

variable {s : Stream ω} {α : Type}

theorem Stream.lift_write {x x' : ω × α} {chunk rest : Bytes}
    {r : Poll (Except ErrorKind Nat)} (h : (s.lift α).pollWriteChunk x chunk = (r, rest, x')) :
    s.pollWriteChunk x.1 chunk = (r, rest, x'.1) ∧ x'.2 = x.2 := by
  obtain ⟨rfl, hrest⟩ := Prod.mk.inj h
  obtain ⟨rfl, rfl⟩ := Prod.mk.inj hrest
  exact ⟨rfl, rfl⟩

theorem Stream.lift_shutdown {x x' : ω × α} {r : Poll (Except ErrorKind Unit)}
    (h : (s.lift α).pollShutdown x = (r, x')) : s.pollShutdown x.1 = (r, x'.1) ∧ x'.2 = x.2 := by
  obtain ⟨rfl, rfl⟩ := Prod.mk.inj h
  exact ⟨rfl, rfl⟩

theorem Stream.lift_flush {x x' : ω × α} {r : Poll (Except ErrorKind Unit)}
    (h : (s.lift α).pollFlush x = (r, x')) : s.pollFlush x.1 = (r, x'.1) ∧ x'.2 = x.2 := by
  obtain ⟨rfl, rfl⟩ := Prod.mk.inj h
  exact ⟨rfl, rfl⟩

theorem Stream.lift_read {x x' : ω × α} {r : Poll (Except ErrorKind Bytes)}
    (h : (s.lift α).pollReadChunk x = (r, x')) : s.pollReadChunk x.1 = (r, x'.1) ∧ x'.2 = x.2 := by
  obtain ⟨rfl, rfl⟩ := Prod.mk.inj h
  exact ⟨rfl, rfl⟩

theorem Direction.Call.unwrap {x x' : ω × Prefix}
    (h : Call (reader.lift Prefix) writer.prefixed d x e d' x') : Call reader writer d x.1 e d' x'.1 ∧ x'.2 = x.2 := by
  cases h with
  | read hbytes heof hdone h => exact (Stream.lift_read h).imp_left (.read hbytes heof hdone)
  | readPending hbytes h => exact (Stream.lift_read h).imp_left (.readPending hbytes)
  | readFailed hbytes h => exact (Stream.lift_read h).imp_left (.readFailed hbytes)
  | flush h hr => exact (Stream.lift_flush h).imp_left fun h => .flush h hr
  | flushFailed h => exact (Stream.lift_flush h).imp_left .flushFailed
  | shutdown heof hdone h => exact (Stream.lift_shutdown h).imp_left (.shutdown heof hdone)
  | shutdownPending heof hdone h => exact (Stream.lift_shutdown h).imp_left (.shutdownPending heof hdone)
  | shutdownFailed heof hdone h => exact (Stream.lift_shutdown h).imp_left (.shutdownFailed heof hdone)
  | write heof hpos hle h => exact (Stream.lift_write h).imp_left (.write heof hpos hle)
  | writePending h => exact (Stream.lift_write h).imp_left .writePending
  | writeZero h => exact (Stream.lift_write h).imp_left .writeZero
  | writeFailed h => exact (Stream.lift_write h).imp_left .writeFailed

section Replay
variable [DecidableEq ι] {i j : ι} {pre : Bytes} {d d' : Direction} {t events : Trace ι} {p : Prefix}

/-- How far a direction from a stream `i` behind the bytes `pre` to the stream `j` is. -/
inductive Replay (i j : ι) (pre : Bytes) (d : Direction) (t : Trace ι) (p : Prefix) : Prop
  | waiting (hp : p = ⟨pre, false⟩) (hpre : pre ≠ []) (hbytes : d.bytes = [] ∧ d.eof = false) (hread : obtained i t = [])
      (haccepted : accepted j t = []) (hcredited : credited i t = 0)
  | replayed (hp : p = ⟨[], true⟩) (hread : obtained i t = []) (haccepted : accepted j t ++ d.bytes = pre)
      (hcredited : credited i t = 0)
  | own (hp : p = ⟨[], false⟩) (haccepted : accepted j t ++ d.bytes = pre ++ obtained i t)
      (hcredited : credited i t + pre.length = (accepted j t).length)

theorem replay_new (pre : Bytes) : Replay i j pre .new [] (.new pre) := by
  by_cases hpre : pre = []
  · subst hpre
    exact .own rfl rfl rfl
  · exact .waiting rfl hpre ⟨rfl, rfl⟩ rfl rfl rfl

variable (h : Replay i j pre d t p)
include h

theorem Replay.exact : accepted j t ++ d.bytes ++ p.bytes = pre ++ obtained i t ∧
    credited i t = (accepted j t).length - pre.length := by
  cases h with
  | waiting hp _ hbytes hread haccepted hcredited =>
    simp [hp, hbytes.1, hread, haccepted, hcredited]
  | replayed hp hread haccepted =>
    refine ⟨by simp [hp, hread, haccepted], ?_⟩
    have hlen := congrArg List.length haccepted
    rw [length_append] at hlen
    omega
  | own hp haccepted => exact ⟨by simp [hp, haccepted], by omega⟩

theorem Replay.of_bytes (hsame : d'.bytes = d.bytes) (heof : d'.eof = d.eof) :
    Replay i j pre d' t p := by
  cases h with
  | waiting hp h1 h2 h3 h4 h5 => exact .waiting hp h1 ⟨hsame.trans h2.1, heof.trans h2.2⟩ h3 h4 h5
  | replayed hp h1 h2 h3 => exact .replayed hp h1 (by rw [hsame, h2]) h3
  | own hp h1 h2 => exact .own hp (by rw [hsame, h1]) h2

theorem Replay.ended (heof : d.eof = true) : p.bytes = [] := by
  cases h with
  | waiting _ _ hbytes => simp [hbytes.2] at heof
  | replayed hp | own hp => rw [hp]

theorem Replay.append (hread : obtained i events = []) (haccepted : accepted j events = [])
    (hcredited : credited i events = 0) : Replay i j pre d (t ++ events) p := by
  cases h with
  | waiting hp h1 h2 h3 h4 h5 =>
    exact .waiting hp h1 h2 (by simp [h3, hread]) (by simp [h4, haccepted]) (by simp [h5, hcredited])
  | replayed hp h1 h2 h3 => exact .replayed hp (by simp [h1, hread]) (by simp [haccepted, h2]) (by simp [h3, hcredited])
  | own hp h1 h2 => exact .own hp (by simp [haccepted, hread, h1]) (by simp [haccepted, hcredited, h2])

theorem Replay.before_read (hempty : p.bytes = []) (hbytes : d.bytes = []) :
    accepted j t = pre ++ obtained i t ∧ credited i t + pre.length = (accepted j t).length := by
  cases h with
  | waiting hp hpre =>
    rw [hp] at hempty
    exact absurd hempty hpre
  | own _ haccepted hcredited =>
    rw [hbytes, append_nil] at haccepted
    exact ⟨haccepted, hcredited⟩
  | replayed _ hread haccepted hcredited =>
    rw [hbytes, append_nil] at haccepted
    exact ⟨by rw [hread, haccepted, append_nil], by rw [hcredited, haccepted, zero_add]⟩

omit h

variable {inner peer : Stream ω} {x x' : Logged ω ι × Prefix}

theorem Replay.upload (h : Replay i j pre d x.1.trace x.2) (hne : i ≠ j)
    (hcall : Direction.Call (inner.logged i).prefixed ((peer.logged j).lift Prefix) d x none d' x') :
    Replay i j pre d' x'.1.trace x'.2 := by
  have hne' := hne.symm
  generalize hlabel : (none : Option ErrorKind) = e at hcall
  cases hcall with
  | readFailed | flushFailed | shutdownFailed | writeZero | writeFailed => cases hlabel
  | @read _ _ hbytes _ _ hr =>
    rcases Stream.prefixed_read hr with ⟨hwait, hchunk, rfl⟩ | ⟨hempty, hp, htrace⟩
    · cases h with
      | replayed hp => rw [hp] at hwait; exact absurd rfl hwait
      | own hp => rw [hp] at hwait; exact absurd rfl hwait
      | waiting hp _ _ hread haccepted hcredited =>
        rw [hp] at hchunk
        cases hchunk
        exact .replayed rfl hread (by rw [haccepted]; rfl) hcredited
    · obtain ⟨haccepted, hcredited⟩ := h.before_read hempty hbytes
      refine .own hp ?_ ?_
      · simp [htrace, Stream.readEvents, readOf, acceptedOf, haccepted]
      · simp [htrace, Stream.readEvents, acceptedOf, creditOf, hcredited]
  | readPending hbytes hr =>
    rcases Stream.prefixed_read hr with ⟨_, hpending, _⟩ | ⟨hempty, hp, htrace⟩
    · cases hpending
    · obtain ⟨haccepted, hcredited⟩ := h.before_read hempty hbytes
      have htrace : x'.1.trace = x.1.trace := htrace.trans (append_nil _)
      exact .own hp (by rw [htrace, hbytes, append_nil, haccepted]) (by rw [htrace, hcredited])
  | flush hr =>
    obtain ⟨hr, hp⟩ := Stream.lift_flush hr
    rw [hp, Stream.logged_flush hr]
    exact h.append rfl rfl rfl
  | shutdown _ _ hr =>
    obtain ⟨hr, hp⟩ := Stream.lift_shutdown hr
    rw [hp, Stream.logged_shutdown hr]
    exact Replay.append (h.of_bytes rfl rfl) rfl rfl rfl
  | shutdownPending _ _ hr =>
    obtain ⟨hr, hp⟩ := Stream.lift_shutdown hr
    rw [hp, Stream.logged_shutdown hr]
    exact h.append rfl rfl rfl
  | writePending hr =>
    obtain ⟨hr, hp⟩ := Stream.lift_write hr
    rw [hp, Stream.logged_write hr]
    exact h.append rfl rfl rfl
  | @write _ _ _ _ hle hr =>
    obtain ⟨hr, hp⟩ := Stream.lift_write hr
    have htrace := Stream.logged_write hr
    simp only [Stream.writeEvents] at htrace
    simp only [Stream.prefixed]
    cases h with
    | waiting _ _ hbytes =>
      rw [hbytes.1, length_nil] at hle
      omega
    | replayed h1 hread haccepted hcredited =>
      rw [h1] at hp
      rw [if_pos (by rw [hp]), hp, htrace]
      exact .replayed rfl (by simp [readOf, hread]) (by simp [acceptedOf, haccepted])
        (by simp [creditOf, hcredited])
    | own h1 haccepted =>
      rw [h1] at hp
      rw [if_neg (by rw [hp]; exact Bool.false_ne_true)]
      refine .own hp ?_ ?_
      · simp [Stream.lift, Stream.logged, Logged.note, htrace, readOf, acceptedOf, haccepted]
      · simp [Stream.lift, Stream.logged, Logged.note, htrace, acceptedOf, creditOf]
        omega

theorem Replay.download {other other' : Direction} (h : Replay i j pre d x.1.trace x.2) (hne : i ≠ j)
    (hcall : Direction.Call ((peer.logged j).lift Prefix) (inner.logged i).prefixed other x none other' x') :
    Replay i j pre d x'.1.trace x'.2 := by
  obtain ⟨hcall, hp⟩ := hcall.unwrap
  obtain ⟨_, htrace, hadds⟩ := hcall.adds
  obtain ⟨h1, h2, h3, -⟩ := hadds.foreign hne
  rw [hp, htrace]
  exact h.append h1 h2 h3

end Replay

/-! ## Whole relays -/

inductive End where
  | a
  | b
  deriving DecidableEq

section Relay
variable {a b : Stream ω} {c c' : Copy} {x x' : Logged ω End} {w : ω}

structure Copy.Exact (c : Copy) (t : Trace End) : Prop where
  upload : Protocol.Exact .a .b c.upload t
  download : Protocol.Exact .b .a c.download t

theorem Copy.Exact.call (h : c.Exact x.trace) (hcall : Copy.Call (a.logged .a) (b.logged .b) c x none c' x') :
    c'.Exact x'.trace := by
  cases hcall with
  | upload hcall =>
    obtain ⟨events, htrace, hadds⟩ := hcall.adds
    rw [htrace]
    exact ⟨h.upload.adds hadds nofun, h.download.other hadds nofun⟩
  | download hcall =>
    obtain ⟨_, htrace, hadds⟩ := hcall.adds
    rw [htrace]
    exact ⟨h.upload.other hadds nofun, h.download.adds hadds nofun⟩

def Copy.Reached (a b : Stream ω) (w : ω) (c : Copy) (x : Logged ω End) : Prop :=
  Copy.Calls (a.logged .a) (b.logged .b) (Copy.new, ⟨w, []⟩) (c, x)

theorem Copy.Calls.exact {y z : Copy × Logged ω End} (h : Copy.Calls (a.logged .a) (b.logged .b) y z)
    (hy : y.1.Exact y.2.trace) : z.1.Exact z.2.trace := by
  induction h with
  | refl => exact hy
  | tail _ hcall ih => exact ih.call hcall

theorem Copy.Reached.exact (h : Copy.Reached a b w c x) : c.Exact x.trace := Copy.Calls.exact h ⟨exact_new, exact_new⟩

theorem Copy.Exact.ordered (h : c.Exact x.trace) (hcall : Copy.Call (a.logged .a) (b.logged .b) c x e c' x') :
    Ordered End.a .b x'.trace ∧ Ordered End.b .a x'.trace := by
  have hself : ∀ {i j : End} {d d' : Direction} {t events : Trace End}, Protocol.Exact i j d t → Adds i j d e events d' →
      Ordered i j (t ++ events) := by
    intro i j d d' t events hexact hadds
    cases hadds with
    | quiet => rw [append_nil]; exact hexact.ordered
    | read | write => exact hexact.ordered.append (by simp)
    | shutdown heof | unfinished heof =>
      refine hexact.ordered.snoc fun _ _ => ⟨hexact.eof.1 heof, ?_⟩
      rw [← hexact.bytes, hexact.empty heof, append_nil]
    | failed _ hevents =>
      exact hexact.ordered.append fun ok hmem => absurd (hevents _ hmem) (by simp)
  cases hcall with
  | upload hcall =>
    obtain ⟨events, htrace, hadds⟩ := hcall.adds
    rw [htrace]
    exact ⟨hself h.upload hadds, (h.download.other hadds nofun).ordered⟩
  | download hcall =>
    obtain ⟨_, htrace, hadds⟩ := hcall.adds
    rw [htrace]
    exact ⟨(h.upload.other hadds nofun).ordered, hself h.download hadds⟩

def Copy.Polls (a b : Stream ω) (w : ω) (x : Logged ω End) : Poll (Except ErrorKind (Nat × Nat)) →
    Copy → Logged ω End → Prop
  | .pending, c', x' => Copy.Reached a b w c' x'
  | .ready (.ok (n, m)), c', x' =>
    Copy.Reached a b w c' x' ∧ (End.b, .shutdown true) ∈ x'.trace ∧ (End.a, .shutdown true) ∈ x'.trace ∧
      n = (accepted End.b x'.trace).length ∧ m = (accepted End.a x'.trace).length ∧
      accepted End.b x'.trace = obtained End.a x'.trace ∧ accepted End.a x'.trace = obtained End.b x'.trace
  | .ready (.error _), _, x' =>
    x.trace <+: x'.trace ∧ Ordered End.a .b x'.trace ∧ Ordered End.b .a x'.trace

theorem Copy.Call.trace_grows (h : Copy.Call (a.logged .a) (b.logged .b) c x e c' x') : x.trace <+: x'.trace := by
  cases h with
  | upload hcall | download hcall =>
    obtain ⟨events, htrace, -⟩ := hcall.adds
    exact ⟨events, htrace.symm⟩

theorem Copy.Calls.trace_grows {y z : Copy × Logged ω End} (h : Copy.Calls (a.logged .a) (b.logged .b) y z) :
    y.2.trace <+: z.2.trace := by
  induction h with
  | refl => exact prefix_refl _
  | tail _ hcall ih => exact ih.trans hcall.trace_grows

theorem Copy.Reached.polls (h : Copy.Reached a b w c x) (ha : a.Lawful) (hb : b.Lawful) :
    ∃ r c' x', Copy.poll (a.logged .a) (b.logged .b) c x = some (r, c', x') ∧ Copy.Polls a b w x r c' x' := by
  obtain ⟨r, ⟨c', x'⟩, heq, hends⟩ := Copy.poll_ends (ha.logged End.a) (hb.logged End.b) c x
  refine ⟨r, c', x', heq, ?_⟩
  cases hends with
  | pending hcalls => exact h.trans hcalls
  | ok hcalls hup hdown =>
    have hreached : Copy.Reached a b w c' x' := h.trans hcalls
    have hexact := hreached.exact
    have hmoved : ∀ {i j : End} {d : Direction}, Protocol.Exact i j d x'.trace → d.done = true →
        accepted j x'.trace = obtained i x'.trace := by
      intro i j d hd hdone
      -- the shutdown that was completed followed the end
      obtain ⟨l, r, hsplit⟩ := append_of_mem (hd.done.1 hdone)
      have hended : Ended i x'.trace := by
        have hbefore := hd.ordered l true ⟨r, by rw [hsplit]; simp⟩
        rw [hsplit]
        exact mem_append_left _ hbefore.1
      rw [← hd.bytes, hd.empty (hd.eof.2 hended), append_nil]
    exact ⟨hreached, hexact.upload.done.1 hup, hexact.download.done.1 hdown, hexact.upload.transferred,
      hexact.download.transferred, hmoved hexact.upload hup, hmoved hexact.download hdown⟩
  | error hcalls hfail =>
    have hreached : Copy.Reached a b w _ _ := h.trans hcalls
    exact ⟨(Copy.Calls.trace_grows hcalls).trans hfail.trace_grows, hreached.exact.ordered hfail⟩

/-- A direction that is done makes no more calls, and the poll goes on with the other one. -/
theorem Copy.poll_other (a b : Stream ω) (c : Copy) (w : ω) :
    (c.upload.done = true → ∀ second down w', c.download.poll b a w = some (second, down, w') →
      (∀ e, second ≠ .ready (.error e)) →
      Copy.poll a b c w = some (Copy.result (.ready (.ok ())) second c.upload down, ⟨c.upload, down⟩, w')) ∧
    (c.download.done = true → ∀ first up w', c.upload.poll a b w = some (first, up, w') →
      (∀ e, first ≠ .ready (.error e)) →
      Copy.poll a b c w = some (Copy.result first (.ready (.ok ())) up c.download, ⟨up, c.download⟩, w')) := by
  constructor
  · intro hdone second down w' heq hok
    rw [Copy.poll, Direction.poll, if_pos hdone]
    simp only [heq]
  · intro hdone first up w' heq hok
    have hdown : c.download.poll b a w' = some (.ready (.ok ()), c.download, w') := by rw [Direction.poll, if_pos hdone]
    rw [Copy.poll, heq]
    cases first with
    | pending => simp only [hdown]
    | ready r =>
      cases r with
      | ok => simp only [hdown]
      | error e => exact absurd rfl (hok e)

def Direction.Closed (d : Direction) : Prop := (d.done = true → d.eof = true) ∧ (d.eof = true → d.bytes = [])

theorem Direction.Call.closed {w w' : ω} (h : Call reader writer d w none d' w') (hd : d.Closed) : d'.Closed := by
  generalize hlabel : (none : Option ErrorKind) = e at h
  cases h with
  | readFailed | flushFailed | shutdownFailed | writeZero | writeFailed => cases hlabel
  | readPending | flush | shutdownPending | writePending => exact hd
  | read _ _ hdone => exact ⟨fun h => by simp [hdone] at h, fun h => List.isEmpty_iff.1 h⟩
  | shutdown heof => exact ⟨fun _ => heof, hd.2⟩
  | write heof => exact ⟨hd.1, fun h => by simp [heof] at h⟩

/-- The state of a relay whose first stream replays `pre`. -/
def Copy.Replays (a b : Stream ω) (pre : Bytes) (w : ω) (c : Copy) (x : Logged ω End × Prefix) : Prop :=
  Copy.Calls (a.logged .a).prefixed ((b.logged .b).lift Prefix) (Copy.new, ⟨w, []⟩, .new pre) (c, x)

theorem Copy.Replays.replay {pre : Bytes} {x : Logged ω End × Prefix} (h : Copy.Replays a b pre w c x) :
    Replay .a .b pre c.upload x.1.trace x.2 ∧ c.upload.Closed := by
  have hall : ∀ {y : Copy × Logged ω End × Prefix},
      Copy.Calls (a.logged .a).prefixed ((b.logged .b).lift Prefix) (Copy.new, ⟨w, []⟩, .new pre) y →
      Replay .a .b pre y.1.upload y.2.1.trace y.2.2 ∧ y.1.upload.Closed := by
    intro y hy
    induction hy with
    | refl => exact ⟨replay_new pre, nofun, nofun⟩
    | @tail _ z _ hcall ih =>
      obtain ⟨_, _⟩ := z
      cases hcall with
      | upload hcall => exact ⟨ih.1.upload nofun hcall, hcall.closed ih.2⟩
      | download hcall => exact ⟨ih.1.download nofun hcall, ih.2⟩
  exact hall h

/-- **The relay is exact in both directions.** At every moment the bytes accepted by a writer and the chunk in hand are
the bytes of the opposite reader, the credit is what was accepted downstream, and shutdown follows the end (`Exact`).
Every poll goes through, succeeds only after both shutdowns with the exact counts (`Polls`), and goes on with one
direction when the other is done. A stream behind replayed bytes is read after them, and credited for its own. -/
theorem relay_exact (ha : a.Lawful) (hb : b.Lawful) (w : ω) : (∀ c x, Copy.Reached a b w c x → c.Exact x.trace ∧
      ∃ r c' x', Copy.poll (a.logged .a) (b.logged .b) c x = some (r, c', x') ∧ Copy.Polls a b w x r c' x') ∧
    (∀ (c : Copy) (w : ω), (c.upload.done = true → ∀ second down w', c.download.poll b a w = some (second, down, w') →
        (∀ e, second ≠ .ready (.error e)) →
        Copy.poll a b c w = some (Copy.result (.ready (.ok ())) second c.upload down, ⟨c.upload, down⟩, w')) ∧
      (c.download.done = true → ∀ first up w', c.upload.poll a b w = some (first, up, w') →
        (∀ e, first ≠ .ready (.error e)) →
        Copy.poll a b c w = some (Copy.result first (.ready (.ok ())) up c.download, ⟨up, c.download⟩, w'))) ∧
    ∀ pre c x, Copy.Replays a b pre w c x →
      accepted .b x.1.trace ++ c.upload.bytes ++ x.2.bytes = pre ++ obtained .a x.1.trace ∧
      credited .a x.1.trace = (accepted .b x.1.trace).length - pre.length ∧
      (c.upload.done = true → credited .a x.1.trace = (obtained .a x.1.trace).length) ∧
      ∃ r y, Copy.poll (a.logged .a).prefixed ((b.logged .b).lift Prefix) c x = some (r, y) ∧
        Copy.Ends (a.logged .a).prefixed ((b.logged .b).lift Prefix) (c, x) r y := by
  refine ⟨fun c x h => ⟨h.exact, h.polls ha hb⟩, Copy.poll_other a b, fun pre c x h => ?_⟩
  obtain ⟨hreplay, hclosed⟩ := h.replay
  obtain ⟨hbytes, hcredited⟩ := hreplay.exact
  refine ⟨hbytes, hcredited, fun hdone => ?_, Copy.poll_ends (ha.logged End.a).prefixed ((hb.logged End.b).lift Prefix) c x⟩
  have heof := hclosed.1 hdone
  rw [hclosed.2 heof, hreplay.ended heof, append_nil, append_nil] at hbytes
  rw [hcredited, hbytes, length_append, Nat.add_sub_cancel_left]

/-- A stream that yields `bytes` once and accepts everything. -/
def once (bytes : Bytes) : Stream Bool where
  pollRead w _ := (.pending, w)
  pollReadChunk w := (.ready (.ok (if w then bytes else [])), false)
  pollWriteChunk w chunk := (.ready (.ok chunk.length), [], w)
  pollFlush w := (.ready (.ok ()), w)
  pollShutdown w := (.ready (.ok ()), w)
  consumeChunk w _ := w

theorem once_lawful (bytes : Bytes) : (once bytes).Lawful := by
  refine ⟨nofun, fun w chunk n h => ?_, nofun⟩
  cases h
  exact ⟨le_rfl, drop_length.symm⟩

theorem relay_exact_one_byte : ∃ c x, Copy.poll ((once [7]).logged End.a) ((once []).logged End.b) .new ⟨true, []⟩ =
      some (.ready (.ok (1, 0)), c, x) ∧ accepted End.b x.trace = [7] ∧ credited End.a x.trace = 1 := by
  obtain ⟨-, _, _, _, hpoll, hpolls⟩ :=
    (relay_exact (once_lawful [7]) (once_lawful []) true).1 .new ⟨true, []⟩ .refl
  have hvalue : Copy.poll ((once [7]).logged End.a) ((once []).logged End.b) .new ⟨true, []⟩ =
      some (.ready (.ok (1, 0)), ⟨⟨[], 1, true, true⟩, ⟨[], 0, true, true⟩⟩, ⟨false, [(.a, .read [7]), (.b, .accepted [7]),
        (.a, .credited 1), (.a, .read []), (.b, .shutdown true), (.b, .read []), (.a, .shutdown true)]⟩) := rfl
  rw [hvalue] at hpoll
  cases hpoll
  exact ⟨_, _, rfl, hpolls.2.2.2.2.2.1.trans rfl, rfl⟩

end Relay

end Kotoconn.Protocol
