import Kotoconn.Inbounds.Quic

/-! # QUIC handshake data is reassembled -/

namespace Kotoconn.Inbounds.Quic
open Lib Sniff List Option

/-! ## Readers pay for their loops -/

namespace Cursor
variable {α β : Type} {c : Cursor α} {f : α → Cursor β} {slack : Nat} {spare : α → Nat} {spare' : β → Nat}

/-- The reader does not panic. It takes at most `slack` turns more than there are bytes, and if it returns `a`, it has
read `spare a` bytes more than it took turns. -/
def Paid (c : Cursor α) (slack : Nat) (spare : α → Nat) : Prop :=
  ∀ b, (c b).result ≠ .panic ∧ (c b).work ≤ b.length + slack ∧
    ∀ a rest, (c b).result = .ok (a, rest) → (c b).work + spare a + rest.length ≤ b.length

theorem Paid.mono (h : Paid c slack spare) {slack' : Nat} (hslack : slack ≤ slack') {spare' : α → Nat}
    (hspare : ∀ a, spare' a ≤ spare a) : Paid c slack' spare' := fun b => by
  obtain ⟨hp, hw, hok⟩ := h b
  refine ⟨hp, by omega, fun a rest hr => ?_⟩
  have := hok a rest hr
  have := hspare a
  omega

theorem Paid.pure {a : α} (h : spare a = 0) : Paid (pure a : Cursor α) slack spare := fun b => by
  refine ⟨nofun, zero_le, fun a' rest hr => ?_⟩
  cases hr
  rw [h]
  exact (zero_add _).le

theorem Paid.bind {slack' : Nat} (hc : Paid c slack' spare) (hle : slack' ≤ slack)
    (hf : ∀ a, Paid (f a) (slack + spare a) fun r => spare' r - spare a) : Paid (c >>= f) slack spare' := fun b => by
  obtain ⟨hp, hw, hok⟩ := hc b
  have hbind : (c >>= f) b = c b >>= fun x => f x.1 x.2 := rfl
  rw [hbind]
  cases hr : (c b).result with
  | panic => exact absurd hr hp
  | reject =>
    rw [Exec.bind_reject hr]
    exact ⟨nofun, le_trans hw (Nat.add_le_add_left hle _), nofun⟩
  | ok x =>
    obtain ⟨hp', hw', hok'⟩ := hf x.1 x.2
    have hle := hok x.1 x.2 hr
    rw [Exec.bind_ok hr]
    refine ⟨hp', by simp only; omega, fun r rest hr' => ?_⟩
    have := hok' r rest hr'
    simp only at this ⊢
    omega

theorem Paid.tick {c : Cursor β} (hc : Paid c slack fun r => spare' r + 1) :
    Paid (do Exec.tick; c) (slack + 1) spare' := fun b => by
  obtain ⟨hp, hw, hok⟩ := hc b
  have hbind : (do Exec.tick; c : Cursor β) b = ⟨(c b).result, 1 + (c b).work⟩ := rfl
  rw [hbind]
  refine ⟨hp, by simp only; omega, fun r rest hr => ?_⟩
  have := hok r rest hr
  simp only at this ⊢
  omega

theorem take_paid (count : Nat) : Paid (take count) 0 List.length := fun b => by
  unfold take
  split_ifs with h
  · refine ⟨nofun, zero_le, fun a rest hr => ?_⟩
    cases hr
    show 0 + (b.take count).length + (b.drop count).length ≤ b.length
    simp only [length_take, length_drop]
    omega
  · exact ⟨nofun, zero_le, nofun⟩

theorem digits_spec (value : UInt64) (bytes : Bytes) :
    (∃ v, (digits value bytes).result = .ok v) ∧ (digits value bytes).work = bytes.length := by
  induction bytes generalizing value with
  | nil => exact ⟨⟨value, rfl⟩, rfl⟩
  | cons byte rest ih =>
    obtain ⟨⟨v, hv⟩, hw⟩ := ih (value <<< 8 ||| byte.toUInt64)
    refine ⟨⟨v, hv⟩, ?_⟩
    show 1 + (digits _ rest).work = _
    rw [hw, length_cons, add_comm]

theorem varint_cases (b : Bytes) : varint b = ⟨.reject, 0⟩ ∨
    ∃ v rest n, varint b = ⟨.ok (v, rest), n⟩ ∧ n + 1 + rest.length = b.length := by
  cases b with
  | nil => exact .inl rfl
  | cons first tail =>
    have hpos := Nat.two_pow_pos (first >>> 6).toNat
    unfold varint take
    simp only
    split_ifs with h
    · obtain ⟨⟨v, hv⟩, hw⟩ := digits_spec (first &&& 0x3f).toUInt64
        (((first :: tail).take (2 ^ (first >>> 6).toNat)).drop 1)
      rw [Exec.bind_ok (Exec.pure_result _)]
      simp only
      rw [Exec.bind_ok hv]
      refine .inr ⟨v, _, _, rfl, ?_⟩
      show 0 + (_ + 0) + 1 + ((first :: tail).drop _).length = _
      rw [hw, length_drop, length_drop, length_take, min_eq_left h]
      omega
    · exact .inl rfl

theorem varint_paid : Paid varint 0 fun _ => 1 := fun b => by
  rcases varint_cases b with h | ⟨v, rest, n, h, hlength⟩
  · rw [h]
    exact ⟨nofun, zero_le, nofun⟩
  · rw [h]
    refine ⟨nofun, by simp only; omega, fun a rest' hr => ?_⟩
    cases hr
    exact hlength.le

theorem size_paid : Paid size 0 fun _ => 1 := varint_paid.bind (zero_le) fun _ => .pure rfl

theorem guard_paid (b : Bool) : Paid (guard b) 0 fun _ => 0 := fun rest => by
  unfold guard Exec.guard
  split_ifs
  · refine ⟨nofun, zero_le, fun a rest' hr => ?_⟩
    cases hr
    exact (zero_add _).le
  · exact ⟨nofun, zero_le, nofun⟩

theorem times_paid {turn : Cursor Unit} (h : Paid turn 0 fun _ => 1) (n : Nat) : Paid (times n turn) 1 fun _ => 0 := by
  induction n with
  | zero => exact .pure rfl
  | succ n ih => exact .tick (h.bind (zero_le) fun _ => ih.mono le_rfl fun _ => zero_le)

theorem get_paid : Paid get 0 fun _ => 0 := fun b => by
  refine ⟨nofun, zero_le, fun a rest hr => ?_⟩
  cases hr
  exact (zero_add _).le

theorem ack_paid : Paid ack 0 fun _ => 1 := by
  refine varint_paid.bind (zero_le) fun _ => varint_paid.bind (zero_le) fun _ =>
    size_paid.bind (zero_le) fun ranges => varint_paid.bind (zero_le) fun _ =>
    get_paid.bind (zero_le) fun left => (guard_paid _).bind (zero_le) fun _ => ?_
  refine (times_paid ?_ ranges).mono (by omega) fun _ => by omega
  exact varint_paid.bind (zero_le) fun _ => varint_paid.bind (zero_le) fun _ => .pure rfl

def Frame.cost : Frame → Nat
  | skip => 0
  | crypto _ fragment => fragment.length

theorem content_paid (type : UInt64) : Paid (content type) 0 Frame.cost := by
  unfold content
  split_ifs
  · exact .pure rfl
  · exact ack_paid.bind (zero_le) fun _ => .pure rfl
  · refine ack_paid.bind (zero_le) fun _ => (times_paid ?_ 3).bind le_rfl fun _ => .pure rfl
    exact varint_paid.bind (zero_le) fun _ => .pure rfl
  · refine size_paid.bind (zero_le) fun offset => size_paid.bind (zero_le) fun length =>
      (take_paid length).bind (zero_le) fun fragment => (guard_paid _).bind (zero_le) fun _ => .pure ?_
    simp only [Frame.cost]
    omega
  · exact fun b => ⟨nofun, zero_le, nofun⟩

theorem frame_spec {b : Bytes} (hb : b ≠ []) : (frame b).result ≠ .panic ∧ (frame b).work ≤ b.length ∧
    ∀ f rest, (frame b).result = .ok (f, rest) → (frame b).work + f.cost + rest.length ≤ b.length ∧
      rest.length < b.length := by
  have hpos := length_pos_iff.2 hb
  have hframe : frame b = ⟨(varint b >>= fun x => content x.1 x.2).result,
    1 + (varint b >>= fun x => content x.1 x.2).work⟩ := rfl
  rw [hframe]
  rcases varint_cases b with h | ⟨v, rest, n, h, hlength⟩
  · rw [Exec.bind_reject (by rw [h]), h]
    exact ⟨nofun, hpos, nofun⟩
  · obtain ⟨hp, hw, hok⟩ := content_paid v rest
    rw [Exec.bind_ok (show (varint b).result = .ok (v, rest) by rw [h]), h]
    refine ⟨hp, by simp only; omega, fun f rest' hr => ?_⟩
    have := hok f rest' hr
    simp only
    omega

end Cursor

/-! ## The buffers -/

variable {s : Inspector} {fs gs : List (Nat × Bytes)} {i : Nat}

namespace Inspector

def cell (s : Inspector) (i : Nat) : Option UInt8 := if s.received[i]? = some true then s.crypto[i]? else none

end Inspector

def byteAt (f : Nat × Bytes) (i : Nat) : Option UInt8 := if f.1 ≤ i then f.2[i - f.1]? else none

theorem byteAt_cons (position : Nat) (byte : UInt8) (rest : Bytes) (i : Nat) :
    byteAt (position, byte :: rest) i = if i = position then some byte else byteAt (position + 1, rest) i := by
  unfold byteAt
  simp only
  split_ifs with h1 h2 h3 h3 <;> try omega
  · rw [h2, Nat.sub_self]
    rfl
  · obtain ⟨k, rfl⟩ := Nat.exists_eq_add_of_le h3
    rw [show position + 1 + k - position = k + 1 by omega, Nat.add_sub_cancel_left, getElem?_cons_succ]
  · rfl

namespace Inspector

structure Copies (s : Inspector) (f : Nat × Bytes) (x : Call) : Prop where
  safe : x.1.result ≠ .panic
  work : x.1.work ≤ f.2.length
  contiguous : x.2.contiguous = s.contiguous
  ok : x.1.result = .ok () ↔ ∀ i v w, s.cell i = some v → byteAt f i = some w → v = w
  lengths : x.2.crypto.length = s.crypto.length ∧ x.2.received.length = s.received.length
  cells : x.1.result = .ok () → ∀ i, x.2.cell i = (byteAt f i).or (s.cell i)

theorem copy_spec (position : Nat) (fragment : Bytes) {s : Inspector} (hlen : s.crypto.length = s.received.length)
    (hfits : position + fragment.length ≤ s.crypto.length) :
    Copies s (position, fragment) (copy position fragment s) := by
  induction fragment generalizing position s with
  | nil =>
    have hnone : ∀ i, byteAt (position, []) i = none := fun i => by simp [byteAt]
    exact ⟨nofun, zero_le, rfl, iff_of_true rfl fun i v w _ h => absurd ((hnone i).symm.trans h) nofun,
      ⟨rfl, rfl⟩, fun _ i => by rw [hnone]; rfl⟩
  | cons byte rest ih =>
    rw [length_cons] at hfits
    obtain ⟨old, hold⟩ : ∃ old, s.crypto[position]? = some old := ⟨_, getElem?_eq_getElem (by omega)⟩
    obtain ⟨got, hgot⟩ : ∃ got, s.received[position]? = some got := ⟨_, getElem?_eq_getElem (by omega)⟩
    obtain ⟨s', hs'⟩ : ∃ s', s' = { s with
      crypto := s.crypto.set position byte, received := s.received.set position true } := ⟨_, rfl⟩
    have hcell : ∀ i, s'.cell i = if i = position then some byte else s.cell i := fun i => by
      have hlt : position < s.crypto.length := by omega
      by_cases hi : i = position
      · rw [if_pos hi, hi, hs', cell]
        simp [hlt, hlen ▸ hlt]
      · rw [if_neg hi, hs', cell, cell, getElem?_set_ne (Ne.symm hi), getElem?_set_ne (Ne.symm hi)]
    have hnext : ∀ w, byteAt (position + 1, rest) position ≠ some w := fun w => by
      rw [byteAt, if_neg (Nat.not_succ_le_self _)]
      exact nofun
    have hrec := ih (position + 1) (s := s') (by simp [hs', hlen]) (by simp [hs']; omega)
    have hhead : s.cell position = if got then some old else none := by
      rw [cell, hgot, hold]
      cases got <;> rfl
    unfold copy
    simp only [hgot, hold, ← hs']
    split_ifs with hbad
    · -- another byte stands there
      refine ⟨nofun, Nat.succ_pos _, rfl, iff_of_false nofun fun hall => ?_, ⟨rfl, rfl⟩, nofun⟩
      refine hbad.2 (hall position old byte ?_ (by rw [byteAt_cons, if_pos rfl]))
      rw [hhead, if_pos hbad.1]
    · have hrun : Call.andThen (Exec.tick, s') (copy (position + 1) rest) =
          (⟨(copy (position + 1) rest s').1.result, 1 + (copy (position + 1) rest s').1.work⟩,
            (copy (position + 1) rest s').2) := rfl
      rw [hrun]
      refine ⟨hrec.safe, ?_, hrec.contiguous.trans (by rw [hs']), hrec.ok.trans ⟨fun h i v w hv hw => ?_,
        fun h i v w hv hw => ?_⟩, ⟨hrec.lengths.1.trans (by simp [hs']), hrec.lengths.2.trans (by simp [hs'])⟩,
        fun hok i => ?_⟩
      · have := hrec.work
        simp only [length_cons] at this ⊢
        omega
      · rw [byteAt_cons] at hw
        split_ifs at hw with hi
        · subst hi
          rw [hhead] at hv
          cases got with
          | false => cases hv
          | true =>
            cases hv
            cases hw
            exact Decidable.not_not.1 fun hne => hbad ⟨rfl, hne⟩
        · exact h i v w (by rw [hcell, if_neg hi]; exact hv) hw
      · have hi : i ≠ position := fun hi => hnext w (hi ▸ hw)
        rw [hcell, if_neg hi] at hv
        exact h i v w hv (by rw [byteAt_cons, if_neg hi]; exact hw)
      · rw [hrec.cells hok i, byteAt_cons, hcell]
        split_ifs with hi
        · subst hi
          cases hb : byteAt (i + 1, rest) i with
          | none => rfl
          | some w => exact absurd hb (hnext w)
        · rfl

theorem cell_ne_none (hlen : s.crypto.length = s.received.length) : s.cell i ≠ none ↔ s.received[i]? = some true := by
  unfold cell
  split_ifs with h
  · obtain ⟨hlt, -⟩ := List.getElem?_eq_some_iff.1 h
    rw [getElem?_eq_getElem (hlen ▸ hlt)]
    exact iff_of_true nofun h
  · exact iff_of_false (fun hne => hne rfl) h

end Inspector

theorem run_spec (l : List Bool) : (∀ i < run l, l[i]? = some true) ∧ l[run l]? ≠ some true := by
  induction l with
  | nil => exact ⟨nofun, nofun⟩
  | cons b l ih =>
    cases b with
    | false => exact ⟨nofun, nofun⟩
    | true =>
      refine ⟨fun i hi => ?_, ih.2⟩
      cases i with
      | zero => rfl
      | succ i => exact ih.1 i (Nat.lt_of_succ_lt_succ hi)

/-- The call does not panic, and its turns are paid for by `n` bytes and the growth of `contiguous`. -/
structure Call.Takes (x : Call) (s : Inspector) (n : Nat) : Prop where
  safe : x.1.result ≠ .panic
  grows : s.contiguous ≤ x.2.contiguous
  work : x.1.work ≤ n + (x.2.contiguous - s.contiguous)

theorem Call.andThen_ok {x : Call} {f : Inspector → Call} (h : x.1.result = .ok ()) :
    x.andThen f = (⟨(f x.2).1.result, x.1.work + (f x.2).1.work⟩, (f x.2).2) := by
  unfold Call.andThen
  rw [h]

theorem Call.andThen_reject {x : Call} {f : Inspector → Call} (h : x.1.result = .reject) : x.andThen f = x := by
  unfold Call.andThen
  rw [h]

theorem Call.Takes.andThen {x : Call} {f : Inspector → Call} {s : Inspector} {n m : Nat} (hx : x.Takes s n)
    (hf : x.1.result = .ok () → (f x.2).Takes x.2 m) : (x.andThen f).Takes s (n + m) := by
  have hgrows := hx.grows
  have hwork := hx.work
  cases hr : x.1.result with
  | panic => exact absurd hr hx.safe
  | reject =>
    rw [Call.andThen_reject hr]
    exact ⟨hx.safe, hgrows, by omega⟩
  | ok =>
    obtain ⟨hsafe, hgrows', hwork'⟩ := hf hr
    rw [Call.andThen_ok hr]
    exact ⟨hsafe, le_trans hgrows hgrows', by simp only; omega⟩

def Writes (fs : List (Nat × Bytes)) (i : Nat) (v : UInt8) : Prop := ∃ f ∈ fs, byteAt f i = some v

/-- The frame ends within the limit and agrees with the bytes of earlier frames. -/
def Fits (fs : List (Nat × Bytes)) (f : Nat × Bytes) : Prop :=
  f.1 + f.2.length ≤ maxBytes ∧ ∀ i v w, Writes fs i v → byteAt f i = some w → v = w

def Accepts : List (Nat × Bytes) → List (Nat × Bytes) → Prop
  | _, [] => True
  | fs, g :: gs => Fits fs g ∧ Accepts (g :: fs) gs

namespace Inspector
variable {offset : Nat} {fragment : Bytes}

/-- The buffers hold exactly the frames, and `contiguous` is the first offset that is missing. -/
structure Valid (fs : List (Nat × Bytes)) (s : Inspector) : Prop where
  length : s.crypto.length = s.received.length
  le : s.crypto.length ≤ maxBytes
  cells : ∀ i v, s.cell i = some v ↔ Writes fs i v
  front : ∀ i < s.contiguous, s.cell i ≠ none
  gap : s.cell s.contiguous = none

theorem advance_spec (hlen : s.crypto.length = s.received.length) (hfront : ∀ i < s.contiguous, s.cell i ≠ none) :
    s.advance.Takes s 0 ∧ s.advance.1.result = .ok () ∧ s.advance.2.crypto = s.crypto ∧
      s.advance.2.received = s.received ∧ (∀ i < s.advance.2.contiguous, s.cell i ≠ none) ∧
      s.cell s.advance.2.contiguous = none := by
  obtain ⟨hset, hstop⟩ := run_spec (s.received.drop s.contiguous)
  generalize hrun : run (s.received.drop s.contiguous) = turns at hset hstop
  have hall : ∀ i < s.contiguous + turns, s.cell i ≠ none := fun i hi => by
    by_cases hold : i < s.contiguous
    · exact hfront i hold
    · have := hset (i - s.contiguous) (by omega)
      rw [getElem?_drop, Nat.add_sub_cancel' (not_lt.1 hold)] at this
      exact (cell_ne_none hlen).2 this
  have hle : s.contiguous + turns ≤ s.crypto.length := by
    by_contra hgt
    have := (cell_ne_none hlen).1 (hall s.crypto.length (not_le.1 hgt))
    rw [hlen, getElem?_eq_none le_rfl] at this
    cases this
  have hadvance : s.advance = (⟨.ok (), turns⟩, { s with contiguous := s.contiguous + turns }) := by
    unfold advance
    simp only [hrun, if_pos hle]
  rw [hadvance]
  refine ⟨⟨nofun, le_self_add, ?_⟩, rfl, rfl, rfl, hall, ?_⟩
  · simp only
    omega
  · rw [getElem?_drop] at hstop
    exact Decidable.not_not.1 fun hne => hstop ((cell_ne_none hlen).1 hne)

theorem getElem?_resize {α : Type} {l : List α} {n : Nat} (h : l.length ≤ n) (x : α) (i : Nat) :
    (resize l n x)[i]? = if i < l.length then l[i]? else if i < n then some x else none := by
  rw [resize, take_of_length_le h]
  split_ifs with hold hnew
  · exact getElem?_append_left hold
  · rw [getElem?_append_right (not_lt.1 hold), getElem?_replicate, if_pos (by omega)]
  · exact getElem?_eq_none (by simp only [length_append, length_replicate]; omega)

theorem length_resize {α : Type} {l : List α} {n : Nat} (h : l.length ≤ n) (x : α) : (resize l n x).length = n := by
  rw [resize, take_of_length_le h, length_append, length_replicate, Nat.add_sub_cancel' h]

theorem Valid.resized (h : Valid fs s) {stop : Nat} (hstop : stop ≤ maxBytes) : ∃ s', s' = (if s.crypto.length < stop
      then { s with crypto := resize s.crypto stop 0, received := resize s.received stop false } else s) ∧
    Valid fs s' ∧ s'.contiguous = s.contiguous ∧ stop ≤ s'.crypto.length := by
  refine ⟨_, rfl, ?_⟩
  split_ifs with hlt
  · have hle : s.received.length ≤ stop := h.length ▸ le_of_lt hlt
    have hcell : ∀ i, cell { s with crypto := resize s.crypto stop 0, received := resize s.received stop false } i =
        s.cell i := fun i => by
      simp only [cell, getElem?_resize hle, getElem?_resize hlt.le, h.length]
      by_cases hi : i < s.received.length
      · simp only [if_pos hi]
      · rw [if_neg hi, getElem?_eq_none (not_lt.1 hi)]
        split_ifs <;> first | rfl | contradiction
    have hlength := length_resize (le_of_lt hlt) (0 : UInt8)
    refine ⟨⟨hlength.trans (length_resize hle false).symm, hlength.trans_le hstop, fun i v => by rw [hcell]; exact h.cells i v,
      fun i hi => by rw [hcell]; exact h.front i hi, by rw [hcell]; exact h.gap⟩, rfl, hlength.ge⟩
  · exact ⟨h, rfl, not_lt.1 hlt⟩

theorem store_spec (h : Valid fs s) (offset : Nat) (fragment : Bytes) :
    (s.store offset fragment).Takes s fragment.length ∧
    ((s.store offset fragment).1.result = .ok () ↔ Fits fs (offset, fragment)) ∧
    ((s.store offset fragment).1.result = .ok () → Valid ((offset, fragment) :: fs) (s.store offset fragment).2) := by
  by_cases hbig : maxBytes < offset + fragment.length
  · have hstore : s.store offset fragment = (.reject, s) := if_pos hbig
    rw [hstore]
    exact ⟨⟨nofun, le_rfl, zero_le⟩, iff_of_false nofun fun hfits => not_lt.2 hfits.1 hbig, nofun⟩
  · obtain ⟨s', hs', hvalid, hcontiguous, hroom⟩ := h.resized (not_lt.1 hbig)
    have hstore : s.store offset fragment = (copy offset fragment s').andThen advance := by
      unfold store
      simp only [if_neg hbig, ← hs', if_pos hvalid.length]
    have hcopy := copy_spec offset fragment hvalid.length hroom
    have hiff : (copy offset fragment s').1.result = .ok () ↔ Fits fs (offset, fragment) := by
      refine hcopy.ok.trans ⟨fun hok => ⟨not_lt.1 hbig, fun i v w hv => hok i v w ((hvalid.cells i v).2 hv)⟩,
        fun hfits i v w hv => hfits.2 i v w ((hvalid.cells i v).1 hv)⟩
    have hcopied : (copy offset fragment s').Takes s fragment.length := by
      refine ⟨hcopy.safe, by rw [hcopy.contiguous, hcontiguous], le_trans hcopy.work le_self_add⟩
    rw [hstore]
    cases hr : (copy offset fragment s').1.result with
    | panic => exact absurd hr hcopy.safe
    | reject =>
      rw [Call.andThen_reject hr, hr]
      exact ⟨hcopied, iff_of_false nofun fun hfits => absurd (hr.symm.trans (hiff.2 hfits)) nofun, nofun⟩
    | ok =>
      have hlen : (copy offset fragment s').2.crypto.length = (copy offset fragment s').2.received.length := by
        rw [hcopy.lengths.1, hcopy.lengths.2, hvalid.length]
      have hcells := hcopy.cells hr
      have hkept : ∀ i, s'.cell i ≠ none → (copy offset fragment s').2.cell i ≠ none := fun i hi => by
        rw [hcells]
        cases byteAt (offset, fragment) i with
        | none => exact hi
        | some => exact nofun
      obtain ⟨htakes, hok, hcrypto, hreceived, hfront, hgap⟩ := advance_spec hlen fun i hi =>
        hkept i (hvalid.front i (hcopy.contiguous ▸ hi))
      have hsame : ∀ i, (copy offset fragment s').2.advance.2.cell i = (copy offset fragment s').2.cell i := fun i => by
        rw [cell, cell, hcrypto, hreceived]
      refine ⟨hcopied.andThen fun _ => htakes, ?_, fun _ => ?_⟩
      · rw [Call.andThen_ok hr]
        exact iff_of_true hok (hiff.1 hr)
      · rw [Call.andThen_ok hr]
        refine ⟨by rw [hcrypto, hreceived, hlen], by rw [hcrypto, hcopy.lengths.1]; exact hvalid.le, fun i v => ?_,
          fun i hi => by rw [hsame]; exact hfront i hi, by rw [hsame]; exact hgap⟩
        rw [hsame, hcells]
        have hold := hvalid.cells i v
        have hagree := fun w hw => (hiff.1 hr).2 i v w hw
        constructor
        · intro hv
          cases hb : byteAt (offset, fragment) i with
          | none =>
            rw [hb] at hv
            obtain ⟨f, hf, hfv⟩ := hold.1 hv
            exact ⟨f, mem_cons_of_mem _ hf, hfv⟩
          | some =>
            rw [hb] at hv
            exact ⟨_, mem_cons_self, hb.trans hv⟩
        · rintro ⟨f, hf, hfv⟩
          rcases mem_cons.1 hf with rfl | hf
          · rw [hfv]
            rfl
          · cases hb : byteAt (offset, fragment) i with
            | none => exact hold.2 ⟨f, hf, hfv⟩
            | some w => rw [hagree w ⟨f, hf, hfv⟩ hb]; rfl

end Inspector

/-! ## Payloads -/

def Cursor.Frame.data : Cursor.Frame → List (Nat × Bytes)
  | .skip => []
  | .crypto offset fragment => [(offset, fragment)]

inductive Parses : Bytes → List (Nat × Bytes) → Prop
  | nil : Parses [] []
  | frame {b rest : Bytes} {f : Cursor.Frame} {gs : List (Nat × Bytes)} (hb : b ≠ [])
      (h : (Cursor.frame b).result = .ok (f, rest)) (ht : Parses rest gs) : Parses b (f.data ++ gs)

theorem accepts_data {f : Cursor.Frame} : Accepts fs (f.data ++ gs) ↔ Accepts fs f.data ∧ Accepts (f.data ++ fs) gs := by
  cases f with
  | skip => simp [Cursor.Frame.data, Accepts]
  | crypto => simp [Cursor.Frame.data, Accepts]

namespace Inspector

theorem put_spec (h : Valid fs s) (f : Cursor.Frame) : (s.put f).Takes s f.cost ∧
    ((s.put f).1.result = .ok () ↔ Accepts fs f.data) ∧
    ((s.put f).1.result = .ok () → Valid (f.data ++ fs) (s.put f).2) := by
  cases f with
  | skip => exact ⟨⟨nofun, le_rfl, zero_le⟩, iff_of_true rfl trivial, fun _ => h⟩
  | crypto offset fragment =>
    obtain ⟨htakes, hok, hvalid⟩ := store_spec h offset fragment
    exact ⟨htakes, hok.trans ⟨fun hfits => ⟨hfits, trivial⟩, And.left⟩, hvalid⟩

theorem framesWithin_spec {n : Nat} {b : Bytes} (h : Valid fs s) (hn : b.length ≤ n) :
    (framesWithin n s b).Takes s b.length ∧
    (∀ gs, Parses b gs → ((framesWithin n s b).1.result = .ok () ↔ Accepts fs gs)) ∧
    ((framesWithin n s b).1.result = .ok () → ∃ gs, Parses b gs ∧ Valid (gs.reverse ++ fs) (framesWithin n s b).2) := by
  fun_induction framesWithin n s b generalizing fs with
  | case1 =>
    refine ⟨⟨nofun, le_rfl, zero_le⟩, fun gs hgs => ?_, fun _ => ⟨[], .nil, h⟩⟩
    cases hgs with
    | nil => exact iff_of_true rfl trivial
    | frame hb => exact absurd rfl hb
  | case2 => cases hn
  | case3 n s first tail next f rest hr =>
    rename_i ih
    obtain ⟨-, -, hread⟩ := Cursor.frame_spec (cons_ne_nil first tail)
    obtain ⟨hle, hlt⟩ := hread f rest hr
    obtain ⟨htakes, hok, hvalid⟩ := put_spec h f
    have hrest := fun hp => ih (s.put f).2 (hvalid hp) (by rw [length_cons] at hn hlt; omega)
    have hall := htakes.andThen (f := (framesWithin n · rest)) fun hp => (hrest hp).1
    rw [Call.andThen_ok rfl]
    refine ⟨⟨hall.safe, hall.grows, ?_⟩, fun gs hgs => ?_, fun hres => ?_⟩
    · have := hall.work
      simp only [next]
      omega
    · cases hgs with
      | @frame _ rest' f' gs _ h' ht =>
        obtain ⟨rfl, rfl⟩ := Prod.mk.inj (Result.ok.inj (hr.symm.trans h'))
        rw [accepts_data]
        cases hp : (s.put f).1.result with
        | panic => exact absurd hp htakes.safe
        | reject =>
          rw [Call.andThen_reject hp, hp]
          exact iff_of_false nofun fun haccepts => absurd (hp.symm.trans (hok.2 haccepts.1)) nofun
        | ok =>
          rw [Call.andThen_ok hp]
          exact ((hrest hp).2.1 gs ht).trans ⟨fun haccepts => ⟨hok.1 hp, haccepts⟩, And.right⟩
    · cases hp : (s.put f).1.result with
      | panic => exact absurd hp htakes.safe
      | reject =>
        rw [Call.andThen_reject hp, hp] at hres
        cases hres
      | ok =>
        rw [Call.andThen_ok hp] at hres ⊢
        obtain ⟨gs, hgs, hv⟩ := (hrest hp).2.2 hres
        refine ⟨f.data ++ gs, .frame (cons_ne_nil _ _) hr hgs, ?_⟩
        have hreverse : f.data.reverse = f.data := by cases f <;> rfl
        rw [reverse_append, hreverse, append_assoc]
        exact hv
  | case4 n s first tail next =>
    rename_i hr
    obtain ⟨-, hwork, -⟩ := Cursor.frame_spec (cons_ne_nil first tail)
    refine ⟨⟨nofun, le_rfl, le_trans hwork le_self_add⟩, fun gs hgs => ?_, nofun⟩
    cases hgs with
    | frame _ h' => cases hr.symm.trans h'
  | case5 n s first tail next =>
    rename_i hr
    exact absurd hr (Cursor.frame_spec (cons_ne_nil first tail)).1

end Inspector

/-- The inspector after calls of `frames` that succeeded, with all their CRYPTO frames in order. Between calls, `initial`
sets the connection and its largest packet number. -/
inductive Reassembles : List (Nat × Bytes) → Inspector → Prop
  | new : Reassembles [] .new
  | initial {fs : List (Nat × Bytes)} {s : Inspector} (h : Reassembles fs s) (connection : Option (Nat × Bytes))
      (largestPacket : Option Nat) : Reassembles fs { s with connection, largestPacket }
  | frames {fs gs : List (Nat × Bytes)} {s : Inspector} {payload : Bytes} (h : Reassembles fs s)
      (hgs : Parses payload gs) (hok : (s.frames payload).1.result = .ok ()) :
      Reassembles (fs ++ gs) (s.frames payload).2

theorem Writes.congr {fs' : List (Nat × Bytes)} (h : ∀ f, f ∈ fs ↔ f ∈ fs') {v : UInt8} : Writes fs i v ↔ Writes fs' i v :=
  exists_congr fun f => and_congr_left fun _ => h f

theorem Parses.unique {b : Bytes} (h : Parses b fs) (h' : Parses b gs) : fs = gs := by
  induction h generalizing gs with
  | nil =>
    cases h' with
    | nil => rfl
    | frame hb => exact absurd rfl hb
  | frame hb hf _ ih =>
    cases h' with
    | nil => exact absurd rfl hb
    | frame _ hf' ht' =>
      obtain ⟨rfl, rfl⟩ := Prod.mk.inj (Result.ok.inj (hf.symm.trans hf'))
      rw [ih ht']

theorem Inspector.Valid.congr {fs' : List (Nat × Bytes)} (h : Valid fs s) (hmem : ∀ f, f ∈ fs ↔ f ∈ fs') : Valid fs' s :=
  ⟨h.length, h.le, fun i v => (h.cells i v).trans (Writes.congr hmem), h.front, h.gap⟩

theorem Reassembles.valid (h : Reassembles fs s) : s.Valid fs := by
  induction h with
  | new => exact ⟨rfl, zero_le, fun i v => ⟨nofun, nofun⟩, nofun, rfl⟩
  | initial _ _ _ ih => exact ⟨ih.length, ih.le, ih.cells, ih.front, ih.gap⟩
  | frames _ hgs hok ih =>
    obtain ⟨gs, hgs', hvalid⟩ := (Inspector.framesWithin_spec ih le_rfl).2.2 hok
    obtain rfl := hgs.unique hgs'
    exact hvalid.congr fun f => by simp [or_comm]

def Covered (fs : List (Nat × Bytes)) (i : Nat) : Prop := ∃ f ∈ fs, f.1 ≤ i ∧ i < f.1 + f.2.length

theorem byteAt_ne_none {f : Nat × Bytes} : byteAt f i ≠ none ↔ f.1 ≤ i ∧ i < f.1 + f.2.length := by
  unfold byteAt
  split_ifs with h
  · rw [ne_eq, List.getElem?_eq_none_iff]
    omega
  · exact iff_of_false (fun hne => hne rfl) fun h' => h h'.1

theorem Inspector.Valid.covered (h : s.Valid fs) : s.cell i ≠ none ↔ Covered fs i := by
  constructor
  · intro hne
    obtain ⟨v, hv⟩ := ne_none_iff_exists'.1 hne
    obtain ⟨f, hf, hfv⟩ := (h.cells i v).1 hv
    exact ⟨f, hf, byteAt_ne_none.1 (hfv ▸ nofun)⟩
  · rintro ⟨f, hf, hi⟩
    obtain ⟨v, hv⟩ := ne_none_iff_exists'.1 (byteAt_ne_none.2 hi)
    rw [(h.cells i v).2 ⟨f, hf, hv⟩]
    exact nofun

theorem Inspector.cell_eq_some {v : UInt8} (h : s.cell i = some v) : s.crypto[i]? = some v := by
  unfold cell at h
  split_ifs at h
  exact h

theorem Inspector.Valid.handshake_eq {s' : Inspector} (h : s.Valid fs) (h' : s'.Valid fs) :
    s'.handshake = s.handshake := by
  have hcell : ∀ i, s'.cell i = s.cell i := fun i =>
    Option.ext fun v => (h'.cells i v).trans (h.cells i v).symm
  have hcontiguous : s'.contiguous = s.contiguous := by
    rcases Nat.lt_trichotomy s'.contiguous s.contiguous with hlt | heq | hgt
    · exact absurd ((hcell _).symm.trans h'.gap) (h.front _ hlt)
    · exact heq
    · exact absurd ((hcell _).trans h.gap) (h'.front _ hgt)
  unfold handshake
  rw [hcontiguous]
  refine ext_getElem? fun i => ?_
  rw [getElem?_take, getElem?_take]
  split_ifs with hi
  · obtain ⟨v, hv⟩ := ne_none_iff_exists'.1 (h.front i hi)
    rw [cell_eq_some hv, cell_eq_some ((hcell i).trans hv)]
  · rfl

/-- The buffer holds the bytes of the frames `fs` and marks those. -/
structure Reassembled (fs : List (Nat × Bytes)) (s : Inspector) : Prop where
  length : s.crypto.length = s.received.length ∧ s.crypto.length ≤ maxBytes
  marks : ∀ i, s.received[i]? = some true ↔ Covered fs i
  agrees : ∀ f ∈ fs, ∀ k < f.2.length, s.crypto[f.1 + k]? = f.2[k]?
  contiguous : (∀ i < s.contiguous, Covered fs i) ∧ ¬ Covered fs s.contiguous ∧ s.contiguous ≤ maxBytes
  /-- neither the order of the frames nor their distribution over payloads matters -/
  unordered : ∀ fs' s', Reassembles fs' s' → (∀ f, f ∈ fs ↔ f ∈ fs') → s'.handshake = s.handshake
  safe : ∀ payload, (s.frames payload).1.result ≠ .panic
  parses : ∀ payload, (s.frames payload).1.result = .ok () → ∃ gs, Parses payload gs
  /-- and exactly if each ends within the limit and agrees with the bytes before it -/
  accepts : ∀ payload gs, Parses payload gs → ((s.frames payload).1.result = .ok () ↔ Accepts fs gs)
  turns : ∀ payload, (s.frames payload).1.work ≤ payload.length + ((s.frames payload).2.contiguous - s.contiguous)

/-- **QUIC handshake data is reassembled correctly.** -/
theorem Reassembles.crypto_reassembled (h : Reassembles fs s) : Reassembled fs s where
  length := ⟨h.valid.length, h.valid.le⟩
  marks i := (Inspector.cell_ne_none h.valid.length).symm.trans h.valid.covered
  agrees f hf k hk := by
    obtain ⟨v, hv⟩ : ∃ v, f.2[k]? = some v := ⟨_, getElem?_eq_getElem hk⟩
    have hbyte : byteAt f (f.1 + k) = some v := by
      rw [byteAt, if_pos le_self_add, Nat.add_sub_cancel_left, hv]
    rw [hv, Inspector.cell_eq_some ((h.valid.cells _ v).2 ⟨f, hf, hbyte⟩)]
  contiguous := by
    refine ⟨fun i hi => h.valid.covered.1 (h.valid.front i hi), fun hc => h.valid.covered.2 hc h.valid.gap, ?_⟩
    by_contra hgt
    have := (Inspector.cell_ne_none h.valid.length).1 (h.valid.front maxBytes (not_le.1 hgt))
    obtain ⟨hlt, -⟩ := List.getElem?_eq_some_iff.1 this
    exact not_lt.2 h.valid.le (h.valid.length ▸ hlt)
  unordered fs' s' h' hmem := (h.valid.congr hmem).handshake_eq h'.valid
  safe payload := (Inspector.framesWithin_spec h.valid le_rfl).1.safe
  parses payload hok := by
    obtain ⟨gs, hgs, -⟩ := (Inspector.framesWithin_spec h.valid le_rfl).2.2 hok
    exact ⟨gs, hgs⟩
  accepts payload := (Inspector.framesWithin_spec h.valid le_rfl).2.1
  turns payload := (Inspector.framesWithin_spec h.valid le_rfl).1.work

theorem Reassembles.crypto_reassembled_backwards : ∃ s, Reassembles [(1, [8, 9]), (0, [7])] s ∧
    s.handshake = [7, 8, 9] ∧ Reassembled [(1, [8, 9]), (0, [7])] s := by
  have hend : Parses [6, 1, 2, 8, 9] [(1, [8, 9])] := .frame (f := .crypto 1 [8, 9]) (by decide) rfl .nil
  have hbegin : Parses [1, 6, 0, 1, 7] [(0, [7])] :=
    .frame (f := .skip) (by decide) rfl (.frame (f := .crypto 0 [7]) (by decide) rfl .nil)
  have hall : Reassembles [(1, [8, 9]), (0, [7])] _ := .frames (.frames .new hend rfl) hbegin rfl
  exact ⟨_, hall, rfl, hall.crypto_reassembled⟩

/-- **Four bytes, six turns**: a byte at the beginning lets `contiguous` pass over three that came before. -/
theorem frames_turns : ∃ s, Reassembles [(1, [7, 8, 9])] s ∧ (s.frames [6, 0, 1, 5]).1.result = .ok () ∧
    (s.frames [6, 0, 1, 5]).1.work = 6 := by
  have hparse : Parses [6, 1, 3, 7, 8, 9] [(1, [7, 8, 9])] := .frame (f := .crypto 1 [7, 8, 9]) (by decide) rfl .nil
  exact ⟨_, .frames .new hparse rfl, rfl, rfl⟩

end Kotoconn.Inbounds.Quic
