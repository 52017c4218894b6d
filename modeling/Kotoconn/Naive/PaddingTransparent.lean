import Kotoconn.Lib.Incremental
import Kotoconn.Naive.Padding

/-! # Padding is transparent -/

namespace Kotoconn.Naive
open Lib List

/-! ## Frames -/

theorem numberAt_two (a b : UInt8) (rest : Bytes) : numberAt (a :: b :: rest) 0 2 = a.toNat * 256 + b.toNat := by
  simp [numberAt, slice, bigEndian]

theorem numberAt_third (a b c : UInt8) (rest : Bytes) : numberAt (a :: b :: c :: rest) 2 1 = c.toNat := by
  simp [numberAt, slice, bigEndian]

theorem toBytes_one (c : UInt8) : toBytes 1 c.toNat = [c] := by simp [toBytes]

theorem toBytes_two (a b : UInt8) : toBytes 2 (a.toNat * 256 + b.toNat) = [a, b] := by
  have ha := a.toNat_lt
  have hb := b.toNat_lt
  have hdiv : (a.toNat * 256 + b.toNat) / 256 = a.toNat := by omega
  have hlow : UInt8.ofNat (a.toNat * 256 + b.toNat) = b := by
    apply UInt8.toNat_inj.1
    rw [UInt8.toNat_ofNat']
    omega
  simp [toBytes, hdiv, hlow]

theorem length_frame (payload padding : Bytes) :
    (frame payload padding).length = 3 + payload.length + padding.length := by
  simp only [frame, length_append, length_toBytes]

/-- **A complete frame**, and nothing else, is split off. -/
theorem splitFrame_iff {source payload rest : Bytes} : splitFrame source = some (payload, rest) ↔
    ∃ padding : Bytes, payload.length ≤ maxPayload ∧ padding.length ≤ 255 ∧ source = frame payload padding ++ rest := by
  constructor
  · intro h
    match source, h with
    | a :: b :: c :: t, h =>
      have ha := a.toNat_lt
      have hb := b.toNat_lt
      have hc := c.toNat_lt
      have hlen : ¬ (a :: b :: c :: t).length < 3 := by simp
      rw [splitFrame, if_neg hlen] at h
      simp only [numberAt_two, numberAt_third] at h
      split_ifs at h with hshort
      cases h
      simp only [length_cons] at hshort
      -- the payload and the padding are the next two pieces of the tail
      have hpayload : slice (a :: b :: c :: t) 3 (3 + (a.toNat * 256 + b.toNat)) =
          t.take (a.toNat * 256 + b.toNat) := by
        rw [slice, show 3 + (a.toNat * 256 + b.toNat) = a.toNat * 256 + b.toNat + 1 + 1 + 1 by omega,
          take_succ_cons, take_succ_cons, take_succ_cons, drop_succ_cons, drop_succ_cons,
          drop_succ_cons, drop_zero]
      have hpl : (t.take (a.toNat * 256 + b.toNat)).length = a.toNat * 256 + b.toNat :=
        length_take_of_le (by omega)
      have hql : ((t.drop (a.toNat * 256 + b.toNat)).take c.toNat).length = c.toNat :=
        length_take_of_le (by rw [length_drop]; omega)
      have hrest : (a :: b :: c :: t).drop (3 + (a.toNat * 256 + b.toNat) + c.toNat) =
          (t.drop (a.toNat * 256 + b.toNat)).drop c.toNat := by
        rw [show 3 + (a.toNat * 256 + b.toNat) + c.toNat = (a.toNat * 256 + b.toNat + c.toNat) + 1 + 1 + 1 by omega,
          drop_succ_cons, drop_succ_cons, drop_succ_cons, drop_drop]
      refine ⟨(t.drop (a.toNat * 256 + b.toNat)).take c.toNat, ?_, ?_, ?_⟩
      · rw [hpayload, hpl, maxPayload]
        omega
      · rw [hql]
        omega
      · rw [hpayload, hrest, frame, hpl, hql, toBytes_two, toBytes_one, append_assoc, append_assoc,
          append_assoc, take_append_drop, take_append_drop]
        rfl
  · rintro ⟨padding, hpayload, _, rfl⟩
    rw [maxPayload] at hpayload
    have hlen : (frame payload padding ++ rest).length = 3 + payload.length + padding.length + rest.length := by
      rw [length_append, length_frame]
    have hfirst : numberAt (frame payload padding ++ rest) 0 2 = payload.length :=
      numberAt_toBytes (a := []) (c := toBytes 1 padding.length ++ payload ++ padding ++ rest)
        (by simp [frame]) rfl (by omega)
    have hsecond : numberAt (frame payload padding ++ rest) 2 1 = padding.length :=
      numberAt_toBytes (a := toBytes 2 payload.length) (c := payload ++ padding ++ rest)
        (by simp [frame]) (length_toBytes _ _) (by omega)
    have hthree : (toBytes 2 payload.length ++ toBytes 1 padding.length).length = 3 := by
      rw [length_append, length_toBytes, length_toBytes]
    rw [splitFrame, if_neg (by omega)]
    simp only [hfirst, hsecond]
    rw [if_neg (by omega)]
    congr 2
    · have := slice_append (toBytes 2 payload.length ++ toBytes 1 padding.length) payload (padding ++ rest)
      rw [hthree] at this
      simpa [frame] using this
    · rw [← length_frame, drop_left]

theorem splitFrame_frame {payload padding : Bytes} (hpayload : payload.length ≤ maxPayload)
    (hpadding : padding.length ≤ 255) (rest : Bytes) :
    splitFrame (frame payload padding ++ rest) = some (payload, rest) :=
  splitFrame_iff.2 ⟨padding, hpayload, hpadding, rfl⟩

theorem splitFrame_append {x payload rest : Bytes} (h : splitFrame x = some (payload, rest)) (y : Bytes) :
    splitFrame (x ++ y) = some (payload, rest ++ y) := by
  obtain ⟨_, h1, h2, rfl⟩ := splitFrame_iff.1 h
  rw [append_assoc]
  exact splitFrame_frame h1 h2 _

theorem splitFrame_lt {x payload rest : Bytes} (h : splitFrame x = some (payload, rest)) :
    payload.length + rest.length < x.length := by
  obtain ⟨_, -, -, rfl⟩ := splitFrame_iff.1 h
  rw [length_append, length_frame]
  omega

/-! ## A buffer as one byte string -/

def parse : (remaining : Nat) → (source : Bytes) → Bytes × Nat × Bytes
  | 0, source => (source, 0, [])
  | remaining + 1, source =>
    match splitFrame source with
    | none => ([], remaining + 1, source)
    | some (bytes, rest) => (bytes ++ (parse remaining rest).1, (parse remaining rest).2)

variable {remaining : Nat}

theorem parse_split {source bytes rest : Bytes} (h : splitFrame source = some (bytes, rest)) :
    parse (remaining + 1) source = (bytes ++ (parse remaining rest).1, (parse remaining rest).2) := by
  simp only [parse, h]

variable {source : Bytes}

theorem parse_incomplete (h : splitFrame source = none) :
    parse (remaining + 1) source = ([], remaining + 1, source) := by
  simp only [parse, h]

theorem parse_resumable : Resumable parse := by
  intro remaining
  induction remaining with
  | zero =>
    intro x y
    rfl
  | succ _ ih =>
    intro x y
    cases h : splitFrame x with
    | none =>
      rw [parse_incomplete h]
      rfl
    | some r =>
      obtain ⟨_, rest⟩ := r
      rw [parse_split h, parse_split (splitFrame_append h y), ih rest y, append_assoc]

theorem parse_nil (remaining : Nat) : parse remaining [] = ([], remaining, []) := by
  cases remaining with
  | zero => rfl
  | succ => exact parse_incomplete rfl

theorem parse_idle : ∀ (remaining : Nat) (source : Bytes),
    parse (parse remaining source).2.1 (parse remaining source).2.2 = ([], (parse remaining source).2)
  | 0, source => rfl
  | remaining + 1, source => by
    cases h : splitFrame source with
    | none =>
      rw [parse_incomplete h]
      exact parse_incomplete h
    | some r =>
      rw [parse_split h]
      exact parse_idle remaining r.2

/-! ## `decode` -/

def Starved (remaining : Nat) (source : Bytes) : Prop :=
  if remaining = 0 then source = [] else ¬ ∃ payload padding rest : Bytes,
    payload.length ≤ maxPayload ∧ padding.length ≤ 255 ∧ source = frame payload padding ++ rest

theorem starved_succ : Starved (remaining + 1) source ↔ splitFrame source = none := by
  rw [Starved, if_neg (Nat.succ_ne_zero _), Option.eq_none_iff_forall_ne_some]
  constructor
  · rintro h ⟨payload, rest⟩ hsplit
    obtain ⟨padding, h1, h2, h3⟩ := splitFrame_iff.1 hsplit
    exact h ⟨payload, padding, rest, h1, h2, h3⟩
  · rintro h ⟨payload, padding, rest, h1, h2, h3⟩
    exact h (payload, rest) (splitFrame_iff.2 ⟨padding, h1, h2, h3⟩)

/-- What `decode` returns: an item that comes first, or nothing, with only empty frames skipped before. -/
theorem decode_spec : ∀ (remaining : Nat) (source : Bytes),
    (∃ item remaining' rest, decode remaining source = (some item, remaining', rest) ∧ item ≠ [] ∧
      rest.length < source.length ∧
      parse remaining source = (item ++ (parse remaining' rest).1, (parse remaining' rest).2)) ∨
    ∃ remaining' rest, decode remaining source = (none, remaining', rest) ∧ Starved remaining' rest ∧
      parse remaining source = ([], remaining', rest)
  | 0, source => by
    by_cases h : source = []
    · right
      exact ⟨0, [], by rw [decode, if_pos h], rfl, by rw [h]; rfl⟩
    · left
      exact ⟨source, 0, [], by rw [decode, if_neg h], h, length_pos_iff.2 h, by simp [parse]⟩
  | remaining + 1, source => by
    cases h : splitFrame source with
    | none =>
      right
      exact ⟨remaining + 1, source, by simp only [decode, h], starved_succ.2 h, parse_incomplete h⟩
    | some r =>
      obtain ⟨bytes, rest⟩ := r
      have hlt := splitFrame_lt h
      rw [parse_split h]
      by_cases hb : bytes = []
      · have hskip : decode (remaining + 1) source = decode remaining rest := by simp [decode, h, hb]
        rw [hskip, hb, nil_append]
        rcases decode_spec remaining rest with ⟨item, r', s', hd, hne, hl, hp⟩ | hnone
        · exact .inl ⟨item, r', s', hd, hne, by omega, hp⟩
        · exact .inr hnone
      · left
        exact ⟨bytes, remaining, rest, by simp [decode, h, hb], hb, by omega, rfl⟩

/-- **`decode` returns `None` only when nothing complete is buffered.** -/
theorem decode_none (h : (decode remaining source).1 = none) :
    Starved (decode remaining source).2.1 (decode remaining source).2.2 := by
  rcases decode_spec remaining source with ⟨item, r, s, hd, -⟩ | ⟨r, s, hd, hstarved, -⟩
  · rw [hd] at h
    cases h
  · rw [hd]
    exact hstarved

theorem decode_starved (h : parse remaining source = ([], remaining, source)) :
    decode remaining source = (none, remaining, source) := by
  rcases decode_spec remaining source with ⟨item, r, s, hd, hne, -, hp⟩ | ⟨r, s, hd, -, hp⟩
  · rw [h] at hp
    have hitem := congrArg Prod.fst hp
    exact absurd (append_eq_nil_iff.1 hitem.symm).1 hne
  · rw [hd]
    rw [h] at hp
    obtain ⟨rfl, rfl⟩ := Prod.mk.inj (Prod.mk.inj hp).2
    rfl

theorem drain_spec (remaining : Nat) (source : Bytes) : ∃ items, drain remaining source =
    some (items, (parse remaining source).2) ∧ items.flatten = (parse remaining source).1 := by
  obtain ⟨r, hloop, hr1, hr2⟩ := @loop_spec _ _ drainTurn
    (fun st => (st.1.flatten ++ (parse st.2.1 st.2.2).1, (parse st.2.1 st.2.2).2) = parse remaining source)
    (fun r => r.1.flatten = (parse remaining source).1 ∧ r.2 = (parse remaining source).2)
    (fun st => st.2.2.length)
    (fun st hst => by
      obtain ⟨items, r, s⟩ := st
      simp only at hst
      unfold drainTurn
      rcases decode_spec r s with ⟨item, r', s', hd, -, hl, hp⟩ | ⟨r', s', hd, -, hp⟩
      · right
        refine ⟨(items ++ [item], r', s'), by simp only [hd], ?_, hl⟩
        rw [← hst, hp]
        simp
      · left
        rw [hp, append_nil] at hst
        refine ⟨(items, r', s'), by simp only [hd], ?_⟩
        rw [← hst]
        exact ⟨rfl, rfl⟩)
    (source.length + 1) ([], remaining, source) rfl (lt_add_one _)
  obtain ⟨items, rest⟩ := r
  obtain rfl : rest = (parse remaining source).2 := hr2
  exact ⟨items, hloop, hr1⟩

theorem receive_spec (enabled : Bool) (chunks : List Bytes) : ∃ items,
    receive enabled chunks = some (items, (parse (newCodec enabled) chunks.flatten).2) ∧
      items.flatten = (parse (newCodec enabled) chunks.flatten).1 := by
  -- arrivals of items follow the arrivals of `parse`
  have hfold : ∀ (chunks : List Bytes) (items : List Bytes) (r : Nat × Bytes), ∃ items',
      chunks.foldlM arrive (items, r) = some (items', (chunks.foldl (feed parse) (items.flatten, r)).2) ∧
        items'.flatten = (chunks.foldl (feed parse) (items.flatten, r)).1 := by
    intro chunks
    induction chunks with
    | nil => exact fun items r => ⟨items, rfl, rfl⟩
    | cons chunk _ ih =>
      intro items r
      obtain ⟨new, hdrain, hnew⟩ := drain_spec r.1 (r.2 ++ chunk)
      obtain ⟨items', hrest, hflat⟩ := ih (items ++ new) (parse r.1 (r.2 ++ chunk)).2
      rw [flatten_append, hnew] at hrest hflat
      refine ⟨items', ?_, hflat⟩
      rw [foldlM_cons, arrive, hdrain]
      exact hrest
  have := hfold chunks [] (newCodec enabled, [])
  have hall := parse_resumable.foldl_feed (newCodec enabled) [] chunks
  rw [parse_nil, nil_append] at hall
  rwa [flatten_nil, hall] at this

/-! ## What a peer sends -/

theorem encode_frame {bytes : Bytes} (hne : bytes ≠ []) (hlen : bytes.length ≤ maxPayload)
    (padding : UInt8) : encode (remaining + 1) bytes padding =
      .ok (frame bytes (List.replicate padding.toNat 0), remaining) := by
  rw [encode, if_neg hne, if_neg (not_lt.2 hlen), if_neg (Nat.succ_ne_zero _), frame, length_replicate,
    toBytes_one, Nat.add_sub_cancel]

theorem parse_sendAll : ∀ (remaining : Nat) (sends : List Send), Valid remaining sends →
    ∃ wire remaining', sendAll remaining sends = .ok (wire, remaining') ∧
      ∀ y, parse remaining (wire ++ y) = (payloads sends ++ (parse remaining' y).1, (parse remaining' y).2)
  | remaining, [], _ => ⟨[], remaining, rfl, fun y => rfl⟩
  | remaining, .write bytes padding :: rest, ⟨hlen, hvalid⟩ => by
    by_cases hb : bytes = []
    · rw [if_pos hb] at hvalid
      obtain ⟨wire, r, hsend, hparse⟩ := parse_sendAll remaining rest hvalid
      refine ⟨wire, r, ?_, fun y => ?_⟩
      · simp [sendAll, send, encode, hb, hsend]
      · rw [payloads, hb]
        exact hparse y
    · rw [if_neg hb] at hvalid
      cases remaining with
      | zero =>
        obtain ⟨wire, r, hsend, hparse⟩ := parse_sendAll 0 rest hvalid
        refine ⟨bytes ++ wire, r, ?_, fun y => ?_⟩
        · simp [sendAll, send, encode, hb, not_lt.2 hlen, hsend]
        · have := hparse y
          rw [parse, append_assoc, payloads, append_assoc]
          rw [parse] at this
          rw [(Prod.mk.inj this).1, (Prod.mk.inj this).2]
      | succ remaining =>
        obtain ⟨wire, r, hsend, hparse⟩ := parse_sendAll remaining rest hvalid
        refine ⟨frame bytes (List.replicate padding.toNat 0) ++ wire, r, ?_, fun y => ?_⟩
        · simp only [sendAll, send, encode_frame hb hlen, hsend]
        · have hpadding : (List.replicate padding.toNat (0 : UInt8)).length ≤ 255 := by
            rw [length_replicate]
            exact Nat.le_of_lt_succ padding.toNat_lt
          rw [append_assoc, parse_split (splitFrame_frame hlen hpadding _), hparse y, payloads,
            append_assoc]
  | remaining, .blank padding :: rest, ⟨hpos, hpadding, hvalid⟩ => by
    cases remaining with
    | zero => exact absurd hpos (lt_irrefl 0)
    | succ remaining =>
      obtain ⟨wire, r, hsend, hparse⟩ := parse_sendAll remaining rest hvalid
      refine ⟨frame [] padding ++ wire, r, ?_, fun y => ?_⟩
      · simp only [sendAll, send, Nat.add_sub_cancel, hsend]
      · rw [append_assoc, parse_split (splitFrame_frame (zero_le) hpadding _), hparse y, payloads]
        rfl

/-! ## The end of the input -/

def Boundary (remaining : Nat) (sends : List Send) (received : Bytes) : Prop :=
  ∃ k wire remaining', sendAll remaining (sends.take k) = .ok (wire, remaining') ∧
    (received = wire ∨ remaining' = 0 ∧ wire <+: received)

variable {rest : List Send}

theorem send_cases {s : Send} (h : Valid remaining (s :: rest)) :
    ∃ wire remaining', send remaining s = .ok (wire, remaining') ∧ Valid remaining' rest ∧
      (wire = [] ∧ remaining' = remaining ∨ remaining = 0 ∧ remaining' = 0 ∨
        ∃ payload padding, remaining = remaining' + 1 ∧ payload.length ≤ maxPayload ∧ padding.length ≤ 255 ∧
          wire = frame payload padding) := by
  cases s with
  | write bytes padding =>
    obtain ⟨hlen, hvalid⟩ := h
    by_cases hb : bytes = []
    · rw [if_pos hb] at hvalid
      exact ⟨[], remaining, by simp [send, encode, hb], hvalid, .inl ⟨rfl, rfl⟩⟩
    · rw [if_neg hb] at hvalid
      cases remaining with
      | zero =>
        exact ⟨bytes, 0, by simp [send, encode, hb, not_lt.2 hlen], hvalid, .inr (.inl ⟨rfl, rfl⟩)⟩
      | succ remaining =>
        refine ⟨_, remaining, encode_frame hb hlen padding, hvalid, .inr (.inr ⟨bytes, _, rfl, hlen, ?_, rfl⟩)⟩
        rw [length_replicate]
        exact Nat.le_of_lt_succ padding.toNat_lt
  | blank padding =>
    obtain ⟨_, hpadding, hvalid⟩ := h
    exact ⟨frame [] padding, remaining - 1, rfl, hvalid,
      .inr (.inr ⟨[], padding, by omega, zero_le, hpadding, rfl⟩)⟩

theorem splitFrame_short {payload padding received more w : Bytes} (hpayload : payload.length ≤ maxPayload)
    (hpadding : padding.length ≤ 255) (h : received ++ more = frame payload padding ++ w)
    (hshort : received.length < (frame payload padding).length) : splitFrame received = none := by
  cases hsplit : splitFrame received with
  | none => rfl
  | some r =>
    have hlong := splitFrame_append hsplit more
    rw [h, splitFrame_frame hpayload hpadding] at hlong
    have hrest : w = r.2 ++ more := (Prod.mk.inj (Option.some.inj hlong)).2
    have hlen := congrArg List.length h
    rw [hrest] at hlen
    simp only [length_append] at hlen
    omega

theorem sendAll_cons {remaining remaining' last : Nat} {s : Send} {wire more : Bytes}
    (h : send remaining s = .ok (wire, remaining')) (hrest : sendAll remaining' rest = .ok (more, last)) :
    sendAll remaining (s :: rest) = .ok (wire ++ more, last) := by
  simp only [sendAll, h, hrest]

theorem Valid.take {sends : List Send} (h : Valid remaining sends) (k : Nat) : Valid remaining (sends.take k) := by
  induction sends generalizing remaining k with
  | nil => rwa [take_nil]
  | cons s _ ih =>
    cases k with
    | zero => trivial
    | succ k =>
      cases s with
      | write => exact ⟨h.1, ih h.2 k⟩
      | blank => exact ⟨h.1, h.2.1, ih h.2.2 k⟩

theorem boundary_cons {remaining remaining' : Nat} {s : Send} {first received : Bytes}
    (hsend : send (remaining + 1) s = .ok (first, remaining')) (hvalid : Valid remaining' rest) :
    Boundary (remaining + 1) (s :: rest) received ↔
      received = [] ∨ ∃ received', received = first ++ received' ∧ Boundary remaining' rest received' := by
  constructor
  · rintro ⟨k, _, _, hk, hb⟩
    cases k with
    | zero =>
      obtain ⟨rfl, rfl⟩ := Prod.mk.inj (Except.ok.inj hk)
      rcases hb with rfl | ⟨h0, -⟩
      · exact .inl rfl
      · cases h0
    | succ k =>
      obtain ⟨wire', last', hmore, -⟩ := parse_sendAll remaining' (rest.take k) (hvalid.take k)
      rw [take_succ_cons, sendAll_cons hsend hmore] at hk
      obtain ⟨rfl, rfl⟩ := Prod.mk.inj (Except.ok.inj hk)
      right
      rcases hb with rfl | ⟨h0, t, rfl⟩
      · exact ⟨wire', rfl, k, wire', last', hmore, .inl rfl⟩
      · exact ⟨wire' ++ t, by rw [append_assoc], k, wire', last', hmore, .inr ⟨h0, prefix_append _ _⟩⟩
  · rintro (rfl | ⟨received', rfl, k, wire', last', hk, hb⟩)
    · exact ⟨0, [], remaining + 1, rfl, .inl rfl⟩
    · refine ⟨k + 1, first ++ wire', last', sendAll_cons hsend hk, ?_⟩
      rcases hb with rfl | ⟨h0, hhead⟩
      · exact .inl rfl
      · exact .inr ⟨h0, (prefix_append_right_inj first).2 hhead⟩

theorem rest_eq_nil_iff : ∀ (remaining : Nat) (sends : List Send) (wire : Bytes) (last : Nat), Valid remaining sends →
    sendAll remaining sends = .ok (wire, last) → ∀ received, received <+: wire →
      ((parse remaining received).2.2 = [] ↔ Boundary remaining sends received)
  | 0, sends, wire, last, _, _, received, _ =>
    ⟨fun _ => ⟨0, [], 0, rfl, .inr ⟨rfl, nil_prefix⟩⟩, fun _ => rfl⟩
  | remaining + 1, [], wire, last, _, hwire, received, hhead => by
    cases hwire
    obtain rfl := prefix_nil.1 hhead
    exact ⟨fun _ => ⟨0, [], remaining + 1, rfl, .inl rfl⟩, fun _ => by rw [parse_nil]⟩
  | remaining + 1, s :: rest, wire, last, hvalid, hwire, received, hhead => by
    obtain ⟨_, remaining', hsend, hvalid', hkind⟩ := send_cases hvalid
    obtain ⟨more, last', hmore, -⟩ := parse_sendAll remaining' rest hvalid'
    rw [sendAll_cons hsend hmore] at hwire
    obtain ⟨rfl, rfl⟩ := Prod.mk.inj (Except.ok.inj hwire)
    rw [boundary_cons hsend hvalid']
    rcases hkind with ⟨rfl, rfl⟩ | ⟨h0, -⟩ | ⟨payload, padding, hrem, hpayload, hpadding, rfl⟩
    · -- an empty write leaves no trace
      rw [rest_eq_nil_iff (remaining + 1) rest more last' hvalid' hmore received hhead]
      constructor
      · exact fun h => .inr ⟨received, rfl, h⟩
      · rintro (rfl | ⟨received', rfl, h⟩)
        · exact ⟨0, [], remaining + 1, rfl, .inl rfl⟩
        · exact h
    · cases h0
    · obtain rfl : remaining = remaining' := by omega
      obtain ⟨t, ht⟩ := hhead
      rcases Nat.lt_or_ge received.length (frame payload padding).length with hshort | hlong
      · -- inside the frame: all of it is left over
        rw [parse_incomplete (splitFrame_short hpayload hpadding ht hshort)]
        constructor
        · exact .inl
        · rintro (h | ⟨received', rfl, -⟩)
          · exact h
          · rw [length_append] at hshort
            omega
      · obtain ⟨received', rfl⟩ := prefix_of_prefix_length_le (prefix_append _ more) ⟨t, ht⟩ hlong
        rw [append_assoc] at ht
        have hhead' : received' <+: more := ⟨t, append_cancel_left ht⟩
        rw [parse_split (splitFrame_frame hpayload hpadding received'),
          rest_eq_nil_iff remaining rest more last' hvalid' hmore received' hhead']
        constructor
        · exact fun h => .inr ⟨received', rfl, h⟩
        · rintro (h | ⟨received'', heq, h⟩)
          · have := congrArg List.length h
            rw [length_append, length_frame, length_nil] at this
            omega
          · rwa [append_cancel_left heq]

/-! ## The tunnel -/

/-- **Padding is transparent.** A peer's sends reach the wire. However much of the wire has arrived, and however it was
cut, the items are what the peer wrote: behind the sends of which all bytes arrived the codec has as many frames left as
the peer's, an incomplete frame waits in the buffer, and raw bytes are passed on at once. `decode` returns nothing only
when nothing complete is buffered, and the input may end at a boundary only. -/
theorem padding_transparent (enabled : Bool) (sends : List Send) (hvalid : Valid (newCodec enabled) sends) :
    ∃ wire remaining, sendAll (newCodec enabled) sends = .ok (wire, remaining) ∧
      (∀ chunks : List Bytes, chunks.flatten <+: wire → ∃ items codec buffer,
        receive enabled chunks = some (items, codec, buffer) ∧
        (chunks.flatten = wire → items.flatten = payloads sends ∧ codec = remaining ∧ buffer = []) ∧
        (∀ k done remaining' rest, sendAll (newCodec enabled) (sends.take k) = .ok (done, remaining') →
          chunks.flatten = done ++ rest →
          (remaining' = 0 → items.flatten = payloads (sends.take k) ++ rest ∧ codec = 0 ∧ buffer = []) ∧
          (0 < remaining' → Starved remaining' rest →
            items.flatten = payloads (sends.take k) ∧ codec = remaining' ∧ buffer = rest)) ∧
        ((decodeEof codec buffer).1 = .ok none ↔ Boundary (newCodec enabled) sends chunks.flatten) ∧
        (¬ Boundary (newCodec enabled) sends chunks.flatten →
          (decodeEof codec buffer).1 = .error (.other "bytes remaining on stream"))) ∧
      ∀ codec buffer, (decode codec buffer).1 = none → Starved (decode codec buffer).2.1 (decode codec buffer).2.2 := by
  obtain ⟨wire, remaining, hsend, hparse⟩ := parse_sendAll _ sends hvalid
  refine ⟨wire, remaining, hsend, fun chunks hhead => ?_, fun codec buffer h => decode_none h⟩
  obtain ⟨items, hreceive, hitems⟩ := receive_spec enabled chunks
  have hrest := rest_eq_nil_iff _ sends wire remaining hvalid hsend chunks.flatten hhead
  have heof : decodeEof (parse (newCodec enabled) chunks.flatten).2.1 (parse (newCodec enabled) chunks.flatten).2.2 =
      (if (parse (newCodec enabled) chunks.flatten).2.2 = [] then .ok none
        else .error (.other "bytes remaining on stream"), (parse (newCodec enabled) chunks.flatten).2) := by
    simp only [decodeEof, decode_starved (parse_idle _ _)]
  refine ⟨items, _, _, hreceive, fun hall => ?_, fun k done remaining' rest hdone hsplit => ?_, ?_, fun hno => ?_⟩
  · have := hparse []
    rw [append_nil, parse_nil, append_nil] at this
    rw [hitems, hall, this]
    exact ⟨rfl, rfl, rfl⟩
  · obtain ⟨_, _, hdone', hparse'⟩ := parse_sendAll _ (sends.take k) (hvalid.take k)
    rw [hdone'] at hdone
    obtain ⟨rfl, rfl⟩ := Prod.mk.inj (Except.ok.inj hdone)
    rw [hitems, hsplit, hparse' rest]
    constructor
    · rintro rfl
      exact ⟨rfl, rfl, rfl⟩
    · intro hpos hstarved
      obtain ⟨_, rfl⟩ := Nat.exists_eq_succ_of_ne_zero (Nat.pos_iff_ne_zero.1 hpos)
      rw [parse_incomplete (starved_succ.1 hstarved), append_nil]
      exact ⟨rfl, rfl, rfl⟩
  · rw [heof, ← hrest]
    split_ifs with h
    · exact ⟨fun _ => h, fun _ => rfl⟩
    · exact ⟨nofun, fun hnil => absurd hnil h⟩
  · rw [heof, if_neg fun h => hno (hrest.1 h)]

theorem padding_transparent_split : ∃ wire remaining,
    sendAll 8 [.write [7, 8] 1, .blank [5], .write [9] 0] = .ok (wire, remaining) ∧
      ∃ items codec buffer, receive true [[0, 2, 1, 7], [8, 0, 0, 0]] = some (items, codec, buffer) ∧
        items.flatten = [7, 8] ∧ codec = 7 ∧ buffer = [0, 0] := by
  have hvalid : Valid (newCodec true) [.write [7, 8] 1, .blank [5], .write [9] 0] := by
    simp [Valid, newCodec, firstPaddings, maxPayload]
  obtain ⟨wire, remaining, hsend, hall, -⟩ := padding_transparent true _ hvalid
  obtain ⟨rfl, rfl⟩ := Prod.mk.inj (Except.ok.inj (show Except.ok ([0, 2, 1, 7, 8, 0, 0, 0, 1, 5, 0, 1, 0, 9], 5) =
    Except.ok (wire, remaining) from (by rfl : _ = sendAll 8 [.write [7, 8] 1, .blank [5], .write [9] 0]).trans hsend))
  obtain ⟨items, codec, buffer, hreceive, -, hdone, -⟩ := hall [[0, 2, 1, 7], [8, 0, 0, 0]] (by decide)
  refine ⟨_, _, hsend, items, codec, buffer, hreceive, ?_⟩
  exact (hdone 1 [0, 2, 1, 7, 8, 0] 7 [0, 0] rfl rfl).2 (by decide) (starved_succ.2 (by decide))

end Kotoconn.Naive
