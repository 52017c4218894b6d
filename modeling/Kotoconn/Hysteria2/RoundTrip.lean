import Kotoconn.Hysteria2.Delivery

/-! # Fragmentation and reassembly are inverse -/

namespace Kotoconn.Hysteria2

open Lib Protocol List

variable {e : WireEnv} {target : Target} {text : String} {session : UInt32} {packet : UInt16} {value : Packet} {mtu : Nat}
  {frames : List Bytes}

/-! ## Addresses -/

theorem address_eq_ok (h : address e target = .ok text) : (asBytes text).length ≤ maxAddress ∧ match target with
    | .ip address port => text = e.formatSocket address port
    | .domain name port => domainAllowed name = true ∧ text = formatDomain name port := by
  cases target with
  | ip address =>
    simp only [Hysteria2.address, pure_bind] at h
    split_ifs at h with hlen
    · cases h
      exact ⟨hlen, rfl⟩
    · cases h
  | domain name =>
    by_cases hname : domainAllowed name = true
    · simp only [Hysteria2.address, hname, if_true, pure_bind] at h
      split_ifs at h with hlen
      · cases h
        exact ⟨hlen, hname, rfl⟩
      · cases h
    · simp only [Hysteria2.address, hname, if_false, Bool.false_eq_true] at h
      cases h

theorem parseDomain_formatDomain {name : String} (h : domainAllowed name = true) (port : UInt16) :
    parseDomain (formatDomain name port) = .ok (.domain name port) := by
  have hcolon : ':' ∉ formatPort port := fun hc => absurd (isDigit_formatPort port _ hc) (by decide)
  rw [parseDomain, formatDomain, String.toList_ofList, rsplitOnce_append hcolon]
  simp only [String.ofList_toList, h, if_true, parsePort_formatPort]

theorem parseAddress_address (he : e.Inverse)
    (htarget : ∀ name port, target = .domain name port → e.ipv4Literal name = false) (h : address e target = .ok text) :
    parseAddress e text = .ok target := by
  obtain ⟨hlen, hform⟩ := address_eq_ok h
  rw [parseAddress, if_pos hlen]
  cases target with
  | ip =>
    rw [hform, he.socket]
  | domain name port =>
    obtain ⟨hname, rfl⟩ := hform
    rw [he.domain name port hname (htarget name port rfl)]
    exact parseDomain_formatDomain hname port

/-! ## Datagrams -/

def addressField (e : WireEnv) (text : String) : Bytes := e.varintEncode (asBytes text).length ++ asBytes text

def datagram (session : UInt32) (packet : UInt16) (index count : Nat) (field payload : Bytes) : Bytes :=
  toBytes 4 session.toNat ++ toBytes 2 packet.toNat ++ [UInt8.ofNat index, UInt8.ofNat count] ++ field ++ payload

theorem length_datagram (index count : Nat) (field payload : Bytes) :
    (datagram session packet index count field payload).length = 8 + field.length + payload.length := by
  simp [datagram]
  omega

theorem putVarint_eq {v : Nat} (hv : v < 2 ^ 62) : putVarint e v = .ok (e.varintEncode v) := if_pos hv

theorem putField_eq {value : Bytes} (hv : value.length < 2 ^ 62) :
    putField e value = .ok (e.varintEncode value.length ++ value) := by
  rw [putField, putVarint_eq hv]
  rfl

theorem putField_text (h : (asBytes text).length ≤ maxAddress) :
    putField e (asBytes text) = .ok (addressField e text) :=
  putField_eq (lt_of_le_of_lt h (by decide))

theorem datagramHeader_eq_ok {header : Bytes} (h : datagramHeader e session packet target = .ok header) :
    ∃ text, address e target = .ok text ∧
      header = toBytes 4 session.toNat ++ toBytes 2 packet.toNat ++ [0, 1] ++ addressField e text := by
  unfold datagramHeader at h
  cases haddress : address e target with
  | error => rw [haddress] at h; cases h
  | ok text =>
    simp only [haddress, bind, Except.bind, putField_text (address_eq_ok haddress).1] at h
    cases h
    exact ⟨text, rfl, rfl⟩

theorem fragments_eq_ok (h : fragments e session packet value mtu = .ok frames) :
    ∃ text, address e value.target = .ok text ∧ value.payload.length ≤ maxPayload ∧
      8 + (addressField e text).length < mtu ∧
      fragmentCount value.payload.length (mtu - (8 + (addressField e text).length)) ≤ 255 ∧
      frames = (List.range (fragmentCount value.payload.length (mtu - (8 + (addressField e text).length)))).map fun i =>
        datagram session packet i (fragmentCount value.payload.length (mtu - (8 + (addressField e text).length)))
          (addressField e text) (fragmentPayload value.payload (mtu - (8 + (addressField e text).length)) i) := by
  unfold fragments at h
  split_ifs at h with hsize
  · cases h
  · cases hheader : datagramHeader e session packet value.target with
    | error => rw [hheader] at h; cases h
    | ok =>
      obtain ⟨text, haddress, rfl⟩ := datagramHeader_eq_ok hheader
      have hlength : (toBytes 4 session.toNat ++ toBytes 2 packet.toNat ++ [0, 1] ++ addressField e text).length =
          8 + (addressField e text).length := by
        simp
        omega
      rw [hheader] at h
      simp only [bind, Except.bind, hlength] at h
      split_ifs at h with hmtu hcount
      · cases h
      · cases h
      · cases h
        exact ⟨text, haddress, not_lt.1 hsize, not_le.1 hmtu, not_lt.1 hcount, rfl⟩

theorem Fragment.decode_datagram (he : e.Inverse) (hparse : parseAddress e text = .ok target)
    (htext : (asBytes text).length ≤ maxAddress) {index count : Nat} (hindex : index < count) (hcount : count ≤ 255)
    {payload : Bytes} (hpayload : payload.length ≤ maxPayload) :
    ∃ f, Fragment.decode e (datagram session packet index count (addressField e text) payload) = .ok f ∧
      f.key = (session, packet) ∧ f.target = target ∧ f.count.toNat = count ∧ f.index.toNat = index ∧
      f.payload = payload := by
  have hcount' : (UInt8.ofNat count).toNat = count := by simp; omega
  have hindex' : (UInt8.ofNat index).toNat = index := by simp; omega
  have hvalid : 0 < UInt8.ofNat count ∧ (UInt8.ofNat count = 1 ∨ UInt8.ofNat index < UInt8.ofNat count) := by
    rw [UInt8.lt_iff_toNat_lt, UInt8.lt_iff_toNat_lt, hcount', hindex']
    exact ⟨Nat.zero_lt_of_lt hindex, .inr hindex⟩
  have hpos : 0 < (addressField e text).length := by
    rw [addressField, length_append]
    have := length_pos_iff.2 (he.varint_ne (asBytes text).length)
    omega
  refine ⟨⟨session, packet, UInt8.ofNat index, UInt8.ofNat count, target, payload, hvalid, hpayload⟩, ?_, rfl, rfl,
    hcount', hindex', rfl⟩
  obtain ⟨bytes, hbytes⟩ : ∃ b, b = datagram session packet index count (addressField e text) payload := ⟨_, rfl⟩
  have hb : bytes = layout [(4, session.toNat), (2, packet.toNat), (1, index), (1, count)] ++
      (e.varintEncode (asBytes text).length ++ (asBytes text ++ payload)) := by
    simp [hbytes, datagram, addressField, layout, toBytes]
  rw [← hbytes]
  have hsession : numberAt bytes 0 4 = session.toNat := numberAt_layout hb 0 rfl session.toNat_lt
  have hpacket : numberAt bytes 4 2 = packet.toNat := numberAt_layout hb 1 rfl packet.toNat_lt
  have hi : numberAt bytes 6 1 = index := numberAt_layout hb 2 rfl (by omega)
  have hc : numberAt bytes 7 1 = count := numberAt_layout hb 3 rfl (by omega)
  have hdrop : bytes.drop 8 = e.varintEncode (asBytes text).length ++ (asBytes text ++ payload) := by
    rw [hb]
    exact drop_left' (by simp [layout])
  have hvarint := he.varint (asBytes text).length (asBytes text ++ payload) (lt_of_le_of_lt htext (by decide))
  have hlong : 9 ≤ bytes.length := by
    rw [hbytes, length_datagram]
    omega
  simp only [decode, if_pos hlong, hsession, hpacket, hi, hc, UInt32.ofNat_toNat, UInt16.ofNat_toNat, dif_pos hvalid,
    decodeBody, hdrop, hvarint]
  rw [if_pos ⟨htext, by simp⟩, take_left, fromUtf8_asBytes]
  simp only [hparse, drop_left]
  rw [dif_pos hpayload]

/-! ## Chunks -/

theorem flatten_fragmentPayload (payload : Bytes) (capacity n : Nat) :
    ((List.range n).map (fragmentPayload payload capacity)).flatten = payload.take (n * capacity) := by
  induction n with
  | zero => simp
  | succ _ ih =>
    rw [range_succ, map_append, flatten_append, ih, Nat.succ_mul, take_add, map_singleton,
      flatten_singleton, fragmentPayload, slice, drop_take]
    congr 1
    rw [take_eq_take_iff, length_drop]
    omega

theorem flatten_fragments (payload : Bytes) {capacity : Nat} (h : 0 < capacity) :
    ((List.range (fragmentCount payload.length capacity)).map (fragmentPayload payload capacity)).flatten = payload := by
  rw [flatten_fragmentPayload]
  refine take_of_length_le ?_
  have hdiv := Nat.div_add_mod (payload.length + capacity - 1) capacity
  have hmod := Nat.mod_lt (payload.length + capacity - 1) h
  rw [mul_comm] at hdiv
  have hle : (payload.length + capacity - 1) / capacity * capacity ≤
      fragmentCount payload.length capacity * capacity := Nat.mul_le_mul_right _ (le_max_left _ _)
  omega

theorem length_fragmentPayload_le (payload : Bytes) (capacity i : Nat) :
    (fragmentPayload payload capacity i).length ≤ capacity := by
  rw [fragmentPayload, length_slice]
  omega

theorem exists_map_ok {ε α β : Type} {g : α → Except ε β} {l : List α} (h : ∀ a ∈ l, ∃ b, g a = .ok b) :
    ∃ bs : List β, l.map g = bs.map .ok := by
  induction l with
  | nil => exact ⟨[], rfl⟩
  | cons a _ ih =>
    obtain ⟨b, hb⟩ := h a mem_cons_self
    obtain ⟨bs, hbs⟩ := ih fun x hx => h x (mem_cons_of_mem a hx)
    exact ⟨b :: bs, by rw [map_cons, hb, hbs, map_cons]⟩

/-! ## The round trip -/

/-- The datagrams fit the MTU and decode to fragments that carry all indexes; when the decoded fragments arrive in any
order, repeated in any way and within ten seconds, every call before all indexes occurred hands out nothing, and the
first call after which they all did hands out the packet and leaves nothing held. -/
def Recovers (e : WireEnv) (session : UInt32) (value : Packet) (mtu : Nat) (frames : List Bytes) : Prop :=
  frames ≠ [] ∧ (∀ bytes ∈ frames, bytes.length ≤ mtu) ∧
  ∃ parts : List Fragment, frames.map (Fragment.decode e) = parts.map .ok ∧ Arrived frames.length parts ∧
    ∀ (seen : List (Nat × Fragment)) (now : Nat) (part : Fragment),
      (∀ call ∈ seen ++ [(now, part)], call.2 ∈ parts) →
      (seen ++ [(now, part)]).Pairwise (fun a b => b.1 - a.1 < fragmentRetention) →
      ¬ Arrived frames.length (seen.map Prod.snd) →
      ∃ s, Reassembly.empty.receiveAll seen = some (List.replicate seen.length (.ok none), s) ∧
        (¬ Arrived frames.length (seen.map Prod.snd ++ [part]) → ∃ s', s.receive now part = some (.ok none, s')) ∧
        (Arrived frames.length (seen.map Prod.snd ++ [part]) →
          s.receive now part = some (.ok (some (session, value)), Reassembly.empty))

/-- **Fragmentation and reassembly are inverse.** -/
theorem fragments_round_trip (he : e.Inverse)
    (htarget : ∀ name port, value.target = .domain name port → e.ipv4Literal name = false)
    (h : fragments e session packet value mtu = .ok frames) : Recovers e session value mtu frames := by
  obtain ⟨text, haddress, hpayload, _, hcount, rfl⟩ := fragments_eq_ok h
  have htext := (address_eq_ok haddress).1
  have hparse := parseAddress_address he htarget haddress
  generalize hcapacity : mtu - (8 + (addressField e text).length) = capacity at hcount ⊢
  generalize hn : fragmentCount value.payload.length capacity = n at hcount ⊢
  have hflat : ((List.range n).map (fragmentPayload value.payload capacity)).flatten = value.payload := by
    rw [← hn]
    exact flatten_fragments value.payload (by omega)
  have htotal : ((List.range n).map fun i => (fragmentPayload value.payload capacity i).length).sum ≤ maxPayload := by
    have := congrArg List.length hflat
    rw [List.length_flatten, List.map_map] at this
    exact le_trans (le_of_eq this) hpayload
  have hdecode : ∀ i < n, ∃ f, Fragment.decode e (datagram session packet i n (addressField e text)
      (fragmentPayload value.payload capacity i)) = .ok f ∧ f.index.toNat = i ∧
      f.PieceOf (session, packet) value.target n (fragmentPayload value.payload capacity) := by
    intro i hi
    have hchunk := le_trans (single_le_sum (fun _ _ => zero_le) _
      (List.mem_map.2 ⟨i, mem_range.2 hi, rfl⟩)) htotal
    obtain ⟨f, hf, hkey, htarget, hcount, hindex, hbytes⟩ := Fragment.decode_datagram he hparse htext hi hcount hchunk
    exact ⟨f, hf, hindex, hkey, htarget, hcount, by omega, by rw [hindex]; exact hbytes⟩
  obtain ⟨parts, hparts⟩ := exists_map_ok (g := Fragment.decode e) (l := (List.range n).map fun i =>
    datagram session packet i n (addressField e text) (fragmentPayload value.payload capacity i)) (by
      intro bytes hbytes
      obtain ⟨i, hi, rfl⟩ := List.mem_map.1 hbytes
      obtain ⟨f, hf, -⟩ := hdecode i (mem_range.1 hi)
      exact ⟨f, hf⟩)
  have hpos : 0 < n := by rw [← hn]; exact lt_of_lt_of_le Nat.one_pos (le_max_right _ _)
  refine ⟨by simp; omega, fun bytes hbytes => ?_, parts, hparts, fun i hi => ?_,
    fun seen now part hcalls htime hmissing => ?_⟩
  · obtain ⟨i, -, rfl⟩ := List.mem_map.1 hbytes
    have := length_fragmentPayload_le value.payload capacity i
    rw [length_datagram]
    omega
  · rw [length_map, length_range] at hi
    obtain ⟨f, hf, hindex, -⟩ := hdecode i hi
    have hmem : Except.ok f ∈ parts.map .ok := hparts ▸ List.mem_map.2 ⟨_, List.mem_map.2 ⟨i, mem_range.2 hi, rfl⟩, hf⟩
    obtain ⟨_, hmem, heq⟩ := List.mem_map.1 hmem
    exact ⟨f, Except.ok.inj heq ▸ hmem, hindex⟩
  · have hpiece : ∀ f ∈ parts,
        f.PieceOf (session, packet) value.target n (fragmentPayload value.payload capacity) := by
      intro f hf
      have hmem : (Except.ok f : Except Error Fragment) ∈ parts.map .ok := List.mem_map.2 ⟨f, hf, rfl⟩
      rw [← hparts] at hmem
      obtain ⟨_, hbytes, hok⟩ := List.mem_map.1 hmem
      obtain ⟨i, hi, rfl⟩ := List.mem_map.1 hbytes
      obtain ⟨_, hf', -, hp⟩ := hdecode i (mem_range.1 hi)
      rw [hf'] at hok
      obtain rfl := Except.ok.inj hok
      exact hp
    rw [length_map, length_range] at hmissing ⊢
    have hpieces : Reassembly.Pieces (session, packet) value.target n (fragmentPayload value.payload capacity)
        (seen ++ [(now, part)]) := by
      refine ⟨fun f hf => ?_, htime⟩
      obtain ⟨call, hcall, rfl⟩ := List.mem_map.1 hf
      exact hpiece _ (hcalls call hcall)
    have hreceive := Reassembly.receive_pieces htotal hpos hpieces hmissing
    rwa [hflat] at hreceive

/-! ## An instance -/

def addressNumber : IpAddr → Nat
  | .v4 address => 2 * address.toNat
  | .v6 address => 2 * address.toNat + 1

def numberAddress (n : Nat) : IpAddr := if n % 2 = 0 then .v4 (.ofNat 32 (n / 2)) else .v6 (.ofNat 128 (n / 2))

theorem numberAddress_addressNumber (address : IpAddr) : numberAddress (addressNumber address) = address := by
  cases address with
  | v4 =>
    rw [addressNumber, numberAddress, if_pos (by omega), Nat.mul_div_cancel_left _ (by decide), BitVec.ofNat_toNat]
    simp
  | v6 a =>
    rw [addressNumber, numberAddress, if_neg (by omega), show (2 * a.toNat + 1) / 2 = a.toNat by omega,
      BitVec.ofNat_toNat]
    simp

def plainWire : WireEnv where
  varintEncode n := toBytes 8 n
  varintDecode b := if 8 ≤ b.length then some (bigEndian (b.take 8), b.drop 8) else none
  formatSocket address port := String.ofList ('[' :: (Nat.toDigits 10 (addressNumber address) ++ ']' :: formatPort port))
  parseSocket text :=
    match text.toList with
    | '[' :: rest =>
      match rsplitOnce ']' rest with
      | none => none
      | some (number, port) => (parsePort port).map fun port => (numberAddress (Nat.ofDigitChars 10 number 0), port)
    | _ => none
  ipv4Literal _ := false

theorem plainWire_inverse : plainWire.Inverse where
  varint value rest h := by
    have hlength : (toBytes 8 value).length = 8 := length_toBytes 8 value
    have htake : (toBytes 8 value ++ rest).take 8 = toBytes 8 value := take_left' hlength
    have hdrop : (toBytes 8 value ++ rest).drop 8 = rest := drop_left' hlength
    have hvalue : bigEndian (toBytes 8 value) = value := bigEndian_toBytes (Nat.lt_trans h (by decide))
    simp only [plainWire, length_append, hlength, Nat.le_add_right, if_true, htake, hdrop, hvalue]
  varint_ne value h := by
    have := congrArg List.length h
    simp [plainWire] at this
  socket address port := by
    have hbracket : ']' ∉ formatPort port := fun hc => absurd (isDigit_formatPort port _ hc) (by decide)
    simp only [plainWire, String.toList_ofList, rsplitOnce_append hbracket, parsePort_formatPort, Option.map_some]
    rw [Nat.ofDigitChars_toDigits (by decide) (by decide), numberAddress_addressNumber]
  domain name port h _ := by
    simp only [plainWire, formatDomain, String.toList_ofList]
    split
    · rename_i rest hrest
      simp only [domainAllowed, Bool.and_eq_true, decide_eq_true_eq, List.all_eq_true] at h
      cases hname : name.toList with
      | nil => exact absurd hname h.1
      | cons c =>
        rw [hname, cons_append, List.cons.injEq] at hrest
        have := h.2 c (by rw [hname]; exact mem_cons_self)
        rw [hrest.1] at this
        exact absurd this (by decide)
    · rfl

theorem fragments_round_trip_two : ∃ frames,
    fragments plainWire 1 2 ⟨.domain "a" 53, List.replicate 15 7⟩ 30 = .ok frames ∧ frames.length = 2 ∧
      Recovers plainWire 1 ⟨.domain "a" 53, List.replicate 15 7⟩ 30 frames := by
  have hframes : fragments plainWire 1 2 ⟨.domain "a" 53, List.replicate 15 7⟩ 30 = .ok _ := rfl
  exact ⟨_, hframes, rfl, fragments_round_trip plainWire_inverse (fun _ _ _ => rfl) hframes⟩

end Kotoconn.Hysteria2
