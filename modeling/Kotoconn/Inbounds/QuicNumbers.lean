import Kotoconn.Inbounds.Quic

/-! # Packet numbers are recovered -/

namespace Kotoconn.Inbounds.Quic
open Lib List Option

def expected (largest : Option Nat) : Nat := largest.elim 0 (· + 1)

/-- The packet numbers that fit in `length` bytes next to the expected one. -/
structure InWindow (length : Nat) (largest : Option Nat) (n : Nat) : Prop where
  lower : (expected largest : Int) - 2 ^ (8 * length - 1) < n
  upper : (n : Int) ≤ expected largest + 2 ^ (8 * length - 1)

theorem and_window {e k : Nat} (he : e < 2 ^ 64) (hk : k ≤ 64) :
    e &&& (2 ^ 64 - 1 - (2 ^ k - 1)) = 2 ^ k * (e / 2 ^ k) := by
  have hlt : 2 ^ k - 1 < 2 ^ 64 := lt_of_lt_of_le (Nat.sub_one_lt (Nat.two_pow_pos k).ne')
    (Nat.pow_le_pow_right (by decide) hk)
  apply Nat.eq_of_testBit_eq
  intro i
  rw [Nat.testBit_and, Nat.sub_sub, add_comm 1, Nat.testBit_two_pow_sub_succ hlt, Nat.testBit_two_pow_sub_one,
    Nat.testBit_two_pow_mul, Nat.testBit_div_two_pow]
  by_cases hi : k ≤ i
  · have hbit : 64 ≤ i → e.testBit i = false := fun h =>
      Nat.testBit_lt_two_pow (lt_of_lt_of_le he (Nat.pow_le_pow_right (by decide) h))
    by_cases h64 : i < 64
    · simp [hi, h64, Nat.sub_add_cancel hi]
    · simp [hbit (not_lt.1 h64), Nat.sub_add_cancel hi]
  · simp [hi, not_le.1 hi]

theorem add64_eq {a b : Nat} (h : a + b < 2 ^ 64) : add64 a b = some (a + b) := if_pos h

theorem nearest_eq {e half c n : Nat} (hhalf : half ≤ 2 ^ 31) (he : e ≤ 2 ^ 62) (hn : n < 2 ^ 62)
    (hlower : e < n + half) (hupper : n ≤ e + half) (hc : c = n ∨ c + 2 * half = n ∨ c = n + 2 * half) :
    nearest e (2 * half) c = some n := by
  unfold nearest
  simp only [Nat.mul_div_cancel_left half Nat.zero_lt_two]
  rw [add64_eq (by omega), add64_eq (by omega), add64_eq (by omega)]
  simp only [bind_eq_bind, bind_some, map_some]
  rcases hc with rfl | rfl | rfl
  · rw [if_neg (by omega), if_neg Bool.false_ne_true, if_neg (by omega)]
  · rw [if_pos (by omega), if_pos (decide_eq_true hn)]
  · rw [if_neg (by omega), if_neg Bool.false_ne_true, if_pos (by omega), Nat.add_sub_cancel]

theorem block_cases {w e n : Nat} (hlower : e < n + w) (hupper : n < e + w) :
    w * (e / w) + n % w = n ∨ w * (e / w) + n % w + w = n ∨ w * (e / w) + n % w = n + w := by
  have hw : 0 < w := by omega
  have hdiv := Nat.div_add_mod n w
  have hn : n / w ≤ e / w + 1 := by
    rw [← Nat.add_div_right _ hw]
    exact Nat.div_le_div_right hupper.le
  have he : e / w ≤ n / w + 1 := by
    rw [← Nat.add_div_right _ hw]
    exact Nat.div_le_div_right hlower.le
  rcases (by omega : n / w = e / w ∨ n / w = e / w + 1 ∨ e / w = n / w + 1) with h | h | h
  · exact .inl (h ▸ hdiv)
  · rw [h, Nat.mul_succ] at hdiv
    omega
  · rw [h, Nat.mul_succ]
    omega

/-- **A truncated number stands for the one number in its window.** No sum exceeds 64 bits. -/
theorem packetNumber_eq {length n : Nat} {largest : Option Nat} (hlength : 1 ≤ length ∧ length ≤ 4)
    (hlargest : ∀ m ∈ largest, m < 2 ^ 62) (hn : n < 2 ^ 62) (hwindow : InWindow length largest n) :
    packetNumber (n % 2 ^ (8 * length)) length largest = some n := by
  obtain ⟨half, hhalf⟩ : ∃ half, half = 2 ^ (8 * length - 1) := ⟨_, rfl⟩
  have hwide : 2 ^ (length * 8) = 2 * half := by
    rw [hhalf, ← Nat.pow_succ', Nat.succ_eq_add_one, Nat.sub_add_cancel (by omega), mul_comm]
  have hsmall : half ≤ 2 ^ 31 := hhalf ▸ Nat.pow_le_pow_right (by decide) (by omega)
  have hle : expected largest ≤ 2 ^ 62 := by
    cases largest with
    | none => exact zero_le
    | some m => exact hlargest m rfl
  have hexpected : largest.elim (some 0) (add64 · 1) = some (expected largest) := by
    cases largest with
    | none => rfl
    | some m => exact add64_eq (lt_of_le_of_lt hle (by decide))
  have hcast : ((2 : Int) ^ (8 * length - 1)) = half := by
    rw [hhalf]
    norm_cast
  have hlower := hwindow.lower
  have hupper := hwindow.upper
  rw [hcast] at hlower hupper
  have hcandidate : expected largest &&& (2 ^ 64 - 1 - (2 ^ (length * 8) - 1)) ||| n % 2 ^ (length * 8) =
      2 * half * (expected largest / (2 * half)) + n % (2 * half) := by
    rw [and_window (by omega) (by omega), ← hwide]
    exact (Nat.two_pow_add_eq_or_of_lt (Nat.mod_lt _ (Nat.two_pow_pos _)) _).symm
  rw [packetNumber, hexpected, mul_comm 8]
  simp only [bind_eq_bind, bind_some, if_pos (show length * 8 < 64 by omega), hcandidate]
  rw [hwide]
  exact nearest_eq hsmall hle hn (by omega) (by omega) (block_cases (by omega) (by omega))

/-! ## The packets of a connection -/

def Call.Keeps (x : Call) (s : Inspector) : Prop :=
  x.2.connection = s.connection ∧ x.2.largestPacket = s.largestPacket

theorem Call.Keeps.andThen {x : Call} {f : Inspector → Call} {s : Inspector} (hx : x.Keeps s)
    (hf : ∀ s' : Inspector, (f s').Keeps s') : (x.andThen f).Keeps s := by
  unfold Call.andThen
  split
  · exact ⟨(hf x.2).1.trans hx.1, (hf x.2).2.trans hx.2⟩
  · exact hx

namespace Inspector

theorem copy_keeps (position : Nat) (fragment : Bytes) (s : Inspector) : (copy position fragment s).Keeps s := by
  induction fragment generalizing position s with
  | nil => exact ⟨rfl, rfl⟩
  | cons _ _ ih =>
    unfold copy
    split
    · split_ifs
      · exact ⟨rfl, rfl⟩
      · exact Call.Keeps.andThen ⟨rfl, rfl⟩ fun s => ih _ s
    · exact ⟨rfl, rfl⟩

theorem put_keeps (s : Inspector) (f : Cursor.Frame) : (s.put f).Keeps s := by
  cases f with
  | skip => exact ⟨rfl, rfl⟩
  | crypto offset fragment =>
    have hcopy : ∀ s : Inspector, ((copy offset fragment s).andThen advance).Keeps s := fun s =>
      (copy_keeps offset fragment s).andThen fun s => by
        unfold advance
        simp only
        split_ifs <;> exact ⟨rfl, rfl⟩
    unfold put store
    simp only
    split_ifs
    · exact ⟨rfl, rfl⟩
    · exact hcopy _
    · exact ⟨rfl, rfl⟩
    · exact hcopy _
    · exact ⟨rfl, rfl⟩

theorem frames_keeps (s : Inspector) (bytes : Bytes) : (s.frames bytes).Keeps s := by
  have hwithin : ∀ n (s : Inspector) b, (framesWithin n s b).Keeps s := by
    intro n
    induction n with
    | zero =>
      intro s b
      cases b <;> exact ⟨rfl, rfl⟩
    | succ n ih =>
      intro s b
      cases b with
      | nil => exact ⟨rfl, rfl⟩
      | cons =>
        unfold framesWithin
        simp only
        split
        · exact Call.Keeps.andThen ⟨rfl, rfl⟩ fun s => (put_keeps s _).andThen fun s => ih s _
        · exact ⟨rfl, rfl⟩
        · exact ⟨rfl, rfl⟩
  exact hwithin _ s bytes

end Inspector

variable {κ : Type} {p : Protection κ} {connection : Nat × Bytes} {numbers : List Nat} {s : Inspector}
  {datagram : Bytes} {key : κ} {h : Header} {u : Unmasked} {n : Nat}

theorem length_of_unmask {packet : Bytes} {pnOffset : Nat} (hu : unmask p key packet pnOffset = some u) :
    1 ≤ u.length ∧ u.length ≤ 4 := by
  unfold unmask at hu
  split_ifs at hu
  split at hu
  · cases hu
  · obtain ⟨⟨first, pn⟩, -, hu⟩ := bind_eq_some_iff.1 hu
    simp only at hu
    split_ifs at hu
    cases hu
    have hle : (first &&& 3).toNat ≤ 3 := by
      rw [UInt8.toNat_and]
      exact Nat.and_le_right
    exact ⟨Nat.succ_pos _, Nat.succ_le_succ hle⟩

/-- A datagram of a connection, whose sender numbered it `n`. -/
structure Carries (p : Protection κ) (connection : Nat × Bytes) (datagram : Bytes) (key : κ) (h : Header)
    (u : Unmasked) (n : Nat) : Prop where
  header : ∃ rest, (header datagram).result = .ok (h, rest)
  connection : (h.version, h.dcid) = connection
  keys : p.keys h.tlsVersion h.dcid = some key
  unmask : unmask p key (datagram.take (h.pnOffset + h.payloadLen)) h.pnOffset = some u
  truncated : u.truncated = n % 2 ^ (8 * u.length)
  lt : n < 2 ^ 62

/-- Packets of one connection, with the numbers of those that were decrypted, the last one first. Each number is in
the window of the largest one before. -/
inductive Decrypts (p : Protection κ) (connection : Nat × Bytes) : List Nat → Inspector → Prop
  | new : Decrypts p connection [] .new
  | packet {numbers : List Nat} {s : Inspector} {datagram : Bytes} {key : κ} {h : Header} {u : Unmasked} {n : Nat}
      (hs : Decrypts p connection numbers s) (hd : Carries p connection datagram key h u n)
      (hwindow : InWindow u.length numbers.max? n) :
      Decrypts p connection (if (p.decrypt key n u.header u.payload).isSome then n :: numbers else numbers)
        (s.initial p datagram).1.2

theorem Carries.initial_eq (hd : Carries p connection datagram key h u n) (hc : ∀ c ∈ s.connection, c = connection)
    (hlargest : ∀ m ∈ s.largestPacket, m < 2 ^ 62) (hwindow : InWindow u.length s.largestPacket n) :
    (s.initial p datagram).1 = s.decrypted p key h u n := by
  obtain ⟨rest, hheader⟩ := hd.header
  have hnumber := packetNumber_eq (length_of_unmask hd.unmask) hlargest hd.lt hwindow
  have hsame : s.connection.any (· ≠ (h.version, h.dcid)) = false := by
    rw [hd.connection]
    cases hs : s.connection with
    | none => rfl
    | some c => simp [hc c hs]
  unfold Inspector.initial
  simp only [hheader, hsame, hd.keys, hd.unmask, hd.truncated, hnumber]
  rfl

theorem Decrypts.spec (hs : Decrypts p connection numbers s) : s.largestPacket = numbers.max? ∧
    (∀ c ∈ s.connection, c = connection) ∧ ∀ m ∈ numbers, m < 2 ^ 62 := by
  induction hs with
  | new => exact ⟨rfl, nofun, nofun⟩
  | @packet numbers s datagram key h u n _ hd hwindow ih =>
    obtain ⟨hlargest, hc, hlt⟩ := ih
    have hmax : ∀ m ∈ s.largestPacket, m < 2 ^ 62 := fun m hm => hlt m (max?_mem (hlargest ▸ hm))
    rw [hd.initial_eq hc hmax (hlargest ▸ hwindow), Inspector.decrypted]
    cases p.decrypt key n u.header u.payload with
    | none => exact ⟨hlargest, hc, hlt⟩
    | some plaintext =>
      obtain ⟨hconnection, hkept⟩ := Inspector.frames_keeps { s with
        connection := some (h.version, h.dcid), largestPacket := some (s.largestPacket.elim n (max · n)) } plaintext
      refine ⟨hkept.trans ?_, fun c hc => ?_, fun m hm => ?_⟩
      · rw [hlargest]
        simp only [isSome_some, if_true, max?_cons]
        cases numbers.max? with
        | none => rfl
        | some m => exact congrArg some (Nat.max_comm m n)
      · rw [hconnection] at hc
        exact (some.inj hc).symm.trans hd.connection
      · rcases mem_cons.1 hm with rfl | hm
        · exact hd.lt
        · exact hlt m hm

/-- **QUIC packet numbers are recovered exactly**: in every window, and along the packets of a connection. -/
theorem packet_numbers_recovered (p : Protection κ) (connection : Nat × Bytes) :
    (∀ (length n : Nat) (largest : Option Nat), 1 ≤ length ∧ length ≤ 4 → (∀ m ∈ largest, m < 2 ^ 62) → n < 2 ^ 62 →
      InWindow length largest n → packetNumber (n % 2 ^ (8 * length)) length largest = some n) ∧
    ∀ (numbers : List Nat) (s : Inspector), Decrypts p connection numbers s → s.largestPacket = numbers.max? ∧
      ∀ (datagram : Bytes) (key : κ) (h : Header) (u : Unmasked) (n : Nat), Carries p connection datagram key h u n →
        InWindow u.length numbers.max? n → (s.initial p datagram).1 = s.decrypted p key h u n := by
  refine ⟨fun length n largest => packetNumber_eq, fun numbers s hs => ?_⟩
  obtain ⟨hlargest, hc, hlt⟩ := hs.spec
  refine ⟨hlargest, fun datagram key h u n hd hwindow => hd.initial_eq hc (fun m hm => ?_) (hlargest ▸ hwindow)⟩
  exact hlt m (max?_mem (hlargest ▸ hm))

def plain : Protection Unit where
  keys _ _ := some ()
  sampleLen _ := 0
  unmask _ _ first pn := some (first, pn)
  decrypt _ _ _ payload := some payload

def padding (number : UInt8) : Bytes := [0xc0, 0, 0, 0, 1, 0, 0, 0, 4, number, 0, 0, 0]

theorem packet_numbers_recovered_wrap : ∃ s, Decrypts plain (1, []) [220, 100] s ∧ s.largestPacket = some 220 ∧
    (s.initial plain (padding 44)).1.2.largestPacket = some 300 := by
  have hcarries : ∀ (b : UInt8) n, n < 2 ^ 62 → b.toNat = n % 256 → Carries plain (1, []) (padding b) ()
      ⟨1, .v1, [], 9, 4⟩ ⟨1, 0 * 256 + b.toNat, [0xc0, 0, 0, 0, 1, 0, 0, 0, 4, b], [0, 0, 0]⟩ n := fun b n hlt hb =>
    ⟨⟨[], rfl⟩, rfl, rfl, rfl, (Nat.zero_add _).trans hb, hlt⟩
  have hfirst := Decrypts.packet .new (hcarries 100 100 (by decide) rfl) ⟨by decide, by decide⟩
  have hsecond := Decrypts.packet hfirst (hcarries 220 220 (by decide) rfl) ⟨by decide, by decide⟩
  obtain ⟨hlargest, hnumber⟩ := (packet_numbers_recovered plain (1, [])).2 _ _ hsecond
  refine ⟨_, hsecond, hlargest, ?_⟩
  rw [hnumber _ _ _ _ _ (hcarries 44 300 (by decide) rfl) ⟨by decide, by decide⟩]
  rfl

end Kotoconn.Inbounds.Quic
