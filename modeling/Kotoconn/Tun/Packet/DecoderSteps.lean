import Kotoconn.Lib.Overlay
import Kotoconn.Tun.Packet.Decoder

/-!
# What a decoder call can do

Whatever the budget answers, a call changes the table of assemblies in one of the ways listed here.
-/

namespace Kotoconn.Tun

open Lib Option Table

variable {L A : Type} {e : DecoderEnv L A} {d d' : Decoder A} {l l' : L}

instance : Piece Copied := ⟨Copied.offset, Copied.data⟩

theorem Copied.stop_eq (c : Copied) : stop c = c.offset + c.data.length := rfl

/-! ## Expiry -/

/-- Every assembly expires at `nextExpiry` or later. -/
def Decoder.Timely (d : Decoder A) : Prop :=
  ∀ k a, d.fragments.lookup k = some a → ∃ t, d.nextExpiry = some t ∧ t ≤ a.expires

namespace Decoder

theorem Timely.new : (new : Decoder A).Timely := fun k a h => by
  simp [Decoder.new] at h

theorem Timely.insertNew (h : d.Timely) (e : DecoderEnv L A) (c : Copied) : (d.insertNew e c).Timely := by
  intro k a hk
  refine ⟨_, rfl, ?_⟩
  rcases lookup_insert_iff.1 hk with ⟨-, rfl⟩ | ⟨-, hk⟩
  · change _ ≤ c.deadline
    split
    · exact min_le_right _ _
    · exact le_rfl
  · obtain ⟨_, ht, hle⟩ := h k a hk
    simp only [ht]
    exact le_trans (min_le_left _ _) hle

theorem Timely.erase (h : d.Timely) (key : FragmentKey) :
    ({ d with fragments := d.fragments.erase key } : Decoder A).Timely := fun k a hk =>
  h k a (lookup_erase_iff.1 hk).2

theorem Timely.replace (h : d.Timely) {key : FragmentKey} {a b : Assembly A} (ha : d.fragments.lookup key = some a)
    (hb : b.expires = a.expires) : ({ d with fragments := d.fragments.insert key b } : Decoder A).Timely := by
  intro k a' hk
  rcases lookup_insert_iff.1 hk with ⟨-, rfl⟩ | ⟨-, hk⟩
  · rw [hb]
    exact h key a ha
  · exact h k a' hk

/-- **`expire` leaves exactly the live assemblies.** -/
theorem expire_lookup (h : d.Timely) {now : Nat} (hx : d.expire e l now = some (d', l')) :
    d'.Timely ∧ ∀ k a, d'.fragments.lookup k = some a ↔ d.fragments.lookup k = some a ∧ now < a.expires := by
  unfold expire at hx
  split_ifs at hx with hdue
  · obtain ⟨_, -, hx⟩ := bind_eq_some_iff.1 hx
    obtain ⟨rfl, rfl⟩ := Prod.mk.inj (some.inj hx)
    refine ⟨fun k a hk => ?_, fun k a => ?_⟩
    · exact exists_min?_le (List.mem_map_of_mem (Table.mem_values_of_lookup hk))
    · rw [lookup_retain]
      simp
  · obtain ⟨rfl, rfl⟩ := Prod.mk.inj (some.inj hx)
    refine ⟨h, fun k a => ⟨fun hk => ⟨hk, ?_⟩, fun hk => hk.1⟩⟩
    obtain ⟨_, ht, _⟩ := h k a hk
    rw [ht] at hdue
    simp only [any_some, decide_eq_true_eq] at hdue
    omega

end Decoder

/-! ## One fragment -/

structure Stored (e : DecoderEnv L A) (a : Assembly A) (c : Copied) (b : Assembly A) : Prop where
  passes : (a.raisePrefix c).conflicts e c = false
  result : ∃ ranges capacity held, e.assembler.add a.ranges c.offset c.data.length = some ranges ∧
    b = ((a.raisePrefix c).extend (stop c) capacity held).store ranges c

inductive Merged (e : DecoderEnv L A) (d : Decoder A) (a : Assembly A) (c : Copied) : Outcome A → Decoder A → Prop where
  | poisons {b : Assembly A} : b.poisoned = true → b.binding = a.binding → b.expires = a.expires →
      b.copied = a.copied → Merged e d a c .poisons { d with fragments := d.fragments.insert c.key b }
  | dropped : (a.raisePrefix c).conflicts e c = false → Merged e d a c .dropped { d with fragments := d.fragments.erase c.key }
  | waiting {b : Assembly A} : Stored e a c b → b.total ≠ some (e.assembler.peekFront b.ranges) →
      Merged e d a c .waiting { d with fragments := d.fragments.insert c.key b }
  | complete {b : Assembly A} : Stored e a c b → b.total = some (e.assembler.peekFront b.ranges) →
      Merged e d a c (.complete b) { d with fragments := d.fragments.erase c.key }

theorem Assembly.raisePrefix_eq (a : Assembly A) (c : Copied) :
    a.raisePrefix c = { a with prefixLen := if c.key.ipv4Protocol.isSome then max a.prefixLen c.prefixLen else
      a.prefixLen } := by
  unfold Assembly.raisePrefix
  split_ifs <;> rfl

theorem Stored.keeps {a b : Assembly A} {c : Copied} (h : Stored e a c b) :
    b.binding = a.binding ∧ b.expires = a.expires ∧ b.copied = a.copied ++ [c] := by
  obtain ⟨_, _, _, -, rfl⟩ := h.result
  rw [Assembly.raisePrefix_eq]
  exact ⟨rfl, rfl, rfl⟩

theorem Assembly.poison_spec {a b : Assembly A} {now : Nat} (h : a.poison e l now = some (b, l')) :
    b.poisoned = true ∧ b.binding = a.binding ∧ b.expires = a.expires ∧ b.copied = a.copied := by
  obtain ⟨⟨_, _⟩, -, h⟩ := bind_eq_some_iff.1 h
  obtain ⟨rfl, -⟩ := Prod.mk.inj (some.inj h)
  exact ⟨rfl, rfl, rfl, rfl⟩

theorem Assembly.grow_spec {a b : Assembly A} {stop now : Nat} (h : a.grow e l stop now = some (some b, l')) :
    ∃ capacity held, b = a.extend stop capacity held := by
  obtain ⟨⟨r1, _⟩, -, h⟩ := bind_eq_some_iff.1 h
  cases r1 with
  | false =>
    obtain ⟨l2, -, h⟩ := bind_eq_some_iff.1 h
    cases h
  | true =>
    obtain ⟨⟨r2, _⟩, -, h⟩ := bind_eq_some_iff.1 h
    cases r2 with
    | false =>
      obtain ⟨_, -, h⟩ := bind_eq_some_iff.1 h
      cases h
    | true =>
      obtain ⟨hb, -⟩ := Prod.mk.inj (some.inj h)
      exact ⟨_, _, (some.inj hb).symm⟩

theorem Decoder.merge_cases {a : Assembly A} {c : Copied} {o : Outcome A} (h : d.merge e l a c = some (o, d', l')) :
    Merged e d a c o d' := by
  unfold Decoder.merge at h
  simp only at h
  split_ifs at h with hconflict
  · obtain ⟨⟨b, l1⟩, hp, h⟩ := bind_eq_some_iff.1 h
    cases h
    obtain ⟨h1, h2, h3, h4⟩ := Assembly.poison_spec hp
    rw [Assembly.raisePrefix_eq] at h2 h3 h4
    exact .poisons h1 h2 h3 h4
  · obtain ⟨⟨grown, _⟩, hg, h⟩ := bind_eq_some_iff.1 h
    cases grown with
    | none =>
      cases h
      exact .dropped (Bool.eq_false_iff.2 hconflict)
    | some b =>
      obtain ⟨capacity, held, rfl⟩ := Assembly.grow_spec hg
      have hbinding : (a.raisePrefix c).binding = a.binding := by rw [Assembly.raisePrefix_eq]
      have hexpires : (a.raisePrefix c).expires = a.expires := by rw [Assembly.raisePrefix_eq]
      have hcopied : (a.raisePrefix c).copied = a.copied := by rw [Assembly.raisePrefix_eq]
      have hranges : ((a.raisePrefix c).extend (c.offset + c.data.length) capacity held).ranges = a.ranges := by
        rw [Assembly.raisePrefix_eq]
        rfl
      simp only [hranges] at h
      cases hadd : e.assembler.add a.ranges c.offset c.data.length with
      | none =>
        simp only [hadd] at h
        obtain ⟨⟨_, l2⟩, hp, h⟩ := bind_eq_some_iff.1 h
        cases h
        obtain ⟨h1, h2, h3, h4⟩ := Assembly.poison_spec hp
        exact .poisons h1 (h2.trans hbinding) (h3.trans hexpires) (h4.trans hcopied)
      | some ranges =>
        simp only [hadd] at h
        have hstored := Stored.mk (Bool.eq_false_iff.2 hconflict) ⟨ranges, capacity, held, hadd, rfl⟩
        split_ifs at h with htotal
        · cases h
          exact .waiting hstored htotal
        · obtain ⟨_, -, h⟩ := bind_eq_some_iff.1 h
          cases h
          exact .complete hstored (not_not.1 htotal)

theorem Merged.poisons_of_conflicts {a : Assembly A} {c : Copied} {o : Outcome A} (h : Merged e d a c o d')
    (hconflict : (a.raisePrefix c).conflicts e c = true) : o = .poisons := by
  cases h with
  | poisons => rfl
  | dropped hpasses => exact absurd hconflict (Bool.eq_false_iff.1 hpasses)
  | waiting hstored => exact absurd hconflict (Bool.eq_false_iff.1 hstored.passes)
  | complete hstored => exact absurd hconflict (Bool.eq_false_iff.1 hstored.passes)

theorem Decoder.merge_stores {a g : Assembly A} {c : Copied} {ranges : A} {l1 : L}
    (hpass : (a.raisePrefix c).conflicts e c = false)
    (hgrow : (a.raisePrefix c).grow e l (stop c) c.arrived = some (some g, l1))
    (hadd : e.assembler.add g.ranges c.offset c.data.length = some ranges) : d.merge e l a c =
      if (g.store ranges c).total ≠ some (e.assembler.peekFront ranges) then
        some (.waiting, { d with fragments := d.fragments.insert c.key (g.store ranges c) }, l1)
      else (e.leases.drop (e.leases.complete l1 (g.store ranges c).held c.arrived) (g.store ranges c).held).bind
        fun l => some (.complete (g.store ranges c), { d with fragments := d.fragments.erase c.key }, l) := by
  unfold Decoder.merge
  simp only [hpass, Bool.false_eq_true, if_false, ← Copied.stop_eq, hgrow, bind_eq_bind, bind_some, hadd]

/-- The outcomes of `reassemble`, once expired assemblies are gone. -/
inductive Reassembles (e : DecoderEnv L A) (d : Decoder A) (c : Copied) : Outcome A → Decoder A → Prop where
  | refused : d.fragments.lookup c.key = none → Reassembles e d c .refused d
  | ignored {a : Assembly A} : d.fragments.lookup c.key = some a → a.poisoned = true → Reassembles e d c .ignored d
  | found {a : Assembly A} {o : Outcome A} {d' : Decoder A} : d.fragments.lookup c.key = some a →
      a.poisoned = false → Merged e d a c o d' → Reassembles e d c o d'
  | inserted {o : Outcome A} {d' : Decoder A} : d.fragments.lookup c.key = none →
      Merged e (d.insertNew e c) (Assembly.new e c) c o d' → Reassembles e d c o d'

/-- **Everything `reassemble` can do to the table.** -/
theorem Decoder.reassemble_cases {key : FragmentKey} {protocol : IpProtocol} {fragment : Fragment} {data : Bytes}
    {now : Nat} {binding : Option Binding} {o : Outcome A}
    (h : d.reassemble e l key protocol fragment data now binding = some (o, d', l')) :
    ∃ d0 l0, d.expire e l now = some (d0, l0) ∧ Reassembles e d0
      ⟨key, protocol, fragment.offset, fragment.more, fragment.prefixLen, data, now, binding⟩ o d' := by
  unfold Decoder.reassemble at h
  split_ifs at h with hvalid
  obtain ⟨⟨d0, l0⟩, hexpire, h⟩ := bind_eq_some_iff.1 h
  refine ⟨d0, l0, hexpire, ?_⟩
  obtain ⟨⟨found, _, _⟩, henter, h⟩ := bind_eq_some_iff.1 h
  unfold Decoder.enter at henter
  simp only at henter h
  cases hlook : d0.fragments.lookup key with
  | some =>
    simp only [hlook] at henter
    cases henter
    simp only at h
    split_ifs at h with hp
    · cases h
      exact .ignored hlook hp
    · exact .found hlook (Bool.eq_false_iff.2 hp) (Decoder.merge_cases h)
  | none =>
    simp only [hlook] at henter
    obtain ⟨⟨reserved, _⟩, -, henter⟩ := bind_eq_some_iff.1 henter
    cases reserved with
    | false =>
      cases henter
      cases h
      exact .refused hlook
    | true =>
      cases henter
      exact .inserted hlook (Decoder.merge_cases h)

/-! ## The calls -/

namespace Decoder

theorem remove_cases {key : FragmentKey} (h : d.remove e l key = some (d', l')) :
    d' = d ∧ d.fragments.lookup key = none ∨ d' = { d with fragments := d.fragments.erase key } := by
  unfold remove at h
  cases hk : d.fragments.lookup key with
  | none =>
    rw [hk] at h
    cases h
    exact .inl ⟨rfl, rfl⟩
  | some =>
    rw [hk] at h
    obtain ⟨_, -, h⟩ := bind_eq_some_iff.1 h
    cases h
    exact .inr rfl

/-- An active binding's fragment is parsed, a foreign assembly evicted, and the fragment reassembled. -/
theorem decodeFragment_cases {data : Bytes} {now : Nat} {binding : Binding} {active : Bool} {r : Reply A}
    (h : d.decodeFragment e l data now binding active = some (r, d', l')) :
    (¬ (now < binding.expires ∧ active = true) ∧ r = .inactive ∧ d' = d) ∨
    (now < binding.expires ∧ active = true ∧ r = .filtered ∧ d' = d) ∨
    (now < binding.expires ∧ active = true ∧ ∃ p d1 l1 o l2, (parse e.wire data).result = .ok p ∧
      p.fragmentKey = some binding.key ∧ d.evictForeign e l binding = some (d1, l1) ∧ ∃ fragment,
      p.fragment = some fragment ∧ d1.reassemble e l1 binding.key p.ip.nextHeader fragment p.payload now (some binding)
        = some (o, d', l2) ∧ r = .fragment binding.key p.ip o) := by
  unfold decodeFragment at h
  split_ifs at h with hactive
  · cases hparse : (parse e.wire data).result with
    | panic =>
      rw [hparse] at h
      cases h
    | reject =>
      rw [hparse] at h
      cases h
      exact .inr (.inl ⟨hactive.1, hactive.2, rfl, rfl⟩)
    | ok p =>
      rw [hparse] at h
      simp only at h
      split_ifs at h with hkey
      obtain ⟨⟨d1, l1⟩, hevict, h⟩ := bind_eq_some_iff.1 h
      refine .inr (.inr ⟨hactive.1, hactive.2, p, d1, l1, ?_⟩)
      simp only [Parsed.decodeWith, hkey] at h
      cases hfragment : p.fragment with
      | none => simp [Parsed.fragmentKey, hfragment] at hkey
      | some fragment =>
        simp only [hfragment] at h
        obtain ⟨⟨o, _, _⟩, hre, h⟩ := bind_eq_some_iff.1 h
        cases h
        exact ⟨o, _, rfl, hkey, hevict, fragment, rfl, hre, rfl⟩
  · cases h
    exact .inl ⟨hactive, rfl, rfl⟩

/-- Without a binding, a fragment goes to reassembly and any other packet is returned as it is. -/
theorem decode_cases {data : Bytes} {now : Nat} {r : Reply A} (h : d.decode e l data now = some (r, d', l')) :
    (r = .filtered ∧ d' = d) ∨ (∃ packet, r = .whole packet ∧ d' = d) ∨
    ∃ p key fragment o, (parse e.wire data).result = .ok p ∧ p.fragment = some fragment ∧ p.fragmentKey = some key ∧
      d.reassemble e l key p.ip.nextHeader fragment p.payload now none = some (o, d', l') ∧ r = .fragment key p.ip o := by
  unfold decode at h
  cases hparse : (parse e.wire data).result with
  | panic =>
    rw [hparse] at h
    cases h
  | reject =>
    rw [hparse] at h
    cases h
    exact .inl ⟨rfl, rfl⟩
  | ok p =>
    rw [hparse] at h
    simp only [Parsed.decodeWith] at h
    split at h
    · obtain ⟨⟨o, _, _⟩, hre, h⟩ := bind_eq_some_iff.1 h
      cases h
      exact .inr (.inr ⟨p, _, _, o, rfl, ‹_›, ‹_›, hre, rfl⟩)
    · cases h
      exact .inr (.inl ⟨_, rfl, rfl⟩)

end Decoder

end Kotoconn.Tun
