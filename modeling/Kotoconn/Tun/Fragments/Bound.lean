import Kotoconn.Tun.Fragments.RoutesSteps
import Kotoconn.Tun.Packet.DecoderSteps

/-!
# What a decode call under a binding can do

`Decoder.decodeFragment_spec`: a call either leaves the decoder as it is, or merges the fragment into the assembly of
its binding, old or new (`Grown`). All other assemblies that are not overdue stay, and so does a poisoned one.
-/

namespace Kotoconn.Tun

open Lib Table

variable {L A : Type} {e : DecoderEnv L A} {d d' : Decoder A} {l l' : L} {now : Nat}

/-- `x` is the assembly `a` after the fragment `c`. -/
structure Grown (a : Assembly A) (c : Copied) (x : Assembly A) : Prop where
  binding : x.binding = a.binding
  expires : x.expires = a.expires
  copied : ∀ y ∈ x.copied, y ∈ a.copied ∨ y = c

theorem Stored.grown {a b : Assembly A} {c : Copied} (h : Stored e a c b) : Grown a c b := by
  obtain ⟨hbinding, hexpires, hcopied⟩ := h.keeps
  refine ⟨hbinding, hexpires, fun y hy => ?_⟩
  rw [hcopied] at hy
  simpa using hy

theorem Merged.touches {a : Assembly A} {c : Copied} {o : Outcome A} (h : Merged e d a c o d') :
    (∀ k x, d'.fragments.lookup k = some x → d.fragments.lookup k = some x ∨ k = c.key ∧ Grown a c x) ∧
    (∀ k x, k ≠ c.key → d.fragments.lookup k = some x → d'.fragments.lookup k = some x) ∧
    (∀ x, o = .complete x → Grown a c x ∧ d'.fragments.lookup c.key = none) ∧
    (o = .poisons → ∃ x, d'.fragments.lookup c.key = some x ∧ x.poisoned = true ∧ Grown a c x) := by
  -- the table after the fragment: its assembly is overwritten or erased
  have hinsert : ∀ b, Grown a c b → (∀ k x, (d.fragments.insert c.key b).lookup k = some x →
      d.fragments.lookup k = some x ∨ k = c.key ∧ Grown a c x) ∧ ∀ k x, k ≠ c.key →
      d.fragments.lookup k = some x → (d.fragments.insert c.key b).lookup k = some x := fun b hb =>
    ⟨fun k x hx => (lookup_insert_iff.1 hx).elim (fun h => .inr ⟨h.1, h.2 ▸ hb⟩) fun h => .inl h.2,
      fun k x hk hx => lookup_insert_iff.2 (.inr ⟨hk, hx⟩)⟩
  have herase : (∀ k x, (d.fragments.erase c.key).lookup k = some x →
      d.fragments.lookup k = some x ∨ k = c.key ∧ Grown a c x) ∧ ∀ k x, k ≠ c.key →
      d.fragments.lookup k = some x → (d.fragments.erase c.key).lookup k = some x :=
    ⟨fun k x hx => .inl (lookup_erase_iff.1 hx).2, fun k x hk hx => lookup_erase_iff.2 ⟨hk, hx⟩⟩
  cases h with
  | @poisons b hp hbinding hexpires hcopied =>
    have hgrown : Grown a c b := ⟨hbinding, hexpires, fun y hy => .inl (hcopied ▸ hy)⟩
    have := hinsert b hgrown
    exact ⟨this.1, this.2, (fun x hx => nomatch hx), fun _ => ⟨b, AList.lookup_insert _, hp, hgrown⟩⟩
  | dropped => exact ⟨herase.1, herase.2, (fun x hx => nomatch hx), fun hx => nomatch hx⟩
  | waiting hstored =>
    have := hinsert _ hstored.grown
    exact ⟨this.1, this.2, (fun x hx => nomatch hx), fun hx => nomatch hx⟩
  | complete hstored =>
    refine ⟨herase.1, herase.2, fun x hx => ?_, fun hx => nomatch hx⟩
    cases hx
    exact ⟨hstored.grown, AList.lookup_erase _ _⟩

theorem Reassembles.touches {c : Copied} {o : Outcome A} (h : Reassembles e d c o d') :
    ∃ base, (d.fragments.lookup c.key = some base ∨ base = Assembly.new e c) ∧
    (∀ k x, d'.fragments.lookup k = some x → d.fragments.lookup k = some x ∨ k = c.key ∧ Grown base c x) ∧
    (∀ k x, d.fragments.lookup k = some x → k ≠ c.key ∨ x.poisoned = true → d'.fragments.lookup k = some x) ∧
    (∀ x, o = .complete x → (Grown base c x ∧ d'.fragments.lookup c.key = none) ∧
      ∀ y, d.fragments.lookup c.key = some y → y.poisoned = false) ∧
    (o = .poisons → ∃ x, d'.fragments.lookup c.key = some x ∧ x.poisoned = true ∧ Grown base c x) := by
  cases h with
  | refused =>
    exact ⟨_, .inr rfl, fun k x hx => .inl hx, fun k x hx _ => hx, (fun x hx => nomatch hx), fun hx => nomatch hx⟩
  | ignored =>
    exact ⟨_, .inr rfl, fun k x hx => .inl hx, fun k x hx _ => hx, (fun x hx => nomatch hx), fun hx => nomatch hx⟩
  | @found a _ _ ha halive hmerged =>
    obtain ⟨hnew, hkept, hdone, hpoisons⟩ := hmerged.touches
    have halive' : ∀ y, d.fragments.lookup c.key = some y → y.poisoned = false := fun y hy =>
      Option.some.inj (ha.symm.trans hy) ▸ halive
    refine ⟨a, .inl ha, hnew, fun k x hx hor => ?_, fun x hx => ⟨hdone x hx, halive'⟩, hpoisons⟩
    by_cases hk : k = c.key
    · subst hk
      have := halive' x hx
      rw [hor.resolve_left (fun h => h rfl)] at this
      cases this
    · exact hkept k x hk hx
  | inserted hvacant hmerged =>
    obtain ⟨hnew, hkept, hdone, hpoisons⟩ := hmerged.touches
    refine ⟨_, .inr rfl, fun k x hx => ?_, fun k x hx _ => ?_, fun x hx => ⟨hdone x hx, fun y hy => ?_⟩, hpoisons⟩
    · rcases hnew k x hx with hx | hx
      · rcases lookup_insert_iff.1 hx with ⟨rfl, rfl⟩ | ⟨-, hx⟩
        · exact .inr ⟨rfl, rfl, rfl, fun y hy => .inl hy⟩
        · exact .inl hx
      · exact .inr hx
    · have hk : k ≠ c.key := by
        rintro rfl
        cases hvacant.symm.trans hx
      exact hkept k x hk (lookup_insert_iff.2 (.inr ⟨hk, hx⟩))
    · cases hvacant.symm.trans hy

def Assembly.Of (a : Assembly A) (b : Binding) : Prop := ∃ old, a.binding = some old ∧ old.id = b.id

namespace Decoder

theorem expire_keeps (h : d.expire e l now = some (d', l')) :
    (∀ k a, d'.fragments.lookup k = some a → d.fragments.lookup k = some a) ∧
    ∀ k a, d.fragments.lookup k = some a → now < a.expires → d'.fragments.lookup k = some a := by
  unfold expire at h
  split_ifs at h
  · obtain ⟨_, -, h⟩ := Option.bind_eq_some_iff.1 h
    cases h
    exact ⟨fun k a hk => (lookup_retain.1 hk).1,
      fun k a hk hlive => lookup_retain.2 ⟨hk, decide_eq_true hlive⟩⟩
  · cases h
    exact ⟨fun k a hk => hk, fun k a hk _ => hk⟩

theorem evictForeign_keeps {b : Binding} (h : d.evictForeign e l b = some (d', l')) :
    (∀ k a, d'.fragments.lookup k = some a → d.fragments.lookup k = some a ∧ (k = b.key → a.Of b)) ∧
    ∀ k a, d.fragments.lookup k = some a → (k = b.key → a.Of b) → d'.fragments.lookup k = some a := by
  unfold evictForeign at h
  by_cases hforeign : d.foreign b = true
  · rw [if_pos hforeign] at h
    unfold foreign at hforeign
    rcases remove_cases h with ⟨-, hnone⟩ | rfl
    · rw [hnone] at hforeign
      cases hforeign
    · refine ⟨fun k a hk => ?_, fun k a hk hof => lookup_erase_iff.2 ⟨?_, hk⟩⟩
      · obtain ⟨hne, hk⟩ := lookup_erase_iff.1 hk
        exact ⟨hk, fun heq => absurd heq hne⟩
      · rintro rfl
        obtain ⟨old, hold, hid⟩ := hof rfl
        simp [hk, hold, Binding.ptrEq, hid] at hforeign
  · rw [if_neg hforeign] at h
    cases h
    refine ⟨fun k a hk => ⟨hk, ?_⟩, fun k a hk _ => hk⟩
    rintro rfl
    unfold foreign at hforeign
    cases hbinding : a.binding with
    | none => simp [hk, hbinding] at hforeign
    | some old => exact ⟨old, hbinding, by simpa [hk, hbinding, Binding.ptrEq] using hforeign⟩

/-- The fragment that a call under the binding `b` copies. -/
def bound (b : Binding) (p : Parsed) (fragment : Fragment) (now : Nat) : Copied :=
  ⟨b.key, p.ip.nextHeader, fragment.offset, fragment.more, fragment.prefixLen, p.payload, now, some b⟩

structure Merges (e : DecoderEnv L A) (d : Decoder A) (b : Binding) (p : Parsed) (fragment : Fragment) (now : Nat)
    (o : Outcome A) (d' : Decoder A) (base : Assembly A) : Prop where
  old : d.fragments.lookup b.key = some base ∧ base.Of b ∨ base = Assembly.new e (bound b p fragment now)
  new : ∀ k x, d'.fragments.lookup k = some x →
    d.fragments.lookup k = some x ∨ k = b.key ∧ Grown base (bound b p fragment now) x
  kept : ∀ k x, d.fragments.lookup k = some x → now < x.expires → k ≠ b.key ∨ x.Of b ∧ x.poisoned = true →
    d'.fragments.lookup k = some x
  complete : ∀ x, o = .complete x →
    (Grown base (bound b p fragment now) x ∧ d'.fragments.lookup b.key = none) ∧
      ∀ y, d.fragments.lookup b.key = some y → y.Of b → now < y.expires → y.poisoned = false
  poisons : o = .poisons → ∃ x, d'.fragments.lookup b.key = some x ∧ x.poisoned = true ∧
    Grown base (bound b p fragment now) x

/-- **Everything `decode_fragment` can do.** -/
theorem decodeFragment_spec {data : Bytes} {b : Binding} {active : Bool} {reply : Reply A}
    (h : d.decodeFragment e l data now b active = some (reply, d', l')) :
    ((reply = .inactive ∨ reply = .filtered) ∧ d' = d) ∨
    (now < b.expires ∧ active = true ∧ ∃ p fragment o base, (parse e.wire data).result = .ok p ∧
      p.fragment = some fragment ∧ reply = .fragment b.key p.ip o ∧ Merges e d b p fragment now o d' base) := by
  rcases decodeFragment_cases h with ⟨-, rfl, rfl⟩ | ⟨-, -, rfl, rfl⟩ |
    ⟨hlive, hactive, p, d1, l1, o, l2, hparse, -, hevict, fragment, hfragment, hre, rfl⟩
  · exact .inl ⟨.inl rfl, rfl⟩
  · exact .inl ⟨.inr rfl, rfl⟩
  · obtain ⟨_, _, hexpire, hre⟩ := reassemble_cases hre
    obtain ⟨base, hbase, hnew, hkept, hdone, hpoisons⟩ := hre.touches
    obtain ⟨hsub, hback⟩ := expire_keeps hexpire
    obtain ⟨hsub1, hback1⟩ := evictForeign_keeps hevict
    refine .inr ⟨hlive, hactive, p, fragment, o, base, hparse, hfragment, rfl, ?_, ?_, ?_, ?_, hpoisons⟩
    · exact hbase.imp (fun hx => ⟨(hsub1 _ _ (hsub _ _ hx)).1, (hsub1 _ _ (hsub _ _ hx)).2 rfl⟩) id
    · exact fun k x hx => (hnew k x hx).imp (fun hx => (hsub1 _ _ (hsub _ _ hx)).1) id
    · intro k x hx hlive hor
      refine hkept k x (hback _ _ (hback1 _ _ hx fun hk => ?_) hlive) (hor.imp id And.right)
      exact (hor.resolve_left (fun h => h hk)).1
    · exact fun x hx => ⟨(hdone x hx).1, fun y hy hof hlive =>
        (hdone x hx).2 y (hback _ _ (hback1 _ _ hy fun _ => hof) hlive)⟩

/-- The assembly that a call under `b` merges the fragment `c` into: the one of this binding, or a new one. -/
inductive Current (e : DecoderEnv L A) (d : Decoder A) (b : Binding) (c : Copied) : Assembly A → Prop where
  | held {a : Assembly A} : d.fragments.lookup b.key = some a → a.Of b → a.poisoned = false → c.arrived < a.expires →
      Current e d b c a
  | fresh : (∀ x, d.fragments.lookup b.key = some x → ¬ x.Of b) → Current e d b c (Assembly.new e c)

/-- **A fragment that conflicts with its assembly poisons it**, unless there is no budget for a new assembly. -/
theorem decodeFragment_poisons {data : Bytes} {b : Binding} {reply : Reply A}
    (h : d.decodeFragment e l data now b true = some (reply, d', l')) (hlive : now < b.expires) {p : Parsed}
    (hparse : (parse e.wire data).result = .ok p) {fragment : Fragment} (hfragment : p.fragment = some fragment)
    {a : Assembly A} (ha : d.Current e b (bound b p fragment now) a)
    (hconflict : (a.raisePrefix (bound b p fragment now)).conflicts e (bound b p fragment now) = true) :
    reply = .fragment b.key p.ip .poisons ∨
    reply = .fragment b.key p.ip .refused ∧ ∀ x, d.fragments.lookup b.key = some x → ¬ x.Of b := by
  unfold decodeFragment at h
  rw [if_pos ⟨hlive, rfl⟩, hparse] at h
  simp only at h
  split_ifs at h with hkey
  obtain ⟨⟨_, _⟩, hevict, h⟩ := Option.bind_eq_some_iff.1 h
  simp only [Parsed.decodeWith, hkey, hfragment] at h
  obtain ⟨⟨_, _, _⟩, hre, h⟩ := Option.bind_eq_some_iff.1 h
  cases h
  obtain ⟨_, _, hexpire, hre⟩ := reassemble_cases hre
  obtain ⟨hsub, hback⟩ := expire_keeps hexpire
  obtain ⟨hsub1, hback1⟩ := evictForeign_keeps hevict
  cases ha with
  | held ha hof halive hexpires =>
    have ha' := hback _ a (hback1 _ a ha fun _ => hof) hexpires
    cases hre with
    | refused hnone => cases hnone.symm.trans ha'
    | ignored hx hp =>
      obtain rfl := Option.some.inj (hx.symm.trans ha')
      cases halive.symm.trans hp
    | found hx _ hmerged =>
      obtain rfl := Option.some.inj (hx.symm.trans ha')
      exact .inl (by rw [hmerged.poisons_of_conflicts hconflict])
    | inserted hnone => cases hnone.symm.trans ha'
  | fresh hnone =>
    have hgone : ∀ {x}, d.fragments.lookup b.key = some x → x.Of b → False := fun hx hof => hnone _ hx hof
    cases hre with
    | refused => exact .inr ⟨rfl, hnone⟩
    | ignored hx => exact (hgone (hsub1 _ _ (hsub _ _ hx)).1 ((hsub1 _ _ (hsub _ _ hx)).2 rfl)).elim
    | found hx => exact (hgone (hsub1 _ _ (hsub _ _ hx)).1 ((hsub1 _ _ (hsub _ _ hx)).2 rfl)).elim
    | inserted _ hmerged => exact .inl (by rw [hmerged.poisons_of_conflicts hconflict])

end Decoder

end Kotoconn.Tun
