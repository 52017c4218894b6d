import Mathlib

/-!
# Leases that are released once

`Leases holds acquired released`: the logs of who acquired something and who released it account for the present
holders, and nobody acquires or releases twice. `Leases.acquire` and `Leases.release` extend the logs.
-/

namespace Kotoconn.Lib
open List

variable {α : Type} {holds holds' : α → Prop} {acquired released out : List α} {a : α}

structure Leases (holds : α → Prop) (acquired released : List α) : Prop where
  acquired_nodup : acquired.Nodup
  released_nodup : released.Nodup
  released_acquired : ∀ a ∈ released, a ∈ acquired
  holding : ∀ {a}, holds a → a ∈ acquired ∧ a ∉ released
  once : ∀ a ∈ acquired, holds a ∨ a ∈ released

namespace Leases

theorem nil (h : ∀ a, ¬ holds a) : Leases holds [] [] :=
  ⟨nodup_nil, nodup_nil, nofun, fun ha => absurd ha (h _), nofun⟩

variable (h : Leases holds acquired released)
include h

theorem congr (hsame : ∀ a, holds' a ↔ holds a) : Leases holds' acquired released :=
  ⟨h.acquired_nodup, h.released_nodup, h.released_acquired, fun ha => h.holding ((hsame _).1 ha),
    fun a ha => (h.once a ha).imp_left (hsame a).2⟩

theorem acquire (hfresh : a ∉ acquired)
    (hsame : ∀ b, holds' b ↔ b = a ∨ holds b) : Leases holds' (acquired ++ [a]) released where
  acquired_nodup := (perm_append_singleton a acquired).nodup_iff.2 (nodup_cons.2 ⟨hfresh, h.acquired_nodup⟩)
  released_nodup := h.released_nodup
  released_acquired b hb := mem_append_left _ (h.released_acquired b hb)
  holding {b} hb := by
    rcases (hsame b).1 hb with rfl | hb
    · exact ⟨mem_append_right _ (mem_singleton_self _), fun hr => hfresh (h.released_acquired _ hr)⟩
    · exact ⟨mem_append_left _ (h.holding hb).1, (h.holding hb).2⟩
  once b hb := by
    rcases mem_append.1 hb with hb | hb
    · exact (h.once b hb).imp_left fun hb => (hsame b).2 (.inr hb)
    · exact .inl ((hsame b).2 (.inl (mem_singleton.1 hb)))

theorem release (hnodup : out.Nodup) (hout : ∀ a ∈ out, holds a)
    (hsame : ∀ a, holds' a ↔ holds a ∧ a ∉ out) : Leases holds' acquired (released ++ out) where
  acquired_nodup := h.acquired_nodup
  released_nodup := h.released_nodup.append hnodup fun a ha hb => (h.holding (hout a hb)).2 ha
  released_acquired a ha := by
    rcases mem_append.1 ha with ha | ha
    · exact h.released_acquired a ha
    · exact (h.holding (hout a ha)).1
  holding {a} ha := by
    obtain ⟨ha, hne⟩ := (hsame a).1 ha
    refine ⟨(h.holding ha).1, fun hr => ?_⟩
    exact (mem_append.1 hr).elim (h.holding ha).2 hne
  once a ha := by
    rcases h.once a ha with hholds | hr
    · by_cases hin : a ∈ out
      · exact .inr (mem_append_right _ hin)
      · exact .inl ((hsame a).2 ⟨hholds, hin⟩)
    · exact .inr (mem_append_left _ hr)

omit h

end Leases

end Kotoconn.Lib
