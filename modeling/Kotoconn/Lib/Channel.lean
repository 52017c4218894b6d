import Mathlib

/-!
# Bounded channels

A channel passes items from one writer to one reader in order. Either side may leave.
-/

namespace Kotoconn.Lib

inductive Poll (α : Type) where
  | ready (a : α)
  | pending
  deriving DecidableEq

/-- A channel; `closed` is set by the writer, `gone` by the reader. -/
structure Channel (α : Type) where
  accepted : List α
  received : List α
  queue : List α
  closed : Bool
  gone : Bool

namespace Channel
variable {α : Type} {c c' : Channel α}

def empty : Channel α := ⟨[], [], [], false, false⟩

/-- A write under the bound `target`: `none` is a refusal. An open channel below the bound takes at least one item. -/
inductive Write (c : Channel α) (target : Nat) (data : List α) : Poll (Option Nat) → Channel α → Prop
  | nothing (hdata : data = []) : Write c target data (.ready (some 0)) c
  | refused (hdata : data ≠ []) (hclosed : c.closed = true ∨ c.gone = true) : Write c target data (.ready none) c
  | full (hdata : data ≠ []) (hclosed : c.closed = false) (hgone : c.gone = false) (hfull : target ≤ c.queue.length) :
      Write c target data .pending c
  | accepted (n : Nat) (hpos : 0 < n) (hn : n ≤ data.length) (hclosed : c.closed = false) (hgone : c.gone = false)
      (hfit : c.queue.length + n ≤ target) :
      Write c target data (.ready (some n))
        { c with accepted := c.accepted ++ data.take n, queue := c.queue ++ data.take n }

/-- A read of at most `room` items. An empty result is the end. -/
inductive Read (c : Channel α) (room : Nat) : Poll (List α) → Channel α → Prop
  | nothing (hroom : room = 0) : Read c room (.ready []) c
  | received (hroom : 0 < room) (hqueue : c.queue ≠ []) :
      Read c room (.ready (c.queue.take room))
        { c with received := c.received ++ c.queue.take room, queue := c.queue.drop room }
  | ended (hroom : 0 < room) (hqueue : c.queue = []) (hclosed : c.closed = true) : Read c room (.ready []) c
  | blocked (hroom : 0 < room) (hqueue : c.queue = []) (hclosed : c.closed = false) : Read c room .pending c

def close (c : Channel α) : Channel α := { c with closed := true }

def leave (c : Channel α) : Channel α := { c with gone := true, queue := [] }

def Conserved (c : Channel α) : Prop := c.gone = false → c.received ++ c.queue = c.accepted

theorem conserved_empty : (empty : Channel α).Conserved := fun _ => rfl

theorem Conserved.write {target : Nat} {data : List α} {r : Poll (Option Nat)} (h : c.Conserved)
    (hw : c.Write target data r c') : c'.Conserved := by
  cases hw with
  | nothing | refused | full => exact h
  | accepted =>
    intro hgone
    have heq := h hgone
    simp only
    rw [← List.append_assoc, heq]

theorem Conserved.read {room : Nat} {r : Poll (List α)} (h : c.Conserved) (hr : c.Read room r c') : c'.Conserved := by
  cases hr with
  | nothing | ended | blocked => exact h
  | received =>
    intro hgone
    have heq := h hgone
    simp only
    rw [List.append_assoc, List.take_append_drop, heq]

theorem Conserved.close (h : c.Conserved) : c.close.Conserved := h

theorem conserved_leave (c : Channel α) : c.leave.Conserved := nofun

theorem Write.frame {target : Nat} {data : List α} {r : Poll (Option Nat)} (hw : c.Write target data r c') :
    c'.closed = c.closed ∧ c'.gone = c.gone ∧ c'.received = c.received := by
  cases hw with
  | nothing | refused | full | accepted => exact ⟨rfl, rfl, rfl⟩

theorem Read.frame {room : Nat} {r : Poll (List α)} (hr : c.Read room r c') :
    c'.closed = c.closed ∧ c'.gone = c.gone ∧ c'.accepted = c.accepted := by
  cases hr with
  | nothing | received | ended | blocked => exact ⟨rfl, rfl, rfl⟩

end Channel

end Kotoconn.Lib
