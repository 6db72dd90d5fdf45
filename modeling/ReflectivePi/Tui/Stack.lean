import Mathlib.Data.Rat.Floor
import Mathlib.Algebra.BigOperators.Group.List.Basic
import Mathlib.Data.List.Forall2

/-!
# Tui — sizes in a stack

A stack hands its space out to its entries: what is left over goes to those
that grow, what is missing is taken from those that shrink, in rounds of
rounded proportional shares. Numbers are exact; `Stack` has made the weights,
the limits and the gap natural numbers, a basis is any number.
-/

namespace ReflectivePi.Tui.Stack

open List

def maxSafeInteger : ℕ := 9007199254740991

structure StackLayoutEntry where
  /-- `none` where it is absent or `"auto"` -/
  basis : Option ℚ := none
  grow : Option ℕ := none
  shrink : Option ℕ := none
  minSize : Option ℕ := none
  maxSize : Option ℕ := none

namespace StackLayoutEntry

variable (entry : StackLayoutEntry)

def min : ℕ := entry.minSize.getD 0

def max : ℕ := entry.maxSize.getD maxSafeInteger

end StackLayoutEntry

inductive Mode where
  | grow
  | shrink
  deriving DecidableEq

/-- An entry and its size so far. -/
abbrev Slot := StackLayoutEntry × ℕ

namespace Slot

def move (mode : Mode) (slot : Slot) (delta : ℕ) : Slot :=
  match mode with
  | .grow => (slot.1, slot.2 + delta)
  | .shrink => (slot.1, slot.2 - delta)

end Slot

open Slot

def total (slots : List Slot) : ℕ := (slots.map Prod.snd).sum

variable {mode : Mode} {slot new : Slot} {slots slots' : List Slot} {remaining weights : ℕ}

/-- A size goes one way, and not past its limit. -/
def Moves (mode : Mode) (old new : Slot) : Prop :=
  new.1 = old.1 ∧ match mode with
    | .grow => old.2 ≤ new.2 ∧ (old.2 ≤ old.1.max → new.2 ≤ old.1.max)
    | .shrink => new.2 ≤ old.2 ∧ (old.1.min ≤ old.2 → old.1.min ≤ new.2)

theorem Moves.refl (mode : Mode) (slot : Slot) : Moves mode slot slot := by
  cases mode <;> exact ⟨rfl, Nat.le_refl _, id⟩

theorem Moves.trans {a b c : Slot} (hab : Moves mode a b) (hbc : Moves mode b c) :
    Moves mode a c := by
  obtain ⟨he, h⟩ := hab
  obtain ⟨he', h'⟩ := hbc
  rw [he] at h'
  refine ⟨he'.trans he, ?_⟩
  cases mode with
  | grow => omega
  | shrink => omega

/-- The minimum is not above the maximum. -/
def StackLayoutEntry.Proper (entry : StackLayoutEntry) : Prop := entry.min ≤ entry.max

instance (entry : StackLayoutEntry) : Decidable entry.Proper := inferInstanceAs (Decidable (_ ≤ _))

/-- The size of a slot is in its limits. -/
def Within (slot : Slot) : Prop := slot.1.min ≤ slot.2 ∧ slot.2 ≤ slot.1.max

theorem Moves.within {old : Slot} (h : Moves mode old new) (hold : Within old) : Within new := by
  obtain ⟨he, h⟩ := h
  obtain ⟨hmin, hmax⟩ := hold
  rw [Within, he]
  cases mode with
  | grow => omega
  | shrink => omega

variable {entries : List StackLayoutEntry}

end ReflectivePi.Tui.Stack
