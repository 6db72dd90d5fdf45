import Mathlib.Data.List.Infix

/-!
# Lib — Longest

The longest of the prefixes of a list that have a property, and the longest of
its suffixes. Where the property passes to shorter ones, it is enough that one
more element loses it.
-/

namespace ReflectivePi.Longest

open List

variable {α : Type} {p : List α → Prop} {kept rest text : List α}

structure LongestPrefix (p : List α → Prop) (kept text : List α) : Prop where
  isPrefix : kept <+: text
  holds : p kept
  longest : ∀ other, other <+: text → p other → other <+: kept

theorem LongestPrefix.of_next (hmono : ∀ before after, p (before ++ after) → p before)
    (hkept : p kept) (hnext : ∀ a more, rest = a :: more → ¬ p (kept ++ [a])) :
    LongestPrefix p kept (kept ++ rest) where
  isPrefix := prefix_append kept rest
  holds := hkept
  longest := by
    intro other hother hp
    rcases prefix_or_prefix_of_prefix hother (prefix_append kept rest) with
      hle | ⟨more, rfl⟩
    · exact hle
    · cases more with
      | nil => rw [append_nil]
      | cons a more =>
        obtain ⟨after, rfl⟩ := (prefix_append_right_inj kept).mp hother
        refine absurd (hmono _ more ?_) (hnext a (more ++ after) rfl)
        rwa [append_assoc, singleton_append]

structure LongestSuffix (p : List α → Prop) (kept text : List α) : Prop where
  isSuffix : kept <:+ text
  holds : p kept
  longest : ∀ other, other <:+ text → p other → other <:+ kept

theorem LongestSuffix.of_reverse
    (h : LongestPrefix (fun l => p l.reverse) kept.reverse text.reverse) :
    LongestSuffix p kept text where
  isSuffix := List.reverse_prefix.mp h.isPrefix
  holds := by
    have hkept := h.holds
    rwa [reverse_reverse] at hkept
  longest := fun other hother hp =>
    List.reverse_prefix.mp
      (h.longest other.reverse (List.reverse_prefix.mpr hother) (by rwa [reverse_reverse]))

theorem LongestSuffix.of_next (hmono : ∀ before after, p (before ++ after) → p after)
    (hkept : p kept) (hnext : ∀ more a, rest = more ++ [a] → ¬ p (a :: kept)) :
    LongestSuffix p kept (rest ++ kept) := by
  refine .of_reverse ?_
  rw [reverse_append]
  refine .of_next ?_ ?_ ?_
  · intro before after hp
    rw [reverse_append] at hp
    exact hmono _ _ hp
  · rwa [reverse_reverse]
  · intro a more hrest hp
    rw [reverse_append, reverse_reverse] at hp
    exact hnext more.reverse a (List.reverse_eq_cons_iff.mp hrest) hp

end ReflectivePi.Longest
