import Mathlib.Data.List.Basic

/-!
# Lib — Search

A text is a list of symbols. `OccursAt` says where a pattern occurs in it,
overlapping occurrences included; `indexOf` finds the first one, and `split`
cuts the text at the occurrences it meets from left to right, which do not
overlap.
-/

namespace ReflectivePi.Search

open List

variable {α : Type}

/-! ## Occurrences -/

/-- The pattern starts at position `i` of the text. -/
def OccursAt (pattern text : List α) (i : Nat) : Prop :=
  i ≤ text.length ∧ pattern <+: text.drop i

def Occurs (pattern text : List α) : Prop := ∃ i, OccursAt pattern text i

/-- The pattern occurs at exactly one position. -/
def Once (pattern text : List α) : Prop := ∃! i, OccursAt pattern text i

variable {pattern text : List α} {c : α} {i j k : Nat}

theorem occursAt_succ : OccursAt pattern (c :: text) (i + 1) ↔ OccursAt pattern text i :=
  and_congr_left fun _ => Nat.succ_le_succ_iff

theorem OccursAt.bound (h : OccursAt pattern text i) : i + pattern.length ≤ text.length := by
  obtain ⟨hi, hfront⟩ := h
  have hlength := hfront.length_le
  rw [length_drop] at hlength
  omega

theorem OccursAt.drop_eq (h : OccursAt pattern text i) :
    text.drop i = pattern ++ text.drop (i + pattern.length) := by
  obtain ⟨rest, hrest⟩ := h.2
  rw [← drop_drop, ← hrest, drop_left]

theorem Occurs.subset (h : Occurs pattern text) : pattern ⊆ text := by
  obtain ⟨i, -, hfront⟩ := h
  exact fun a ha => mem_of_mem_drop (hfront.subset ha)

/-- A pattern occurs behind the text that stands before it. -/
theorem occursAt_append (before after : List α) :
    OccursAt pattern (before ++ (pattern ++ after)) before.length := by
  refine ⟨?_, ?_⟩
  · simp
  simp

variable [DecidableEq α]

/-- `text.indexOf(pattern)`, `none` for `-1`. -/
def indexOf (pattern : List α) : List α → Option Nat
  | [] => if pattern = [] then some 0 else none
  | c :: text =>
    if pattern.isPrefixOf (c :: text) then some 0
    else (indexOf pattern text).map (· + 1)

theorem indexOf_some (h : indexOf pattern text = some i) :
    OccursAt pattern text i ∧ ∀ j, OccursAt pattern text j → i ≤ j := by
  induction text generalizing i with
  | nil =>
    rw [indexOf] at h
    split at h
    · rename_i hpattern
      cases h
      exact ⟨⟨Nat.le_refl 0, hpattern ▸ prefix_refl _⟩, fun j _ => Nat.zero_le j⟩
    · cases h
  | cons c text ih =>
    rw [indexOf] at h
    split at h
    · rename_i hfront
      cases h
      exact ⟨⟨Nat.zero_le _, List.isPrefixOf_iff_prefix.mp hfront⟩, fun j _ => Nat.zero_le j⟩
    · rename_i hfront
      obtain ⟨i, hi, rfl⟩ := Option.map_eq_some_iff.mp h
      obtain ⟨hoccurs, hfirst⟩ := ih hi
      refine ⟨occursAt_succ.mpr hoccurs, fun j hj => ?_⟩
      cases j with
      | zero => exact absurd (List.isPrefixOf_iff_prefix.mpr hj.2) hfront
      | succ j => exact Nat.succ_le_succ (hfirst j (occursAt_succ.mp hj))

theorem indexOf_isSome (h : OccursAt pattern text i) : (indexOf pattern text).isSome = true := by
  induction text generalizing i with
  | nil =>
    obtain ⟨-, hfront⟩ := h
    rw [drop_nil] at hfront
    rw [indexOf, if_pos (List.prefix_nil.mp hfront)]
    rfl
  | cons c text ih =>
    rw [indexOf]
    split
    · rfl
    · rename_i hfront
      rw [Option.isSome_map]
      cases i with
      | zero => exact absurd (List.isPrefixOf_iff_prefix.mpr h.2) hfront
      | succ i => exact ih (occursAt_succ.mp h)

theorem indexOf_eq_some :
    indexOf pattern text = some i ↔
      OccursAt pattern text i ∧ ∀ j, OccursAt pattern text j → i ≤ j := by
  refine ⟨indexOf_some, fun ⟨hoccurs, hfirst⟩ => ?_⟩
  obtain ⟨k, hk⟩ := Option.isSome_iff_exists.mp (indexOf_isSome hoccurs)
  obtain ⟨hoccurs', hfirst'⟩ := indexOf_some hk
  rw [hk, Nat.le_antisymm (hfirst' i hoccurs) (hfirst k hoccurs')]

theorem indexOf_eq_none : indexOf pattern text = none ↔ ¬ Occurs pattern text := by
  constructor
  · intro hnone ⟨i, hoccurs⟩
    have hsome := indexOf_isSome hoccurs
    rw [hnone] at hsome
    cases hsome
  · intro hno
    cases hindex : indexOf pattern text with
    | none => rfl
    | some i => exact absurd ⟨i, (indexOf_some hindex).1⟩ hno

/-! ## Texts in two parts -/

variable {before after : List α}

omit [DecidableEq α] in
theorem OccursAt.append_right (h : OccursAt pattern before i) :
    OccursAt pattern (before ++ after) i := by
  refine ⟨?_, ?_⟩
  · rw [length_append]
    exact Nat.le_add_right_of_le h.1
  · rw [drop_append_of_le_length h.1]
    exact h.2.trans (prefix_append _ _)

omit [DecidableEq α] in
theorem OccursAt.of_append (h : OccursAt pattern (before ++ after) i)
    (hbound : i + pattern.length ≤ before.length) : OccursAt pattern before i := by
  have hi : i ≤ before.length := Nat.le_of_add_right_le hbound
  refine ⟨hi, ?_⟩
  have hfront := h.2
  rw [drop_append_of_le_length hi] at hfront
  refine prefix_of_prefix_length_le hfront (prefix_append _ _) ?_
  rw [length_drop]
  omega

omit [DecidableEq α] in
theorem occursAt_append_left :
    OccursAt pattern (before ++ after) (before.length + i) ↔ OccursAt pattern after i := by
  rw [OccursAt, OccursAt, drop_append, length_append, Nat.add_le_add_iff_left,
    drop_eq_nil_of_le (Nat.le_add_right _ _), nil_append, Nat.add_sub_cancel_left]

theorem indexOf_append (h : indexOf pattern before = some i) :
    indexOf pattern (before ++ after) = some i := by
  obtain ⟨hoccurs, hfirst⟩ := indexOf_some h
  refine indexOf_eq_some.mpr ⟨hoccurs.append_right, fun j hj => ?_⟩
  by_contra hlt
  have hbound := hoccurs.bound
  exact hlt (hfirst j (hj.of_append (by omega)))

theorem indexOf_of_append (h : indexOf pattern (before ++ after) = some i)
    (hbound : i + pattern.length ≤ before.length) : indexOf pattern before = some i := by
  obtain ⟨hoccurs, hfirst⟩ := indexOf_some h
  exact indexOf_eq_some.mpr ⟨hoccurs.of_append hbound, fun j hj => hfirst j hj.append_right⟩

/-- A first occurrence behind a prefix is the first one of the rest. -/
theorem indexOf_drop (h : indexOf pattern (before ++ after) = some (before.length + i)) :
    indexOf pattern after = some i := by
  obtain ⟨hoccurs, hfirst⟩ := indexOf_some h
  refine indexOf_eq_some.mpr ⟨occursAt_append_left.mp hoccurs, fun j hj => ?_⟩
  have hle := hfirst _ (occursAt_append_left.mpr hj)
  omega

theorem indexOf_none_of_append (h : indexOf pattern (before ++ after) = none) :
    indexOf pattern before = none ∧ indexOf pattern after = none := by
  rw [indexOf_eq_none] at h ⊢
  rw [indexOf_eq_none]
  exact ⟨fun ⟨i, hi⟩ => h ⟨i, hi.append_right⟩,
    fun ⟨i, hi⟩ => h ⟨before.length + i, occursAt_append_left.mpr hi⟩⟩

/-- The loop of `split`: `skip` symbols of a separator are still to come, and
`piece` is what there is of the piece at hand. -/
def splitLoop (separator : List α) : Nat → List α → List α → List (List α)
  | _, piece, [] => [piece]
  | skip + 1, piece, _ :: text => splitLoop separator skip piece text
  | 0, piece, c :: text =>
    if separator.isPrefixOf (c :: text) then
      piece :: splitLoop separator (separator.length - 1) [] text
    else splitLoop separator 0 (piece ++ [c]) text

/-- `text.split(separator)`; an empty separator cuts between all symbols. -/
def split (text separator : List α) : List (List α) :=
  if separator = [] then text.map ([·]) else splitLoop separator 0 [] text

theorem splitLoop_of_none (skip : Nat) (piece : List α)
    (h : ∀ i, skip ≤ i → ¬ OccursAt pattern text i) :
    (splitLoop pattern skip piece text).length = 1 := by
  induction text generalizing skip piece with
  | nil => cases skip <;> rfl
  | cons c text ih =>
    cases skip with
    | succ skip =>
      exact ih skip piece fun i hi hoccurs =>
        h (i + 1) (Nat.succ_le_succ hi) (occursAt_succ.mpr hoccurs)
    | zero =>
      rw [splitLoop, if_neg]
      · exact ih 0 _ fun i _ hoccurs =>
          h (i + 1) (Nat.zero_le _) (occursAt_succ.mpr hoccurs)
      · exact fun hfront =>
          h 0 (Nat.le_refl 0) ⟨Nat.zero_le _, List.isPrefixOf_iff_prefix.mp hfront⟩

theorem splitLoop_length_le (skip : Nat) (piece : List α)
    (h : ∀ i j, skip ≤ i → skip ≤ j → OccursAt pattern text i →
      OccursAt pattern text j → i = j) : (splitLoop pattern skip piece text).length ≤ 2 := by
  induction text generalizing skip piece with
  | nil => cases skip <;> exact Nat.le_succ 1
  | cons c text ih =>
    cases skip with
    | succ skip =>
      refine ih skip piece fun i j hi hj hoi hoj => Nat.succ.inj ?_
      exact h (i + 1) (j + 1) (Nat.succ_le_succ hi) (Nat.succ_le_succ hj)
        (occursAt_succ.mpr hoi) (occursAt_succ.mpr hoj)
    | zero =>
      rw [splitLoop]
      split
      · rename_i hfront
        have hzero : OccursAt pattern (c :: text) 0 :=
          ⟨Nat.zero_le _, List.isPrefixOf_iff_prefix.mp hfront⟩
        have hrest : (splitLoop pattern (pattern.length - 1) [] text).length = 1 := by
          refine splitLoop_of_none _ _ fun i _ hoccurs => ?_
          have hne := h 0 (i + 1) (Nat.le_refl 0) (Nat.zero_le _) hzero (occursAt_succ.mpr hoccurs)
          cases hne
        exact Nat.succ_le_succ (Nat.le_of_eq hrest)
      · refine ih 0 _ fun i j _ _ hoi hoj => Nat.succ.inj ?_
        exact h (i + 1) (j + 1) (Nat.zero_le _) (Nat.zero_le _)
          (occursAt_succ.mpr hoi) (occursAt_succ.mpr hoj)

theorem split_length_le_of_once (h : Once pattern text) : (split text pattern).length ≤ 2 := by
  obtain ⟨i, hi, hunique⟩ := h
  rw [split]
  split
  · -- an empty pattern occurs everywhere
    rename_i hpattern
    subst hpattern
    have hall (j : Nat) (hj : j ≤ text.length) : j = i := hunique j ⟨hj, nil_prefix⟩
    rw [length_map, hall text.length (Nat.le_refl _), ← hall 0 (Nat.zero_le _)]
    exact Nat.zero_le 2
  · exact splitLoop_length_le 0 [] fun i j _ _ hoi hoj =>
      (hunique i hoi).trans (hunique j hoj).symm

end ReflectivePi.Search
