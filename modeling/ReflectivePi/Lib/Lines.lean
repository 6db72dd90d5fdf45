import Mathlib.Data.List.Induction

/-!
# Lib — lines

The lines of a text read in chunks: the complete ones, and what follows
the last newline. How the text was cut into chunks makes no difference.
-/

namespace ReflectivePi.Lines

open List

variable {γ : Type} [DecidableEq γ] (newline : γ)

/-- The complete lines, and what follows the last newline. -/
def split : List γ → List (List γ) × List γ
  | [] => ([], [])
  | c :: rest =>
    let (lines, pending) := split rest
    if c = newline then ([] :: lines, pending)
    else
      match lines with
      | [] => ([], c :: pending)
      | line :: lines => ((c :: line) :: lines, pending)

theorem split_newline (rest : List γ) :
    split newline (newline :: rest) = ([] :: (split newline rest).1, (split newline rest).2) :=
  if_pos rfl

theorem split_char {c : γ} (hc : c ≠ newline) (rest : List γ) :
    split newline (c :: rest) = match (split newline rest).1 with
        | [] => ([], c :: (split newline rest).2)
        | line :: lines => ((c :: line) :: lines, (split newline rest).2) :=
  if_neg hc

/-- One chunk after what was read before it. -/
def feed (read : List (List γ) × List γ) (chunk : List γ) : List (List γ) × List γ :=
  let (lines, pending) := split newline (read.2 ++ chunk)
  (read.1 ++ lines, pending)

theorem split_append (a b : List γ) :
    split newline (a ++ b) = feed newline (split newline a) b := by
  induction a with
  | nil => rfl
  | cons c a ih =>
    by_cases hc : c = newline
    · subst hc
      simp only [cons_append, split_newline, ih, feed]
    · simp only [cons_append, split_char newline hc, ih, feed]
      cases hl : (split newline a).1 with
      | nil => simp only [nil_append, cons_append, split_char newline hc]
      | cons line lines => simp only [cons_append]

/-- **However the text was cut**, its lines are the same. -/
theorem foldl_feed (chunks : List (List γ)) :
    chunks.foldl (feed newline) ([], []) = split newline chunks.flatten := by
  induction chunks using List.reverseRecOn with
  | nil => rfl
  | append_singleton chunks chunk ih =>
    rw [foldl_append, ih, flatten_append, split_append]
    simp

variable {line : List γ}

theorem split_of_notMem (h : newline ∉ line) : split newline line = ([], line) := by
  induction line with
  | nil => rfl
  | cons c rest ih =>
    rw [mem_cons, not_or] at h
    simp only [split_char newline (Ne.symm h.1), ih h.2]

theorem split_line (h : newline ∉ line) : split newline (line ++ [newline]) = ([line], []) := by
  induction line with
  | nil => exact split_newline newline []
  | cons c rest ih =>
    rw [mem_cons, not_or] at h
    simp only [cons_append, split_char newline (Ne.symm h.1), ih h.2]

theorem split_append_line {text : List γ}
    (htext : (split newline text).2 = []) (h : newline ∉ line) :
    split newline (text ++ (line ++ [newline])) = ((split newline text).1 ++ [line], []) := by
  rw [split_append, feed, htext, nil_append, split_line newline h]

theorem newline_notMem_pending (text : List γ) : newline ∉ (split newline text).2 := by
  induction text with
  | nil => exact not_mem_nil
  | cons c rest ih =>
    by_cases hc : c = newline
    · subst hc
      rwa [split_newline]
    · rw [split_char newline hc]
      cases (split newline rest).1 with
      | nil => exact fun hmem => (List.mem_cons.mp hmem).elim (hc ·.symm) ih
      | cons line lines => exact ih

/-- Ending the last line makes it a complete one. -/
theorem split_end (text : List γ) :
    split newline (text ++ [newline])
      = ((split newline text).1 ++ [(split newline text).2], []) := by
  rw [split_append, feed, split_line newline (newline_notMem_pending newline text)]

/-- A text after the start of a line: its first complete line, or what follows the
last newline when it has none, goes on with that line. -/
theorem split_start (h : newline ∉ line) (text : List γ) :
    split newline (line ++ text) = match (split newline text).1 with
        | [] => ([], line ++ (split newline text).2)
        | next :: lines => ((line ++ next) :: lines, (split newline text).2) := by
  induction line with
  | nil => cases hl : (split newline text).1 <;> simp [← hl]
  | cons c line ih =>
    rw [mem_cons, not_or] at h
    simp only [cons_append, split_char newline (Ne.symm h.1), ih h.2]
    cases (split newline text).1 <;> rfl

/-- A text after the start of a line has as many newlines, and the same rest
unless it goes on with that line. -/
theorem split_prepend (h : newline ∉ line) (text : List γ) :
    (split newline (line ++ text)).1.length = (split newline text).1.length ∧
      (split newline (line ++ text)).2 = if (split newline text).1 = [] then line ++ text
          else (split newline text).2 := by
  induction line with
  | nil =>
    refine ⟨rfl, ?_⟩
    split
    · rename_i hnone
      have hmem : newline ∉ text := by
        intro hmem
        obtain ⟨before, after, rfl⟩ := append_of_mem hmem
        rw [← singleton_append, ← append_assoc, split_append, feed, split_end] at hnone
        simp at hnone
      rw [nil_append, split_of_notMem newline hmem]
    · rfl
  | cons c line ih =>
    rw [mem_cons, not_or] at h
    obtain ⟨hlength, hrest⟩ := ih h.2
    simp only [cons_append, split_char newline (Ne.symm h.1)]
    cases hl : (split newline (line ++ text)).1 with
    | nil =>
      rw [hl, length_nil] at hlength
      have hnone := List.length_eq_zero_iff.mp hlength.symm
      rw [if_pos hnone] at hrest ⊢
      rw [hrest]
      exact ⟨hlength, rfl⟩
    | cons line' lines =>
      rw [hl, length_cons] at hlength
      have hsome : (split newline text).1 ≠ [] := by
        intro hnone
        rw [hnone] at hlength
        cases hlength
      rw [if_neg hsome] at hrest ⊢
      exact ⟨hlength, hrest⟩

end ReflectivePi.Lines
