import Mathlib.Algebra.Ring.Nat
import ReflectivePi.Lib.Lines

/-!
# Tools — Truncate

The end of a tool's output within a number of lines and of bytes. A text is the
list of its characters; an offset in bytes that falls inside a character is
moved on to the next one.
-/

namespace ReflectivePi.Tools

open List

/-! ## Bytes -/

def byteLength (text : List Char) : Nat := (text.map Char.utf8Size).sum

@[simp] theorem byteLength_nil : byteLength [] = 0 := rfl

@[simp] theorem byteLength_cons (c : Char) (text : List Char) :
    byteLength (c :: text) = c.utf8Size + byteLength text := rfl

@[simp] theorem byteLength_append (a b : List Char) :
    byteLength (a ++ b) = byteLength a + byteLength b := by
  simp only [byteLength, map_append, sum_append]

theorem utf8Size_newline : '\n'.utf8Size = 1 := by decide

/-- What is before and from a byte offset on. -/
def splitAtByte (start : Nat) : List Char → List Char × List Char
  | [] => ([], [])
  | c :: rest =>
    if start = 0 then ([], c :: rest)
    else
      let (before, after) := splitAtByte (start - c.utf8Size) rest
      (c :: before, after)

@[simp] theorem splitAtByte_zero (text : List Char) : splitAtByte 0 text = ([], text) := by
  cases text <;> rfl

theorem splitAtByte_append (start : Nat) (text : List Char) :
    (splitAtByte start text).1 ++ (splitAtByte start text).2 = text := by
  induction text generalizing start with
  | nil => rfl
  | cons c rest ih =>
    by_cases hstart : start = 0
    · rw [splitAtByte, if_pos hstart]
      rfl
    · rw [splitAtByte, if_neg hstart]
      exact congrArg (c :: ·) (ih _)

/-- At most three bytes more than the offset are left out, and none after a
newline. -/
theorem splitAtByte_bytes {start : Nat} {text : List Char} (h : start ≤ byteLength text) :
    start ≤ byteLength (splitAtByte start text).1 ∧
      byteLength (splitAtByte start text).1 ≤ start + 3 ∧
      ((splitAtByte start text).1.getLast? = some '\n' →
        byteLength (splitAtByte start text).1 = start) := by
  induction text generalizing start with
  | nil =>
    have hzero : start = 0 := Nat.le_zero.mp h
    subst hzero
    simp
  | cons c rest ih =>
    by_cases hstart : start = 0
    · subst hstart
      simp
    · rw [splitAtByte, if_neg hstart]
      have hsize := c.utf8Size_le_four
      have hpos := c.utf8Size_pos
      rw [byteLength_cons] at h
      obtain ⟨hle, hbound, hlast⟩ := ih (Nat.sub_le_iff_le_add'.mpr h)
      simp only [byteLength_cons]
      refine ⟨by omega, ?_, fun hnewline => ?_⟩
      · by_cases hinside : start ≤ c.utf8Size
        · rw [Nat.sub_eq_zero_of_le hinside, splitAtByte_zero, byteLength_nil]
          omega
        · omega
      · cases hbefore : (splitAtByte (start - c.utf8Size) rest).1 with
        | nil =>
          rw [hbefore] at hnewline hle
          obtain rfl := Option.some.inj hnewline
          rw [utf8Size_newline] at hle ⊢
          rw [byteLength_nil] at hle ⊢
          omega
        | cons c' before =>
          rw [hbefore, getLast?_cons_cons] at hnewline
          rw [hbefore] at hlast
          have := hlast hnewline
          by_cases hinside : start ≤ c.utf8Size
          · rw [Nat.sub_eq_zero_of_le hinside, splitAtByte_zero] at hbefore
            cases hbefore
          · omega

/-- `content.split("\n")`. -/
def splitOnNewline (content : List Char) : List (List Char) :=
  let (lines, rest) := Lines.split '\n' content
  lines ++ [rest]

def endsWithNewline (content : List Char) : Bool := content.getLast? = some '\n'

def splitLinesForCounting (content : List Char) : List (List Char) :=
  if content = [] then []
  else
    let lines := splitOnNewline content
    if endsWithNewline content then lines.dropLast else lines

/-- `lines.join("\n")`. -/
def joinLines : List (List Char) → List Char
  | [] => []
  | [line] => line
  | line :: rest => line ++ '\n' :: joinLines rest

/-! ## Truncation -/

inductive Limit where
  | lines
  | bytes
  deriving DecidableEq

structure TruncationResult where
  content : List Char
  truncated : Bool
  truncatedBy : Option Limit
  totalLines : Nat
  totalBytes : Nat
  outputLines : Nat
  outputBytes : Nat
  lastLinePartial : Bool
  firstLineExceedsLimit : Bool
  maxLines : Nat
  maxBytes : Nat

def truncateStringToBytesFromEnd (str : List Char) (maxBytes : Nat) : List Char :=
  if byteLength str ≤ maxBytes then str
  else (splitAtByte (byteLength str - maxBytes) str).2

/-- What the loop over the lines comes to. -/
structure Taken where
  outputLines : List (List Char)
  outputBytesCount : Nat
  truncatedBy : Limit
  lastLinePartial : Bool

/-- The loop from the last line on. -/
def takeLines (maxLines maxBytes : Nat) :
    List (List Char) → List (List Char) → Nat → Taken
  | [], outputLines, outputBytesCount => ⟨outputLines, outputBytesCount, .lines, false⟩
  | line :: rest, outputLines, outputBytesCount =>
    if outputLines.length < maxLines then
      let lineBytes := byteLength line + (if outputLines ≠ [] then 1 else 0)
      if outputBytesCount + lineBytes > maxBytes then
        if outputLines = [] then
          let truncatedLine := truncateStringToBytesFromEnd line maxBytes
          ⟨[truncatedLine], byteLength truncatedLine, .bytes, true⟩
        else ⟨outputLines, outputBytesCount, .bytes, false⟩
      else takeLines maxLines maxBytes rest (line :: outputLines) (outputBytesCount + lineBytes)
    else ⟨outputLines, outputBytesCount, .lines, false⟩

def truncateTail (content : List Char) (maxLines maxBytes : Nat) : TruncationResult :=
  let totalBytes := byteLength content
  let lines := splitLinesForCounting content
  let totalLines := lines.length
  if totalLines ≤ maxLines ∧ totalBytes ≤ maxBytes then
    { content
      truncated := false
      truncatedBy := none
      totalLines
      totalBytes
      outputLines := totalLines
      outputBytes := totalBytes
      lastLinePartial := false
      firstLineExceedsLimit := false
      maxLines
      maxBytes }
  else
    let taken := takeLines maxLines maxBytes lines.reverse [] 0
    let truncatedBy :=
      if taken.outputLines.length ≥ maxLines ∧ taken.outputBytesCount ≤ maxBytes then .lines
      else taken.truncatedBy
    let outputContent := joinLines taken.outputLines
    { content := outputContent
      truncated := true
      truncatedBy := some truncatedBy
      totalLines
      totalBytes
      outputLines := taken.outputLines.length
      outputBytes := byteLength outputContent
      lastLinePartial := taken.lastLinePartial
      firstLineExceedsLimit := false
      maxLines
      maxBytes }

/-! ## The lines of a text -/

variable {line content : List Char} {lines : List (List Char)}

theorem joinLines_cons {rest : List (List Char)} (h : rest ≠ []) :
    joinLines (line :: rest) = line ++ '\n' :: joinLines rest := by
  cases rest with
  | nil => exact absurd rfl h
  | cons line' rest => rfl

theorem joinLines_append_newline (h : lines ≠ []) :
    joinLines lines ++ ['\n'] = lines.flatMap (· ++ ['\n']) := by
  induction lines with
  | nil => exact absurd rfl h
  | cons line rest ih =>
    cases hrest : rest with
    | nil => rw [flatMap_singleton]; rfl
    | cons line' rest' =>
      rw [← hrest]
      have hne : rest ≠ [] := by rw [hrest]; exact cons_ne_nil _ _
      rw [joinLines_cons hne, append_assoc, cons_append, ih hne]
      simp

theorem joinLines_concat (lines : List (List Char)) (line : List Char) :
    joinLines (lines ++ [line]) = lines.flatMap (· ++ ['\n']) ++ line := by
  induction lines with
  | nil => rfl
  | cons line' rest ih =>
    rw [cons_append, joinLines_cons (by simp), ih]
    simp

theorem split_text (content : List Char) :
    (Lines.split '\n' content).1.flatMap (· ++ ['\n']) ++ (Lines.split '\n' content).2
      = content := by
  induction content with
  | nil => rfl
  | cons c rest ih =>
    by_cases hc : c = '\n'
    · subst hc
      simp only [Lines.split, if_true]
      simpa using ih
    · simp only [Lines.split, if_neg hc]
      cases hl : (Lines.split '\n' rest).1 with
      | nil =>
        rw [hl] at ih
        exact congrArg (c :: ·) ih
      | cons line lines =>
        rw [hl] at ih
        simp only [flatMap_cons, cons_append] at ih ⊢
        rw [ih]

theorem split_rest_eq_nil (content : List Char) :
    (Lines.split '\n' content).2 = [] ↔ content = [] ∨ endsWithNewline content = true := by
  induction content using List.reverseRecOn with
  | nil => exact ⟨fun _ => .inl rfl, fun _ => rfl⟩
  | append_singleton content c _ =>
    by_cases hc : c = '\n'
    · subst hc
      rw [Lines.split_end]
      simp [endsWithNewline]
    · have hsplit : Lines.split '\n' [c] = ([], [c]) :=
        Lines.split_of_notMem _ (by simpa using Ne.symm hc)
      have hrest : (Lines.split '\n' (content ++ [c])).2 ≠ [] := by
        have hmem : '\n' ∉ (Lines.split '\n' content).2 ++ [c] := by
          rw [mem_append, not_or]
          exact ⟨Lines.newline_notMem_pending _ _, by simpa using Ne.symm hc⟩
        rw [Lines.split_append, Lines.feed, Lines.split_of_notMem _ hmem]
        simp
      simp [endsWithNewline, hrest, hc]

/-- The lines that are counted: the complete ones, and a last one without a
newline. -/
theorem splitLines_eq (content : List Char) :
    splitLinesForCounting content = (Lines.split '\n' content).1
        ++ (if (Lines.split '\n' content).2 = [] then []
            else [(Lines.split '\n' content).2]) := by
  have hiff := split_rest_eq_nil content
  rw [splitLinesForCounting]
  by_cases hempty : content = []
  · subst hempty
    rfl
  · rw [if_neg hempty]
    simp only [hempty, false_or] at hiff
    dsimp only
    cases hends : endsWithNewline content with
    | true =>
      rw [if_pos rfl, if_pos (hiff.mpr hends), splitOnNewline]
      simp
    | false =>
      rw [hends] at hiff
      rw [if_neg Bool.false_ne_true, if_neg fun h => Bool.false_ne_true (hiff.mp h)]
      rfl

theorem splitLines_ne_nil (h : content ≠ []) : splitLinesForCounting content ≠ [] := by
  rw [splitLines_eq]
  intro hnil
  obtain ⟨hlines, hrest⟩ := List.append_eq_nil_iff.mp hnil
  have htext := split_text content
  by_cases hpending : (Lines.split '\n' content).2 = []
  · rw [hlines, hpending] at htext
    exact h htext.symm
  · rw [if_neg hpending] at hrest
    cases hrest

theorem joinLines_splitLines (h : content ≠ []) :
    joinLines (splitLinesForCounting content)
        ++ (if endsWithNewline content then ['\n'] else []) = content := by
  have hiff := split_rest_eq_nil content
  simp only [h, false_or] at hiff
  have hne := splitLines_ne_nil h
  have htext := split_text content
  rw [splitLines_eq] at hne ⊢
  cases hends : endsWithNewline content with
  | true =>
    rw [if_pos (hiff.mpr hends), append_nil] at hne ⊢
    rw [if_pos rfl, joinLines_append_newline hne]
    rw [hiff.mpr hends, append_nil] at htext
    exact htext
  | false =>
    rw [hends] at hiff
    rw [if_neg Bool.false_ne_true, if_neg fun h => Bool.false_ne_true (hiff.mp h),
      append_nil, joinLines_concat]
    exact htext

theorem byteLength_joinLines (h : content ≠ []) :
    byteLength (joinLines (splitLinesForCounting content))
        + (if endsWithNewline content then 1 else 0) = byteLength content := by
  conv_rhs => rw [← joinLines_splitLines h]
  rw [byteLength_append]
  cases endsWithNewline content with
  | true => rfl
  | false => rfl

/-! ## The loop -/

theorem byteLength_joinLines_cons (line : List Char) (lines : List (List Char)) :
    byteLength (joinLines (line :: lines))
      = byteLength (joinLines lines) + (byteLength line + if lines ≠ [] then 1 else 0) := by
  cases lines with
  | nil => simp [joinLines]
  | cons line' rest =>
    rw [joinLines_cons (cons_ne_nil _ _), byteLength_append, byteLength_cons,
      utf8Size_newline, if_pos (cons_ne_nil _ _)]
    omega

theorem byteLength_joinLines_le (before lines : List (List Char)) :
    byteLength (joinLines lines) ≤ byteLength (joinLines (before ++ lines)) := by
  induction before with
  | nil => exact Nat.le_refl _
  | cons line before ih =>
    rw [cons_append, byteLength_joinLines_cons]
    omega

/-- The lines are within both limits. -/
def Fits (maxLines maxBytes : Nat) (lines : List (List Char)) : Prop :=
  lines.length ≤ maxLines ∧ byteLength (joinLines lines) ≤ maxBytes

variable {maxLines maxBytes : Nat}

theorem Fits.of_append {before : List (List Char)}
    (h : Fits maxLines maxBytes (before ++ lines)) : Fits maxLines maxBytes lines := by
  refine ⟨?_, Nat.le_trans (byteLength_joinLines_le before lines) h.2⟩
  have hlength := h.1
  rw [length_append] at hlength
  omega

theorem fits_nil : Fits maxLines maxBytes [] := ⟨Nat.zero_le _, Nat.zero_le _⟩

end ReflectivePi.Tools
