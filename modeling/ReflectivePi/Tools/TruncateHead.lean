import ReflectivePi.Lib.Longest
import ReflectivePi.Tools.Truncate

/-!
# Tools — Truncate head

The start of a text within a number of lines and of bytes: the complete lines
that fit, and none where the first one alone is too long.
-/

namespace ReflectivePi.Tools

open List
open Longest (LongestPrefix)

def DEFAULT_MAX_LINES : Nat := 2000

def DEFAULT_MAX_BYTES : Nat := 50 * 1024

/-- The loop from the first line on. -/
def takeLeading (maxLines maxBytes : Nat) :
    List (List Char) → List (List Char) → Nat → Taken
  | [], outputLines, outputBytesCount => ⟨outputLines, outputBytesCount, .lines, false⟩
  | line :: rest, outputLines, outputBytesCount =>
    if outputLines.length < maxLines then
      let lineBytes := byteLength line + (if outputLines ≠ [] then 1 else 0)
      if outputBytesCount + lineBytes > maxBytes then
        ⟨outputLines, outputBytesCount, .bytes, false⟩
      else takeLeading maxLines maxBytes rest (outputLines ++ [line]) (outputBytesCount + lineBytes)
    else ⟨outputLines, outputBytesCount, .lines, false⟩

def truncateHead (content : List Char) (maxLines maxBytes : Nat) : TruncationResult :=
  let totalBytes := byteLength content
  let lines := splitLinesForCounting content
  let totalLines := lines.length
  if totalLines ≤ maxLines ∧ totalBytes ≤ maxBytes then
    { content
      truncated := false
      truncatedBy := none
      totalLines
      totalBytes
      outputLines := totalLines
      outputBytes := totalBytes
      lastLinePartial := false
      firstLineExceedsLimit := false
      maxLines
      maxBytes }
  else
    let firstLineBytes := byteLength (lines.headD [])
    if firstLineBytes > maxBytes then
      { content := []
        truncated := true
        truncatedBy := some .bytes
        totalLines
        totalBytes
        outputLines := 0
        outputBytes := 0
        lastLinePartial := false
        firstLineExceedsLimit := true
        maxLines
        maxBytes }
    else
      let taken := takeLeading maxLines maxBytes lines [] 0
      let truncatedBy :=
        if taken.outputLines.length ≥ maxLines ∧ taken.outputBytesCount ≤ maxBytes then .lines
        else taken.truncatedBy
      let outputContent := joinLines taken.outputLines
      { content := outputContent
        truncated := true
        truncatedBy := some truncatedBy
        totalLines
        totalBytes
        outputLines := taken.outputLines.length
        outputBytes := byteLength outputContent
        lastLinePartial := false
        firstLineExceedsLimit := false
        maxLines
        maxBytes }

theorem byteLength_joinLines_concat (lines : List (List Char)) (line : List Char) :
    byteLength (joinLines (lines ++ [line]))
      = byteLength (joinLines lines) + (byteLength line + if lines ≠ [] then 1 else 0) := by
  induction lines with
  | nil => simp [joinLines]
  | cons first lines ih =>
    rw [cons_append, byteLength_joinLines_cons, ih, byteLength_joinLines_cons]
    cases lines with
    | _ => simp; omega

theorem byteLength_joinLines_le_append (lines after : List (List Char)) :
    byteLength (joinLines lines) ≤ byteLength (joinLines (lines ++ after)) := by
  induction after using List.reverseRecOn with
  | nil => rw [append_nil]
  | append_singleton after line ih =>
    rw [← append_assoc, byteLength_joinLines_concat]
    omega

variable {maxLines maxBytes : Nat}

theorem Fits.of_append_left {lines after : List (List Char)}
    (h : Fits maxLines maxBytes (lines ++ after)) : Fits maxLines maxBytes lines := by
  refine ⟨?_, Nat.le_trans (byteLength_joinLines_le_append lines after) h.2⟩
  have hlength := h.1
  rw [length_append] at hlength
  omega

/-- Where the loop over the lines stops: at their end, at the limit on the
number of lines, or in front of a line that is too much. -/
inductive StopsAt (maxLines maxBytes : Nat) (kept : List (List Char)) :
    List (List Char) → Limit → Prop
  | done (hkept : Fits maxLines maxBytes kept) : StopsAt maxLines maxBytes kept [] .lines
  | lines {rest : List (List Char)} (hkept : Fits maxLines maxBytes kept)
      (hlength : kept.length = maxLines) : StopsAt maxLines maxBytes kept rest .lines
  | bytes {line : List Char} {rest : List (List Char)} (hkept : Fits maxLines maxBytes kept)
      (hlength : kept.length < maxLines)
      (hbytes : maxBytes < byteLength (joinLines (kept ++ [line]))) :
      StopsAt maxLines maxBytes kept (line :: rest) .bytes

variable {kept rest : List (List Char)} {limit : Limit}

theorem StopsAt.fits (h : StopsAt maxLines maxBytes kept rest limit) :
    Fits maxLines maxBytes kept := by
  cases h with
  | done hkept => exact hkept
  | lines hkept _ => exact hkept
  | bytes hkept _ _ => exact hkept

theorem StopsAt.longest (h : StopsAt maxLines maxBytes kept rest limit) :
    LongestPrefix (Fits maxLines maxBytes) kept (kept ++ rest) := by
  refine .of_next (fun _ _ => Fits.of_append_left) h.fits fun line more hrest hfits => ?_
  cases h with
  | done _ => cases hrest
  | lines _ hlength =>
    have hlong := hfits.1
    rw [length_append, length_singleton] at hlong
    omega
  | bytes _ _ hbytes =>
    cases hrest
    exact Nat.not_lt.mpr hfits.2 hbytes

theorem takeLeading_stops (lines taken : List (List Char)) (h : Fits maxLines maxBytes taken) :
    ∃ kept rest limit, taken ++ lines = kept ++ rest ∧ StopsAt maxLines maxBytes kept rest limit ∧
      takeLeading maxLines maxBytes lines taken (byteLength (joinLines taken))
        = ⟨kept, byteLength (joinLines kept), limit, false⟩ := by
  induction lines generalizing taken with
  | nil => exact ⟨taken, [], .lines, rfl, .done h, rfl⟩
  | cons line lines ih =>
    rw [takeLeading]
    split
    · rename_i hlength
      dsimp only
      rw [← byteLength_joinLines_concat]
      split
      · rename_i hbytes
        exact ⟨taken, line :: lines, .bytes, rfl, .bytes h hlength hbytes, rfl⟩
      · rename_i hbytes
        obtain ⟨kept, rest, limit, htext, hstop, heq⟩ := ih (taken ++ [line]) (by
          refine ⟨?_, Nat.not_lt.mp hbytes⟩
          rw [length_append]
          exact hlength)
        exact ⟨kept, rest, limit, by rw [← htext]; simp, hstop, heq⟩
    · rename_i hlength
      exact ⟨taken, line :: lines, .lines, rfl,
        .lines h (Nat.le_antisymm h.1 (Nat.not_lt.mp hlength)), rfl⟩

theorem truncateHead_whole {content : List Char}
    (h : (splitLinesForCounting content).length ≤ maxLines ∧ byteLength content ≤ maxBytes) :
    truncateHead content maxLines maxBytes =
      { content
        truncated := false
        truncatedBy := none
        totalLines := (splitLinesForCounting content).length
        totalBytes := byteLength content
        outputLines := (splitLinesForCounting content).length
        outputBytes := byteLength content
        lastLinePartial := false
        firstLineExceedsLimit := false
        maxLines
        maxBytes } := by
  unfold truncateHead
  dsimp only
  rw [if_pos h]

theorem StopsAt.named (h : StopsAt maxLines maxBytes kept rest limit) :
    (if kept.length ≥ maxLines ∧ byteLength (joinLines kept) ≤ maxBytes then Limit.lines
      else limit) = limit := by
  cases h with
  | done _ => exact ite_self _
  | lines _ _ => exact ite_self _
  | bytes _ hlength _ => exact if_neg fun hlimit => Nat.not_le.mpr hlength hlimit.1

theorem StopsAt.of_first {lines : List (List Char)}
    (h : StopsAt maxLines maxBytes kept rest limit) (hlines : lines = kept ++ rest)
    (hmax : 0 < maxLines) (hfirst : maxBytes < byteLength (lines.headD [])) :
    kept = [] ∧ limit = .bytes := by
  cases kept with
  | nil =>
    cases h with
    | done _ =>
      subst hlines
      exact absurd hfirst (Nat.not_lt_zero _)
    | lines _ hlength => exact absurd hlength (Nat.ne_of_lt hmax)
    | bytes _ _ _ => exact ⟨rfl, rfl⟩
  | cons line kept =>
    have hfits : Fits maxLines maxBytes [line] := h.fits.of_append_left 
    subst hlines
    exact absurd hfirst (Nat.not_lt.mpr hfits.2)

theorem truncateHead_cut {content : List Char}
    (h : ¬ ((splitLinesForCounting content).length ≤ maxLines ∧ byteLength content ≤ maxBytes))
    (hmax : 0 < maxLines) :
    ∃ kept rest limit, splitLinesForCounting content = kept ++ rest ∧
      StopsAt maxLines maxBytes kept rest limit ∧
      truncateHead content maxLines maxBytes =
        { content := joinLines kept
          truncated := true
          truncatedBy := some limit
          totalLines := (splitLinesForCounting content).length
          totalBytes := byteLength content
          outputLines := kept.length
          outputBytes := byteLength (joinLines kept)
          lastLinePartial := false
          firstLineExceedsLimit :=
            decide (maxBytes < byteLength ((splitLinesForCounting content).headD []))
          maxLines
          maxBytes } := by
  obtain ⟨kept, rest, limit, htext, hstop, htaken⟩ :=
    takeLeading_stops (splitLinesForCounting content) []
      (@fits_nil maxLines maxBytes)
  refine ⟨kept, rest, limit, htext, hstop, ?_⟩
  unfold truncateHead
  dsimp only
  rw [if_neg h]
  split
  · rename_i hfirst
    obtain ⟨rfl, rfl⟩ := hstop.of_first htext hmax hfirst
    rw [decide_eq_true hfirst]
    rfl
  · rename_i hfirst
    have hloop : takeLeading maxLines maxBytes (splitLinesForCounting content) [] 0
        = ⟨kept, byteLength (joinLines kept), limit, false⟩ := htaken
    rw [decide_eq_false hfirst, hloop]
    dsimp only
    rw [hstop.named]

end ReflectivePi.Tools
