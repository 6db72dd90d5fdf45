import Mathlib.Data.List.Sort
import ReflectivePi.Lib.Search
import ReflectivePi.Frames.Json

/-!
# Tools — EditDiff

`applyEditsToNormalizedContent`: text edits that each name a region by the
text that is there. Texts are sequences of UTF-16 code units; the Unicode
normalization form NFKC is a parameter, of which nothing is asked.
-/

namespace ReflectivePi.Tools

open Delta (JsString js)
open Frames (isWhitespace)
open Search (indexOf split)

def newline : UInt16 := 0x0A

def carriageReturn : UInt16 := 0x0D

/-! ## Normalization -/

/-- `replace(/\r\n/g, "\n").replace(/\r/g, "\n")`. -/
def normalizeToLF : JsString → JsString
  | [] => []
  | [c] => if c = carriageReturn then [newline] else [c]
  | c :: d :: rest =>
    if c = carriageReturn then
      if d = newline then newline :: normalizeToLF rest
      else newline :: normalizeToLF (d :: rest)
    else c :: normalizeToLF (d :: rest)

def trimEnd (line : JsString) : JsString :=
  (line.reverse.dropWhile isWhitespace).reverse

/-- `replace(/[…]/g, …)` with a class of code units and one code unit. -/
def replaceClass (units : List UInt16) (unit : UInt16) (text : JsString) : JsString :=
  text.map fun c => if c ∈ units then unit else c

def smartSingleQuotes : List UInt16 := [0x2018, 0x2019, 0x201A, 0x201B]

def smartDoubleQuotes : List UInt16 := [0x201C, 0x201D, 0x201E, 0x201F]

def dashes : List UInt16 :=
  [0x2010, 0x2011, 0x2012, 0x2013, 0x2014, 0x2015, 0x2212]

def specialSpaces : List UInt16 :=
  [0x00A0, 0x2002, 0x2003, 0x2004, 0x2005, 0x2006, 0x2007, 0x2008, 0x2009, 0x200A,
    0x202F, 0x205F, 0x3000]

/-- Normalize text for fuzzy matching. -/
def normalizeForFuzzyMatch (nfkc : JsString → JsString) (text : JsString) : JsString :=
  let trimmed := [newline].intercalate ((split (nfkc text) [newline]).map trimEnd)
  let singles := replaceClass smartSingleQuotes 0x27 trimmed
  let doubles := replaceClass smartDoubleQuotes 0x22 singles
  replaceClass specialSpaces 0x20 (replaceClass dashes 0x2D doubles)

/-- `content.match(/[^\n]*\n|[^\n]+/g) ?? []`, from a line at hand. -/
def splitLinesLoop : JsString → JsString → List JsString
  | line, [] => if line = [] then [] else [line]
  | line, c :: rest =>
    if c = newline then (line ++ [c]) :: splitLinesLoop [] rest
    else splitLinesLoop (line ++ [c]) rest

def splitLinesWithEndings (content : JsString) : List JsString :=
  splitLinesLoop [] content

structure LineSpan where
  start : Nat
  stop : Nat
  deriving DecidableEq

def lineSpans (offset : Nat) : List JsString → List LineSpan
  | [] => []
  | line :: rest =>
    ⟨offset, offset + line.length⟩ :: lineSpans (offset + line.length) rest

def getLineSpans (content : JsString) : List LineSpan :=
  lineSpans 0 (splitLinesWithEndings content)

/-! ## Replacements -/

structure MatchedEdit where
  editIndex : Nat
  matchIndex : Nat
  matchLength : Nat
  newText : JsString

def outsideError : String := "Replacement range is outside the base content."

/-- The `while` loop of `getReplacementLineRange`, over the lines from
`endLine` on. -/
def findEndLine (replacementEnd : Nat) : Nat → List LineSpan → Option Nat
  | _, [] => none
  | endLine, line :: rest =>
    if line.stop < replacementEnd then findEndLine replacementEnd (endLine + 1) rest
    else some endLine

/-- The first and the end line that a replacement touches. -/
def getReplacementLineRange (lines : List LineSpan) (replacement : MatchedEdit) :
    Except String (Nat × Nat) :=
  let replacementStart := replacement.matchIndex
  let replacementEnd := replacement.matchIndex + replacement.matchLength
  match lines.findIdx? fun line =>
      decide (line.start ≤ replacementStart) && decide (replacementStart < line.stop) with
  | none => .error outsideError
  | some startLine =>
    match findEndLine replacementEnd startLine (lines.drop startLine) with
    | none => .error outsideError
    | some endLine => .ok (startLine, endLine + 1)

/-- Replacements are applied from the last one to the first. -/
def applyReplacements (content : JsString) (replacements : List MatchedEdit)
    (offset : Nat) : JsString :=
  replacements.foldr (fun replacement result =>
      let matchIndex := replacement.matchIndex - offset
      result.take matchIndex ++ replacement.newText
        ++ result.drop (matchIndex + replacement.matchLength))
    content

def byIndex (a b : MatchedEdit) : Prop := a.matchIndex ≤ b.matchIndex

instance instDecidableRelByIndex : DecidableRel byIndex := fun a b =>
  inferInstanceAs (Decidable (a.matchIndex ≤ b.matchIndex))

instance instTotalByIndex : Std.Total byIndex :=
  ⟨fun a b => Nat.le_total a.matchIndex b.matchIndex⟩

instance instIsTransByIndex : IsTrans MatchedEdit byIndex :=
  ⟨fun _ _ _ hab hbc => Nat.le_trans hab hbc⟩

/-- Replacements that touch lines in common. -/
structure Group where
  startLine : Nat
  endLine : Nat
  replacements : List MatchedEdit

/-- The groups so far, the last one first. -/
def groupReplacements (baseLines : List LineSpan) :
    List Group → List MatchedEdit → Except String (List Group)
  | groups, [] => .ok groups.reverse
  | groups, replacement :: rest => do
    let (startLine, endLine) ← getReplacementLineRange baseLines replacement
    match groups with
    | current :: before =>
      if startLine < current.endLine then
        groupReplacements baseLines ({ current with
            endLine := max current.endLine endLine
            replacements := current.replacements ++ [replacement] } :: before) rest
      else
        groupReplacements baseLines (⟨startLine, endLine, [replacement]⟩ :: current :: before) rest
    | [] => groupReplacements baseLines [⟨startLine, endLine, [replacement]⟩] rest

/-- The loop over the groups, from a line of the original on. -/
def rewriteGroups (originalLines : List JsString) (baseLines : List LineSpan)
    (baseContent : JsString) : Nat → List Group → JsString
  | originalLineIndex, [] => (originalLines.drop originalLineIndex).flatten
  | originalLineIndex, group :: rest =>
    let groupStartOffset := (baseLines[group.startLine]?.map LineSpan.start).getD 0
    let groupEndOffset := (baseLines[group.endLine - 1]?.map LineSpan.stop).getD 0
    ((originalLines.take group.startLine).drop originalLineIndex).flatten
      ++ applyReplacements ((baseContent.take groupEndOffset).drop groupStartOffset)
          group.replacements groupStartOffset
      ++ rewriteGroups originalLines baseLines baseContent group.endLine rest

/-- Apply replacements matched against `baseContent` to `originalContent`
while preserving unchanged line blocks from the original. -/
def applyReplacementsPreservingUnchangedLines
    (originalContent baseContent : JsString) (replacements : List MatchedEdit) :
    Except String JsString := do
  let originalLines := splitLinesWithEndings originalContent
  let baseLines := getLineSpans baseContent
  if originalLines.length ≠ baseLines.length then
    .error "Cannot preserve unchanged lines because the base content has a different line count."
  else
    let groups ← groupReplacements baseLines [] (replacements.insertionSort byIndex)
    .ok (rewriteGroups originalLines baseLines baseContent 0 groups)

structure Edit where
  oldText : JsString
  newText : JsString

structure FuzzyMatchResult where
  index : Nat
  matchLength : Nat
  usedFuzzyMatch : Bool

section

variable (nfkc : JsString → JsString)

/-- Find `oldText` in `content`, trying exact match first, then fuzzy match;
`none` where neither is found. -/
def fuzzyFindText (content oldText : JsString) : Option FuzzyMatchResult :=
  match indexOf oldText content with
  | some exactIndex => some ⟨exactIndex, oldText.length, false⟩
  | none =>
    let fuzzyOldText := normalizeForFuzzyMatch nfkc oldText
    (indexOf fuzzyOldText (normalizeForFuzzyMatch nfkc content)).map fun fuzzyIndex =>
      ⟨fuzzyIndex, fuzzyOldText.length, true⟩

/-- The occurrences of `oldText` as `split` counts them in normalized text. -/
def countOccurrences (content oldText : JsString) : Int :=
  (split (normalizeForFuzzyMatch nfkc content) (normalizeForFuzzyMatch nfkc oldText)).length - 1

def getNotFoundError (path : String) (editIndex totalEdits : Nat) : String :=
  if totalEdits = 1 then
    s!"Could not find the exact text in {path}. The old text must match exactly including all whitespace and newlines."
  else
    s!"Could not find edits[{editIndex}] in {path}. The oldText must match exactly including all whitespace and newlines."

def getDuplicateError (path : String) (editIndex totalEdits : Nat)
    (occurrences : Int) : String :=
  if totalEdits = 1 then
    s!"Found {occurrences} occurrences of the text in {path}. The text must be unique. Please provide more context to make it unique."
  else
    s!"Found {occurrences} occurrences of edits[{editIndex}] in {path}. Each oldText must be unique. Please provide more context to make it unique."

def getEmptyOldTextError (path : String) (editIndex totalEdits : Nat) : String :=
  if totalEdits = 1 then s!"oldText must not be empty in {path}."
  else s!"edits[{editIndex}].oldText must not be empty in {path}."

def getNoChangeError (path : String) (totalEdits : Nat) : String :=
  if totalEdits = 1 then
    s!"No changes made to {path}. The replacement produced identical content. This might indicate an issue with special characters or the text not existing as expected."
  else s!"No changes made to {path}. The replacements produced identical content."

def overlapError (path : String) (previous current : MatchedEdit) : String :=
  s!"edits[{previous.editIndex}] and edits[{current.editIndex}] overlap in {path}. Merge them into one edit or target disjoint regions."

def normalizeEdit (edit : Edit) : Edit where
  oldText := normalizeToLF edit.oldText
  newText := normalizeToLF edit.newText

/-- The loop that matches every edit against the base content. -/
def matchEdits (base : JsString) (path : String) (total : Nat) :
    Nat → List Edit → Except String (List MatchedEdit)
  | _, [] => .ok []
  | i, edit :: rest =>
    match fuzzyFindText nfkc base edit.oldText with
    | none => .error (getNotFoundError path i total)
    | some matchResult =>
      let occurrences := countOccurrences nfkc base edit.oldText
      if occurrences > 1 then .error (getDuplicateError path i total occurrences)
      else do
        let matchedEdits ← matchEdits base path total (i + 1) rest
        .ok (⟨i, matchResult.index, matchResult.matchLength, edit.newText⟩ :: matchedEdits)

/-- The first two neighbours that overlap. -/
def findOverlap : List MatchedEdit → Option (MatchedEdit × MatchedEdit)
  | previous :: current :: rest =>
    if previous.matchIndex + previous.matchLength > current.matchIndex then
      some (previous, current)
    else findOverlap (current :: rest)
  | _ => none

/-- Apply one or more exact-text replacements to LF-normalized content; the
base content is that content. -/
def applyEditsToNormalizedContent (normalizedContent : JsString) (edits : List Edit)
    (path : String) : Except String JsString :=
  let normalizedEdits := edits.map normalizeEdit
  match normalizedEdits.findIdx? fun edit => decide (edit.oldText = []) with
  | some i => .error (getEmptyOldTextError path i normalizedEdits.length)
  | none =>
    let usedFuzzyMatch := normalizedEdits.any fun edit =>
      (fuzzyFindText nfkc normalizedContent edit.oldText).any FuzzyMatchResult.usedFuzzyMatch
    let replacementBaseContent :=
      if usedFuzzyMatch then normalizeForFuzzyMatch nfkc normalizedContent
      else normalizedContent
    do
      let matched ← matchEdits nfkc replacementBaseContent path
        normalizedEdits.length 0 normalizedEdits
      let matchedEdits := matched.insertionSort byIndex
      match findOverlap matchedEdits with
      | some (previous, current) => .error (overlapError path previous current)
      | none =>
        let newContent ← if usedFuzzyMatch then
            applyReplacementsPreservingUnchangedLines normalizedContent
              replacementBaseContent matchedEdits
          else .ok (applyReplacements replacementBaseContent matchedEdits 0)
        if normalizedContent = newContent then
          .error (getNoChangeError path normalizedEdits.length)
        else .ok newContent

end

end ReflectivePi.Tools
