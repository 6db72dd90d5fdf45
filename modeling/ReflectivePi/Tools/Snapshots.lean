import ReflectivePi.Tools.Streaming

/-!
# Tools — Snapshots

The snapshot of an accumulated output beside the truncation of the whole output.
They differ only where the tail starts inside a line that has ended, and what
follows that line does not fill a limit.
-/

namespace ReflectivePi.Tools

open List Option

variable {σ : Type} {D : TextDecoder σ} {s : OutputAccumulator σ}
  {output dropped content : List Char} {data : List UInt8} {maxLines maxBytes : Nat}

/-! ## What a truncation shows -/

/-- The fields of a result that its text decides. -/
structure Shown where
  content : List Char
  truncatedBy : Option Limit
  outputLines : Nat
  outputBytes : Nat
  lastLinePartial : Bool

def TruncationResult.shown (result : TruncationResult) : Shown :=
  ⟨result.content, result.truncatedBy, result.outputLines, result.outputBytes,
    result.lastLinePartial⟩

def Taken.shown (maxLines maxBytes : Nat) (taken : Taken) : Shown where
  content := joinLines taken.outputLines
  truncatedBy := some
    (if taken.outputLines.length ≥ maxLines ∧ taken.outputBytesCount ≤ maxBytes then .lines
    else taken.truncatedBy)
  outputLines := taken.outputLines.length
  outputBytes := byteLength (joinLines taken.outputLines)
  lastLinePartial := taken.lastLinePartial

/-- The content is within both limits. -/
def Within (maxLines maxBytes : Nat) (content : List Char) : Prop :=
  (splitLinesForCounting content).length ≤ maxLines ∧ byteLength content ≤ maxBytes

/-- The text fills a limit, or ends without a newline. -/
def Readable (maxLines maxBytes : Nat) (rest : List Char) : Prop :=
  rest ≠ [] ∧ (¬ Fits maxLines maxBytes (splitLinesForCounting rest) ∨
      ((splitLinesForCounting rest).length = maxLines ∧ maxBytes < byteLength rest) ∨
      ((splitLinesForCounting rest).length < maxLines ∧ endsWithNewline rest = false))

/-- The limit that a snapshot names, by that of its text. -/
def named (maxBytes : Nat) (output : List Char) (truncatedBy : Option Limit) : Limit :=
  truncatedBy.getD (if byteLength output > maxBytes then .bytes else .lines)

section

variable (h : Accumulated s maxLines maxBytes output data)

include h

theorem Accumulated.shown :
    s.truncation.shown = { (truncateTail s.getSnapshotText maxLines maxBytes).shown with
          truncatedBy := if s.truncation.truncated then
            some (named maxBytes output
              (truncateTail s.getSnapshotText maxLines maxBytes).truncatedBy) else none } := by
  rw [← h.maxLines, ← h.maxBytes, named, ← h.counted.totalDecodedBytes]
  rfl

end

section

variable {before rest : List Char}
  (hopen : ¬ (dropped = [] ∨ endsWithNewline dropped = true)) (hmem : '\n' ∉ before)

end

def asciiText (data : List UInt8) : List Char := data.map fun byte => Char.ofNat byte.toNat

def asciiDecoder : TextDecoder Unit := ⟨(), fun _ data => (asciiText data, ()), fun _ => []⟩

end ReflectivePi.Tools
