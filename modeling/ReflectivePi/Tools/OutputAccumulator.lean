import ReflectivePi.Tools.Truncate

/-!
# Tools — OutputAccumulator

The output of a command, taken in chunk by chunk. Only an end of the decoded
text is kept, and the totals are counted as the text comes; the raw chunks go to
a file when the output is too large. The decoder is a parameter.
-/

namespace ReflectivePi.Tools

/-- `TextDecoder`; `decode` is a call with `stream: true`. -/
structure TextDecoder (σ : Type) where
  start : σ
  decode : σ → List UInt8 → List Char × σ
  flush : σ → List Char

structure OutputAccumulator (σ : Type) where
  maxLines : Nat
  maxBytes : Nat
  decoder : σ
  rawChunks : List (List UInt8) := []
  tailText : List Char := []
  tailBytes : Nat := 0
  tailStartsAtLineBoundary : Bool := true
  totalRawBytes : Nat := 0
  totalDecodedBytes : Nat := 0
  completedLines : Nat := 0
  totalLines : Nat := 0
  currentLineBytes : Nat := 0
  hasOpenLine : Bool := false
  finished : Bool := false
  /-- The bytes written to the temp file, once there is one. -/
  tempFile : Option (List UInt8) := none

structure OutputSnapshot where
  content : List Char
  truncation : TruncationResult
  /-- What the file at `fullOutputPath` holds. -/
  fullOutput : Option (List UInt8)

/-- What follows the first newline. -/
def afterFirstNewline : List Char → Option (List Char)
  | [] => none
  | c :: rest => if c = '\n' then some rest else afterFirstNewline rest

variable {σ : Type} (D : TextDecoder σ)

namespace OutputAccumulator

def maxRollingBytes (s : OutputAccumulator σ) : Nat := max (s.maxBytes * 2) 1

def shouldUseTempFile (s : OutputAccumulator σ) : Bool :=
  s.totalRawBytes > s.maxBytes || s.totalDecodedBytes > s.maxBytes || s.totalLines > s.maxLines

def ensureTempFile (s : OutputAccumulator σ) : OutputAccumulator σ :=
  match s.tempFile with
  | some _ => s
  | none => { s with tempFile := some s.rawChunks.flatten, rawChunks := [] }

def trimTail (s : OutputAccumulator σ) : OutputAccumulator σ :=
  let length := byteLength s.tailText
  if length ≤ s.maxRollingBytes then { s with tailBytes := length }
  else
    let (before, after) := splitAtByte (length - s.maxRollingBytes) s.tailText
    { s with
      tailStartsAtLineBoundary :=
        if before = [] then s.tailStartsAtLineBoundary else endsWithNewline before
      tailText := after
      tailBytes := byteLength after }

/-- The text goes to the tail. -/
def extendTail (s : OutputAccumulator σ) (text : List Char) : OutputAccumulator σ :=
  let bytes := byteLength text
  let s := { s with
    totalDecodedBytes := s.totalDecodedBytes + bytes
    tailText := s.tailText ++ text
    tailBytes := s.tailBytes + bytes }
  if s.tailBytes > s.maxRollingBytes * 2 then s.trimTail else s

def countLines (s : OutputAccumulator σ) (text : List Char) : OutputAccumulator σ :=
  let (lines, rest) := Lines.split '\n' text
  let s := if lines = [] then
      { s with
        currentLineBytes := s.currentLineBytes + byteLength text
        hasOpenLine := true }
    else
      { s with
        completedLines := s.completedLines + lines.length
        currentLineBytes := byteLength rest
        hasOpenLine := rest ≠ [] }
  { s with totalLines := s.completedLines + (if s.hasOpenLine then 1 else 0) }

def appendDecodedText (s : OutputAccumulator σ) (text : List Char) : OutputAccumulator σ :=
  if text = [] then s else (s.extendTail text).countLines text

/-- The chunk goes to the file, or to those that are kept. -/
def store (s : OutputAccumulator σ) (data : List UInt8) : OutputAccumulator σ :=
  if s.tempFile.isSome || s.shouldUseTempFile then
    let s := s.ensureTempFile
    { s with tempFile := s.tempFile.map (· ++ data) }
  else if data ≠ [] then { s with rawChunks := s.rawChunks ++ [data] }
  else s

def append (s : OutputAccumulator σ) (data : List UInt8) : Except String (OutputAccumulator σ) :=
  if s.finished then .error "Cannot append to a finished output accumulator"
  else
    let (text, decoder) := D.decode s.decoder data
    let s := { s with totalRawBytes := s.totalRawBytes + data.length, decoder }
    .ok ((s.appendDecodedText text).store data)

def finish (s : OutputAccumulator σ) : OutputAccumulator σ :=
  if s.finished then s
  else
    let s := { s with finished := true }.appendDecodedText (D.flush s.decoder)
    if s.shouldUseTempFile then s.ensureTempFile else s

def getSnapshotText (s : OutputAccumulator σ) : List Char :=
  if s.tailStartsAtLineBoundary then s.tailText
  else (afterFirstNewline s.tailText).getD s.tailText

def truncation (s : OutputAccumulator σ) : TruncationResult :=
  let tailTruncation := truncateTail s.getSnapshotText s.maxLines s.maxBytes
  let truncated := s.totalLines > s.maxLines || s.totalDecodedBytes > s.maxBytes
  { tailTruncation with
    truncated
    truncatedBy := if truncated then
        some (tailTruncation.truncatedBy.getD
          (if s.totalDecodedBytes > s.maxBytes then .bytes else .lines))
      else none
    totalLines := s.totalLines
    totalBytes := s.totalDecodedBytes
    maxLines := s.maxLines
    maxBytes := s.maxBytes }

def snapshot (s : OutputAccumulator σ) (persistIfTruncated : Bool) :
    OutputSnapshot × OutputAccumulator σ :=
  let s' := if persistIfTruncated && s.truncation.truncated then s.ensureTempFile else s
  (⟨s.truncation.content, s.truncation, s'.tempFile⟩, s')

end OutputAccumulator

/-- What the decoder makes of the chunks from a state on. -/
def TextDecoder.stream : σ → List (List UInt8) → List Char
  | state, [] => D.flush state
  | state, chunk :: chunks =>
    let (text, state) := D.decode state chunk
    text ++ TextDecoder.stream state chunks

/-- The tail is an end of the output; when it is not all of it, it is long. -/
structure TailOf (s : OutputAccumulator σ) (output dropped : List Char) : Prop where
  output_eq : output = dropped ++ s.tailText
  bytes : s.tailBytes = byteLength s.tailText
  boundary : s.tailStartsAtLineBoundary = true ↔ dropped = [] ∨ endsWithNewline dropped = true
  long : dropped ≠ [] → s.maxRollingBytes ≤ byteLength s.tailText + 3
  full : dropped ≠ [] → s.tailStartsAtLineBoundary = true →
    s.maxRollingBytes ≤ byteLength s.tailText

structure Counted (s : OutputAccumulator σ) (output : List Char) : Prop where
  totalDecodedBytes : s.totalDecodedBytes = byteLength output
  completedLines : s.completedLines = (Lines.split '\n' output).1.length
  currentLineBytes : s.currentLineBytes = byteLength (Lines.split '\n' output).2
  hasOpenLine : s.hasOpenLine = true ↔ (Lines.split '\n' output).2 ≠ []
  totalLines : s.totalLines = (splitLinesForCounting output).length

/-- All bytes are in the file, or kept. -/
def Stored (s : OutputAccumulator σ) (data : List UInt8) : Prop :=
  s.tempFile.getD s.rawChunks.flatten = data

end ReflectivePi.Tools
