import ReflectivePi.Tools.TruncateHead

/-!
# Tools — Read text

The `read` tool on a text file: the lines from an offset on, as far as the limit
of the call and the limits of `truncateHead` allow, and a notice that says where
to go on. Calls that follow the notices page through the file.
-/

namespace ReflectivePi.Tools

open List

/-! ## The tool -/

/-- `(bytes / unit).toFixed(1)`: a quotient exactly between two is rounded up. -/
def toFixed1 (bytes unit : Nat) : String :=
  let tenths := (bytes * 20 + unit) / (2 * unit)
  s!"{tenths / 10}.{tenths % 10}"

/-- Format bytes as human-readable size. -/
def formatSize (bytes : Nat) : String :=
  if bytes < 1024 then s!"{bytes}B"
  else if bytes < 1024 * 1024 then s!"{toFixed1 bytes 1024}KB"
  else s!"{toFixed1 bytes (1024 * 1024)}MB"

/-- What the output text says about the rest of the file. -/
inductive ReadNotice where
  | showing (startLineDisplay endLineDisplay totalFileLines : Nat) (truncatedBy : Limit)
      (nextOffset : Nat)
  | moreLines (remaining nextOffset : Nat)
  | firstLineExceedsLimit (startLineDisplay firstLineBytes : Nat) (path : String)

def ReadNotice.text : ReadNotice → String
  | .showing startLineDisplay endLineDisplay totalFileLines .lines nextOffset =>
    s!"\n\n[Showing lines {startLineDisplay}-{endLineDisplay} of {totalFileLines}. Use offset={nextOffset} to continue.]"
  | .showing startLineDisplay endLineDisplay totalFileLines .bytes nextOffset =>
    s!"\n\n[Showing lines {startLineDisplay}-{endLineDisplay} of {totalFileLines} ({formatSize DEFAULT_MAX_BYTES} limit). Use offset={nextOffset} to continue.]"
  | .moreLines remaining nextOffset =>
    s!"\n\n[{remaining} more lines in file. Use offset={nextOffset} to continue.]"
  | .firstLineExceedsLimit startLineDisplay firstLineBytes path =>
    s!"[Line {startLineDisplay} is {formatSize firstLineBytes}, exceeds {formatSize DEFAULT_MAX_BYTES} limit. Use bash: sed -n '{startLineDisplay}p' {path} | head -c {DEFAULT_MAX_BYTES}]"

/-- The offset that a notice names. -/
def ReadNotice.nextOffset : ReadNotice → Option Nat
  | .showing _ _ _ _ nextOffset => some nextOffset
  | .moreLines _ nextOffset => some nextOffset
  | .firstLineExceedsLimit _ _ _ => none

structure ReadOutput where
  /-- The part of the file that is shown. -/
  shown : List Char
  notice : Option ReadNotice
  /-- `details.truncation`. -/
  truncation : Option TruncationResult

def ReadOutput.outputText (output : ReadOutput) : String :=
  String.ofList output.shown ++ (output.notice.map ReadNotice.text).getD ""

/-- Convert from 1-indexed input to 0-indexed array access. -/
def startLineOf (offset : Option Nat) : Nat :=
  match offset with
  | none => 0
  | some offset => offset - 1

/-- If limit is specified by the user, honor it first. -/
def endLineOf (startLine totalFileLines : Nat) : Option Nat → Nat
  | some limit => min (startLine + limit) totalFileLines
  | none => totalFileLines

/-- The text branch of `execute`. -/
def readText (textContent : List Char) (path : String) (offset limit : Option Nat) :
    Except String ReadOutput :=
  let allLines := splitOnNewline textContent
  let startLine := startLineOf offset
  let startLineDisplay := startLine + 1
  if startLine ≥ allLines.length then
    .error s!"Offset {offset.getD 0} is beyond end of file ({allLines.length} lines total)"
  else
    let endLine := endLineOf startLine allLines.length limit
    let selectedContent := joinLines ((allLines.take endLine).drop startLine)
    let truncation := truncateHead selectedContent DEFAULT_MAX_LINES DEFAULT_MAX_BYTES
    if truncation.firstLineExceedsLimit then
      .ok { shown := []
            notice := some (.firstLineExceedsLimit startLineDisplay
              (byteLength (allLines.getD startLine [])) path)
            truncation := some truncation }
    else if truncation.truncated then
      let endLineDisplay := startLineDisplay + truncation.outputLines - 1
      .ok { shown := truncation.content
            notice := some (.showing startLineDisplay endLineDisplay allLines.length
              (truncation.truncatedBy.getD .bytes) (endLineDisplay + 1))
            truncation := some truncation }
    else
      match limit with
      | some _ =>
        let userLimitedLines := endLine - startLine
        if startLine + userLimitedLines < allLines.length then
          .ok { shown := truncation.content
                notice := some (.moreLines (allLines.length - (startLine + userLimitedLines))
                  (startLine + userLimitedLines + 1))
                truncation := none }
        else .ok { shown := truncation.content, notice := none, truncation := none }
      | none => .ok { shown := truncation.content, notice := none, truncation := none }

/-- The notice says which lines are shown and where to go on. -/
def ReadNotice.Names (total start stop : Nat) : ReadNotice → Prop
  | .showing startLineDisplay endLineDisplay totalFileLines _ nextOffset =>
    startLineDisplay = start + 1 ∧ endLineDisplay = stop ∧ totalFileLines = total ∧
      nextOffset = stop + 1
  | .moreLines remaining nextOffset => stop + remaining = total ∧ nextOffset = stop + 1
  | .firstLineExceedsLimit _ _ _ => False

/-- The output shows the lines from `start` on, up to `stop`; there is a notice
exactly where that is not the end of the file. -/
structure ReadOutput.Shows (output : ReadOutput) (lines : List (List Char)) (start stop : Nat) :
    Prop where
  lt : start < stop
  le : stop ≤ lines.length
  shown : output.shown = joinLines ((lines.take stop).drop start)
  noNotice : output.notice = none ↔ stop = lines.length
  named : ∀ notice, output.notice = some notice → notice.Names lines.length start stop

/-- Outputs that show runs of lines, each from where the one before stops. -/
inductive Runs (lines : List (List Char)) : Nat → List ReadOutput → Nat → Prop
  | nil (start : Nat) : Runs lines start [] start
  | cons {start next stop : Nat} {output : ReadOutput} {outputs : List ReadOutput}
      (hshows : output.Shows lines start next) (hrest : Runs lines next outputs stop) :
      Runs lines start (output :: outputs) stop

variable {lines : List (List Char)} {start : Nat} {offset : Option Nat}

variable {textContent : List Char} {path : String}

theorem ReadNotice.Names.nextOffset {total stop : Nat} {notice : ReadNotice}
    (h : notice.Names total start stop) : notice.nextOffset = some (stop + 1) := by
  cases notice with
  | showing _ _ _ _ _ => exact congrArg some h.2.2.2
  | moreLines _ _ => exact congrArg some h.2
  | firstLineExceedsLimit _ _ _ => exact h.elim

end ReflectivePi.Tools
