import ReflectivePi.Lib.Search

/-!
# Tui — StdinBuffer

Terminal input that arrives in chunks: complete escape sequences, single
characters and bracketed pastes are taken out of it, and what is incomplete
waits for more. A string is the list of its UTF-16 code units; the timers are
left out.
-/

namespace ReflectivePi.Tui

abbrev CodeUnit := UInt16

def unit (c : Char) : CodeUnit := c.toNat.toUInt16

def esc : CodeUnit := 0x1b

def bracketedPasteStart : List CodeUnit :=
  [esc, unit '[', unit '2', unit '0', unit '0', unit '~']

def bracketedPasteEnd : List CodeUnit :=
  [esc, unit '[', unit '2', unit '0', unit '1', unit '~']

/-! ## Escape sequences -/

inductive SequenceStatus where
  | complete
  | incomplete
  | notEscape
  deriving DecidableEq

def isDigit (c : CodeUnit) : Bool := 0x30 ≤ c && c ≤ 0x39

/-- `/^\d+$/`. -/
def isNumber (text : List CodeUnit) : Bool := text ≠ [] && text.all isDigit

/-- `<digits;digits;digits` between the first and the last character. -/
def hasMouseParts (payload : List CodeUnit) : Bool :=
  let parts := Search.split (payload.drop 1).dropLast [unit ';']
  parts.length = 3 && parts.all isNumber

def isCompleteCsiSequence (data : List CodeUnit) : SequenceStatus :=
  if !([esc, unit '['].isPrefixOf data) then .complete
  else if data.length < 3 then .incomplete
  else
    let payload := data.drop 2
    let lastChar := payload.getLast?.getD 0
    if 0x40 ≤ lastChar ∧ lastChar ≤ 0x7e then
      if [unit '<'].isPrefixOf payload then
        -- the pattern and the check of the parts after it accept the same
        if (lastChar = unit 'M' ∨ lastChar = unit 'm') ∧ hasMouseParts payload then .complete
        else .incomplete
      else .complete
    else .incomplete

def isCompleteOscSequence (data : List CodeUnit) : SequenceStatus :=
  if !([esc, unit ']'].isPrefixOf data) then .complete
  else if [esc, unit '\\'].isSuffixOf data || [(0x07 : CodeUnit)].isSuffixOf data then .complete
  else .incomplete

/-- `isCompleteDcsSequence` and `isCompleteApcSequence`, by their introducer. -/
def isCompleteStringSequence (introducer : CodeUnit) (data : List CodeUnit) : SequenceStatus :=
  if !([esc, introducer].isPrefixOf data) then .complete
  else if [esc, unit '\\'].isSuffixOf data then .complete
  else .incomplete

def isCompleteDcsSequence : List CodeUnit → SequenceStatus :=
  isCompleteStringSequence (unit 'P')

def isCompleteApcSequence : List CodeUnit → SequenceStatus :=
  isCompleteStringSequence (unit '_')

def isCompleteSequence (data : List CodeUnit) : SequenceStatus :=
  if !([esc].isPrefixOf data) then .notEscape
  else if data.length = 1 then .incomplete
  else
    let afterEsc := data.drop 1
    if [unit '['].isPrefixOf afterEsc then
      if [unit '[', unit 'M'].isPrefixOf afterEsc then
        if data.length ≥ 6 then .complete else .incomplete
      else isCompleteCsiSequence data
    else if [unit ']'].isPrefixOf afterEsc then isCompleteOscSequence data
    else if [unit 'P'].isPrefixOf afterEsc then isCompleteDcsSequence data
    else if [unit '_'].isPrefixOf afterEsc then isCompleteApcSequence data
    else if [unit 'O'].isPrefixOf afterEsc then
      if afterEsc.length ≥ 2 then .complete else .incomplete
    else .complete

/-- `parseInt(text, 10)` of digits. -/
def parseDecimal (text : List CodeUnit) : Nat :=
  text.foldl (fun value c => value * 10 + (c.toNat - 0x30)) 0

/-- The code point of `ESC [ digits (: digits?)? (: digits)? u`. -/
def parseUnmodifiedKittyPrintableCodepoint (sequence : List CodeUnit) : Option Nat :=
  if [esc, unit '['].isPrefixOf sequence && [unit 'u'].isSuffixOf sequence then
    match Search.split (sequence.drop 2).dropLast [unit ':'] with
    | first :: rest =>
      let accepted := isNumber first && match rest with
        | [] => true
        | [second] => second.all isDigit
        | [second, third] => second.all isDigit && isNumber third
        | _ => false
      let codepoint := parseDecimal first
      if accepted && codepoint ≥ 32 then some codepoint else none
    | [] => none
  else none

/-- A character that starts an escape sequence after `ESC`. -/
def startsSequence (nextChar : Option CodeUnit) : Bool :=
  nextChar = some (unit '[') || nextChar = some (unit ']') || nextChar = some (unit 'O')
    || nextChar = some (unit 'P') || nextChar = some (unit '_')

/-- The loops of `extractCompleteSequences`: `candidate` is what has been taken
of an escape sequence. The sequences, and the remainder. -/
def extractFrom (candidate : List CodeUnit) :
    List CodeUnit → List (List CodeUnit) × List CodeUnit
  | [] => ([], candidate)
  | c :: rest =>
    if candidate = [] ∧ c ≠ esc then
      let (sequences, remainder) := extractFrom [] rest
      ([c] :: sequences, remainder)
    else
      match isCompleteSequence (candidate ++ [c]) with
      | .incomplete => extractFrom (candidate ++ [c]) rest
      | _ =>
        if candidate ++ [c] = [esc, esc] ∧ startsSequence rest.head? then
          -- only the first ESC is taken
          let (sequences, remainder) := extractFrom [esc] rest
          ([esc] :: sequences, remainder)
        else
          let (sequences, remainder) := extractFrom [] rest
          ((candidate ++ [c]) :: sequences, remainder)

def extractCompleteSequences (buffer : List CodeUnit) : List (List CodeUnit) × List CodeUnit :=
  extractFrom [] buffer

/-! ## The buffer -/

inductive StdinEvent where
  | data (sequence : List CodeUnit)
  | paste (content : List CodeUnit)
  deriving DecidableEq

structure StdinBuffer where
  buffer : List CodeUnit := []
  pasteMode : Bool := false
  pasteBuffer : List CodeUnit := []
  pendingKittyPrintableCodepoint : Option Nat := none

namespace StdinBuffer

def emitDataSequence (s : StdinBuffer) (sequence : List CodeUnit) : StdinBuffer × List StdinEvent :=
  let rawCodepoint := match sequence with
    | [c] => some c.toNat
    | _ => none
  if rawCodepoint ≠ none ∧ rawCodepoint = s.pendingKittyPrintableCodepoint then
    ({ s with pendingKittyPrintableCodepoint := none }, [])
  else
    ({ s with
        pendingKittyPrintableCodepoint := parseUnmodifiedKittyPrintableCodepoint sequence },
      [.data sequence])

def emitSequences (s : StdinBuffer) : List (List CodeUnit) → StdinBuffer × List StdinEvent
  | [] => (s, [])
  | sequence :: sequences =>
    let (s, events) := s.emitDataSequence sequence
    let (s, more) := s.emitSequences sequences
    (s, events ++ more)

/-- A paste that is complete is emitted, and what follows it is processed. -/
def endPaste (process : StdinBuffer → List CodeUnit → StdinBuffer × List StdinEvent)
    (s : StdinBuffer) : StdinBuffer × List StdinEvent :=
  match Search.indexOf bracketedPasteEnd s.pasteBuffer with
  | none => (s, [])
  | some endIndex =>
    let pastedContent := s.pasteBuffer.take endIndex
    let remaining := s.pasteBuffer.drop (endIndex + bracketedPasteEnd.length)
    let s := { s with
      pasteMode := false
      pasteBuffer := []
      pendingKittyPrintableCodepoint := none }
    if remaining ≠ [] then
      let (s, events) := process s remaining
      (s, .paste pastedContent :: events)
    else (s, [.paste pastedContent])

/-- `process`, with a bound on how deep it calls itself. -/
def processWithin : Nat → StdinBuffer → List CodeUnit → StdinBuffer × List StdinEvent
  | 0, s, _ => (s, [])
  | depth + 1, s, str =>
    if str = [] ∧ s.buffer = [] then s.emitDataSequence []
    else
      let s := { s with buffer := s.buffer ++ str }
      if s.pasteMode then
        endPaste (processWithin depth)
          { s with pasteBuffer := s.pasteBuffer ++ s.buffer, buffer := [] }
      else
        match Search.indexOf bracketedPasteStart s.buffer with
        | some startIndex =>
          let (s', events) := if startIndex > 0 then
              s.emitSequences (extractCompleteSequences (s.buffer.take startIndex)).1
            else (s, [])
          let (s', more) := endPaste (processWithin depth) { s' with
              pendingKittyPrintableCodepoint := none
              pasteMode := true
              pasteBuffer := s.buffer.drop (startIndex + bracketedPasteStart.length)
              buffer := [] }
          (s', events ++ more)
        | none =>
          let (sequences, remainder) := extractCompleteSequences s.buffer
          { s with buffer := remainder }.emitSequences sequences

/-- Every call has less to process than the one before it. -/
def process (s : StdinBuffer) (str : List CodeUnit) : StdinBuffer × List StdinEvent :=
  processWithin (s.buffer.length + s.pasteBuffer.length + str.length + 1) s str

/-- The chunks one after the other. -/
def processAll (s : StdinBuffer) : List (List CodeUnit) → StdinBuffer × List StdinEvent
  | [] => (s, [])
  | chunk :: chunks =>
    let (s, events) := s.process chunk
    let (s, more) := s.processAll chunks
    (s, events ++ more)

def flush (s : StdinBuffer) : StdinBuffer × List (List CodeUnit) :=
  if s.buffer = [] then (s, [])
  else ({ s with buffer := [], pendingKittyPrintableCodepoint := none }, [s.buffer])

/-- The callback of the timer. -/
def timesOut (s : StdinBuffer) : StdinBuffer × List StdinEvent :=
  let (s, flushed) := s.flush
  s.emitSequences flushed

/-- A chunk that comes in, or the timer. -/
inductive Step where
  | chunk (str : List CodeUnit) (hne : str ≠ [])
  | timer

def handle (s : StdinBuffer) : Step → StdinBuffer × List StdinEvent
  | .chunk str _ => s.process str
  | .timer => s.timesOut

def handleAll (s : StdinBuffer) : List Step → StdinBuffer × List StdinEvent
  | [] => (s, [])
  | step :: steps =>
    let (s, events) := s.handle step
    let (s, more) := s.handleAll steps
    (s, events ++ more)

def Step.typed : Step → List CodeUnit
  | .chunk str _ => str
  | .timer => []

end StdinBuffer

end ReflectivePi.Tui
