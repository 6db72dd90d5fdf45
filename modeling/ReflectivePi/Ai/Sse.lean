import ReflectivePi.Lib.Lines

/-!
# Ai — server-sent events

The three readers of event streams. Each gets the text that the streaming
decoder makes of every network chunk, and what its last call gives: nothing,
or the replacement character where the bytes end within a character. A payload
stands for the event that `JSON.parse` makes of it.
-/

namespace ReflectivePi.Ai

abbrev Text := List Char

/-- `decoder.decode()` -/
def finalDecode (truncated : Bool) : Text := if truncated then ['\uFFFD'] else []

/-! ## Anthropic -/

structure ServerSentEvent where
  event : Option Text
  data : Text
  raw : List Text
  deriving DecidableEq

structure SseDecoderState where
  event : Option Text := none
  data : List Text := []
  raw : List Text := []

/-- `!state.event && state.data.length === 0` -/
def SseDecoderState.isIdle (state : SseDecoderState) : Bool :=
  (state.event.all fun event => event.isEmpty) && state.data.isEmpty

def flushSseEvent (state : SseDecoderState) : Option ServerSentEvent × SseDecoderState :=
  if state.isIdle then (none, state)
  else
    (some { event := state.event, data := ['\n'].intercalate state.data, raw := state.raw }, {})

def fieldName (line : Text) : Text := line.takeWhile (· ≠ ':')

def fieldValue (line : Text) : Text :=
  match (line.dropWhile (· ≠ ':')).drop 1 with
  | ' ' :: value => value
  | value => value

def decodeSseLine (line : Text) (state : SseDecoderState) :
    Option ServerSentEvent × SseDecoderState :=
  if line = [] then flushSseEvent state
  else
    let state := { state with raw := state.raw ++ [line] }
    if line.head? = some ':' then (none, state)
    else if fieldName line = "event".toList then
      (none, { state with event := some (fieldValue line) })
    else if fieldName line = "data".toList then
      (none, { state with data := state.data ++ [fieldValue line] })
    else (none, state)

/-- A line that ends with CR, LF or both, and the rest. -/
def consumeLine : Text → Option (Text × Text)
  | [] => none
  | '\r' :: '\n' :: rest => some ([], rest)
  | '\r' :: rest => some ([], rest)
  | '\n' :: rest => some ([], rest)
  | c :: rest => (consumeLine rest).map fun (line, rest) => (c :: line, rest)

/-- What has been read: the rest of the buffer, the decoder, and the events. -/
structure SseReader where
  buffer : Text := []
  state : SseDecoderState := {}
  events : List ServerSentEvent := []

/-- The loop over the lines of the buffer. -/
def consumeLines : Nat → SseReader → SseReader
  | 0, reader => reader
  | fuel + 1, reader =>
    match consumeLine reader.buffer with
    | none => reader
    | some (line, rest) =>
      let (event, state) := decodeSseLine line reader.state
      consumeLines fuel { buffer := rest, state, events := reader.events ++ event.toList }

def SseReader.feed (reader : SseReader) (chunk : Text) : SseReader :=
  let buffer := reader.buffer ++ chunk
  consumeLines buffer.length { reader with buffer }

def SseReader.finish (reader : SseReader) : List ServerSentEvent :=
  let (event, state) :=
    if reader.buffer = [] then (none, reader.state) else decodeSseLine reader.buffer reader.state
  reader.events ++ event.toList ++ (flushSseEvent state).1.toList

def iterateSseMessages (chunks : List Text) (truncated : Bool) : List ServerSentEvent :=
  ((chunks.foldl SseReader.feed {}).feed (finalDecode truncated)).finish

/-! ## Frames -/

/-- The text before the first blank line, and after it. -/
def splitFrame : Text → Option (Text × Text)
  | '\n' :: '\n' :: rest => some ([], rest)
  | c :: rest => (splitFrame rest).map fun (frame, rest) => (c :: frame, rest)
  | [] => none

/-- The frames of a buffer, and what is left. -/
def drainFrames : Nat → Text → List Text × Text
  | 0, buffer => ([], buffer)
  | fuel + 1, buffer =>
    match splitFrame buffer with
    | none => ([], buffer)
    | some (frame, rest) =>
      let (frames, rest) := drainFrames fuel rest
      (frame :: frames, rest)

def drain (buffer : Text) : List Text × Text := drainFrames buffer.length buffer

/-- `text.split("\n")` -/
def splitLines (text : Text) : List Text :=
  (Lines.split '\n' text).1 ++ [(Lines.split '\n' text).2]

/-- What `trim` takes off. -/
def isSpace (c : Char) : Bool :=
  (9 ≤ c.toNat && c.toNat ≤ 13) || (0x2000 ≤ c.toNat && c.toNat ≤ 0x200A) ||
    [0x20, 0xA0, 0x1680, 0x2028, 0x2029, 0x202F, 0x205F, 0x3000, 0xFEFF].contains c.toNat

def trim (text : Text) : Text :=
  ((text.dropWhile isSpace).reverse.dropWhile isSpace).reverse

def isDataLine (line : Text) : Bool := "data:".toList.isPrefixOf line

/-- `line.slice(5).trim()` -/
def dataOf (line : Text) : Text := trim (line.drop 5)

/-- `data && data !== "[DONE]"` -/
def payload (data : Text) : Option Text :=
  if data = [] || data = "[DONE]".toList then none else some data

/-- `replace(/\r\n/g, "\n")` -/
def replaceLineEnds : Text → Text
  | '\r' :: '\n' :: rest => '\n' :: replaceLineEnds rest
  | c :: rest => c :: replaceLineEnds rest
  | [] => []

def parsePiMessagesEvent (raw : Text) : Option Text :=
  ((splitLines raw).find? isDataLine).bind fun line => payload (dataOf line)

/-- One turn of the loop: the events, and the rest of the buffer. -/
def feedPiMessages (reader : List Text × Text) (chunk : Text) : List Text × Text :=
  let (frames, rest) := drain (replaceLineEnds (reader.2 ++ chunk))
  (reader.1 ++ frames.filterMap parsePiMessagesEvent, rest)

def readPiMessagesEvents (chunks : List Text) (truncated : Bool) : List Text :=
  let (events, buffer) := feedPiMessages (chunks.foldl feedPiMessages ([], [])) (finalDecode truncated)
  if trim buffer = [] then events else events ++ (parsePiMessagesEvent buffer).toList

def parseCodexFrame (chunk : Text) : Option Text :=
  match ((splitLines chunk).filter isDataLine).map dataOf with
  | [] => none
  | dataLines => payload (trim (['\n'].intercalate dataLines))

def feedSSE (reader : List Text × Text) (chunk : Text) : List Text × Text :=
  let (frames, rest) := drain (reader.2 ++ chunk)
  (reader.1 ++ frames.filterMap parseCodexFrame, rest)

/-- The last turn of the loop; the end of the stream ends the frame. -/
def finishSSE (reader : List Text × Text) (chunk : Text) : List Text :=
  let buffer := reader.2 ++ chunk
  let buffer := if trim buffer = [] then buffer else buffer ++ ['\n', '\n']
  reader.1 ++ (drain buffer).1.filterMap parseCodexFrame

def parseSSE (chunks : List Text) (truncated : Bool) : List Text :=
  finishSSE (chunks.foldl feedSSE ([], [])) (finalDecode truncated)

end ReflectivePi.Ai
