import ReflectivePi.Frames.Json

/-!
# Frames — Encoder

An assistant message while it streams: events that all show one live
accumulator, and the compact frames the encoder makes of them. What a block
already showed when its start was consumed is taken off its deltas.
-/

namespace ReflectivePi.Frames

open Delta (JsString)

/-! ## Messages -/

structure TextContent where
  text : JsString
  textSignature : Option JsString

structure ThinkingContent where
  thinking : JsString
  thinkingSignature : Option JsString
  redacted : Option Bool

structure ToolCall (ν : Type) where
  id : JsString
  name : JsString
  arguments : JsonValue ν
  thoughtSignature : Option JsString
  namespaceName : Option JsString

inductive BlockKind where
  | text
  | thinking
  | toolCall
  deriving DecidableEq

def BlockKind.name : BlockKind → String
  | .text => "text"
  | .thinking => "thinking"
  | .toolCall => "toolCall"

inductive ContentBlock (ν : Type) where
  | text (content : TextContent)
  | thinking (content : ThinkingContent)
  | toolCall (toolCall : ToolCall ν)

def ContentBlock.kind {ν : Type} : ContentBlock ν → BlockKind
  | .text _ => .text
  | .thinking _ => .thinking
  | .toolCall _ => .toolCall

structure AssistantMessage (ν : Type) where
  content : List (ContentBlock ν)
  api : JsString
  provider : JsString
  model : JsString
  responseModel : Option JsString
  responseId : Option JsString
  providerThinkingLevel : Option JsString
  diagnostics : Option (JsonValue ν)
  usage : JsonValue ν
  stopReason : JsString
  deferred : Option (JsonValue ν)
  errorMessage : Option JsString
  rawStopReason : Option JsString
  endTurn : Option Bool
  timestamp : Nat

def cloneStartMessage {ν : Type} (message : AssistantMessage ν) : AssistantMessage ν :=
  { message with
    content := []
    stopReason := Delta.js "pending"
    deferred := none
    errorMessage := none
    rawStopReason := none
    endTurn := none }

/-- An event, with `partial` as it is when the event is consumed. -/
inductive AssistantMessageEvent (ν : Type) where
  | start (shown : AssistantMessage ν)
  | textStart (contentIndex : Nat) (shown : AssistantMessage ν)
  | textDelta (contentIndex : Nat) (delta : JsString)
  | textEnd (contentIndex : Nat) (content : JsString) (shown : AssistantMessage ν)
  | thinkingStart (contentIndex : Nat) (shown : AssistantMessage ν)
  | thinkingDelta (contentIndex : Nat) (delta : JsString)
  | thinkingEnd (contentIndex : Nat) (content : JsString) (shown : AssistantMessage ν)
  | toolcallStart (contentIndex : Nat) (shown : AssistantMessage ν)
  | toolcallDelta (contentIndex : Nat) (delta : JsString)
  | toolcallEnd (contentIndex : Nat) (toolCall : ToolCall ν) (shown : AssistantMessage ν)
  | done
  | error

def AssistantMessageEvent.type {ν : Type} : AssistantMessageEvent ν → String
  | .start _ => "start"
  | .textStart _ _ => "text_start"
  | .textDelta _ _ => "text_delta"
  | .textEnd _ _ _ => "text_end"
  | .thinkingStart _ _ => "thinking_start"
  | .thinkingDelta _ _ => "thinking_delta"
  | .thinkingEnd _ _ _ => "thinking_end"
  | .toolcallStart _ _ => "toolcall_start"
  | .toolcallDelta _ _ => "toolcall_delta"
  | .toolcallEnd _ _ _ => "toolcall_end"
  | .done => "done"
  | .error => "error"

inductive AssistantMessageFrame (ν : Type) where
  | start (message : AssistantMessage ν)
  | textStart (contentIndex : Nat) (content : TextContent)
  | textDelta (contentIndex : Nat) (delta : JsString)
  | textEnd (contentIndex : Nat) (content : JsString) (textSignature : Option JsString)
  | thinkingStart (contentIndex : Nat) (content : ThinkingContent)
  | thinkingDelta (contentIndex : Nat) (delta : JsString)
  | thinkingEnd (contentIndex : Nat) (content : JsString)
      (thinkingSignature : Option JsString) (redacted : Option Bool)
  | toolcallStart (contentIndex : Nat) (toolCall : ToolCall ν)
  | toolcallCheckpoint (contentIndex : Nat) (json : JsString)
  | toolcallDelta (contentIndex : Nat) (delta : JsString)
  | toolcallEnd (contentIndex : Nat) (toolCall : ToolCall ν)

/-! ## The encoder -/

inductive EncoderBlockState where
  /-- A text or a thinking block. -/
  | text (kind : BlockKind) (coveredChars deltaChars : Nat)
  | toolCall (caughtUp : Bool) (catchupJson snapshotArguments : JsString)

def EncoderBlockState.kind : EncoderBlockState → BlockKind
  | .text kind _ _ => kind
  | .toolCall _ _ _ => .toolCall

structure AssistantMessageFrameEncoder where
  started : Bool
  terminal : Bool
  blocks : InsertionMap Nat EncoderBlockState

/-- `2 ** 53 - 1`. -/
def maxSafeInteger : Nat := 9007199254740991

def assertContentIndex (contentIndex : Nat) : Except String Unit :=
  if contentIndex ≤ maxSafeInteger then .ok ()
  else .error s!"Invalid assistant message frame contentIndex: {contentIndex}"

def eventBlock {ν : Type} (event : String) (contentIndex : Nat)
    (shown : AssistantMessage ν) : Except String (ContentBlock ν) := do
  assertContentIndex contentIndex
  match shown.content[contentIndex]? with
  | none => throw s!"{event} event has no content block at index {contentIndex}"
  | some block => return block

def wrongBlock {ν : Type} (event : String) (contentIndex : Nat)
    (block : ContentBlock ν) : String :=
  s!"{event} event points to {block.kind.name} block at index {contentIndex}"

namespace AssistantMessageFrameEncoder

def new : AssistantMessageFrameEncoder := ⟨false, false, .empty⟩

def startBlock (encoder : AssistantMessageFrameEncoder) (contentIndex : Nat)
    (state : EncoderBlockState) : Except String AssistantMessageFrameEncoder := do
  assertContentIndex contentIndex
  if encoder.blocks.has contentIndex then
    throw s!"Assistant message block {contentIndex} starts more than once"
  else return { encoder with blocks := encoder.blocks.set contentIndex state }

def notStarted (contentIndex : Nat) (kind : BlockKind) : String :=
  s!"Assistant message {kind.name} block {contentIndex} has not started"

def wrongKind (contentIndex : Nat) (state : EncoderBlockState)
    (kind : BlockKind) : String :=
  s!"Assistant message block {contentIndex} is {state.kind.name}, not {kind.name}"

def block (encoder : AssistantMessageFrameEncoder) (contentIndex : Nat)
    (kind : BlockKind) : Except String EncoderBlockState := do
  assertContentIndex contentIndex
  match encoder.blocks.get? contentIndex with
  | none => throw (notStarted contentIndex kind)
  | some state =>
    if state.kind ≠ kind then throw (wrongKind contentIndex state kind)
    else return state

def endBlock (encoder : AssistantMessageFrameEncoder) (contentIndex : Nat)
    (kind : BlockKind) : Except String AssistantMessageFrameEncoder := do
  let _ ← encoder.block contentIndex kind
  return { encoder with blocks := encoder.blocks.delete contentIndex }

/-- The delta with the characters cut off that the snapshot covered. -/
def encodeTextDelta (encoder : AssistantMessageFrameEncoder)
    (contentIndex : Nat) (delta : JsString) (kind : BlockKind) :
    Except String (Option JsString × AssistantMessageFrameEncoder) := do
  match ← encoder.block contentIndex kind with
  | .toolCall _ _ _ => throw "Unreachable text encoder state"
  | .text kind coveredChars deltaStart =>
    let state := .text kind coveredChars (deltaStart + delta.length)
    let encoder := { encoder with
      blocks := encoder.blocks.set contentIndex state }
    let covered := coveredChars - deltaStart
    if delta.length ≤ covered then return (none, encoder)
    else return (some (delta.drop covered), encoder)

section

variable {ν : Type} [DecidableEq ν] (T : JsonText ν)

def emptyParsedToolArguments : JsString :=
  T.stringify (T.parseStreamingJson [])

/-- What one delta does to the block of a tool call, and whether a frame
comes of it. Deltas are held back until they parse to an extension of what
the start showed. -/
def toolcallDelta (contentIndex : Nat) (delta : JsString) (caughtUp : Bool)
    (catchupJson snapshotArguments : JsString) :
    Option (AssistantMessageFrame ν) × EncoderBlockState :=
  if caughtUp then
    (if delta.length = 0 then none else some (.toolcallDelta contentIndex delta),
      .toolCall caughtUp catchupJson snapshotArguments)
  else
    let json := catchupJson ++ delta
    let argumentsValue := T.parseStreamingJson json
    if T.stringify argumentsValue ≠ snapshotArguments
        ∧ isJsonPrefix (T.parseStreamingJson snapshotArguments) argumentsValue = false then
      (none, .toolCall false json snapshotArguments)
    else
      (if json.length = 0 then none
        else some (.toolcallCheckpoint contentIndex json), .toolCall true [] [])

/-- The events about one block. -/
def encodeBlock (encoder : AssistantMessageFrameEncoder) :
    AssistantMessageEvent ν → Except String (Option (AssistantMessageFrame ν)
        × AssistantMessageFrameEncoder)
  | .textStart contentIndex shown => do
    match ← eventBlock "text_start" contentIndex shown with
    | .text content =>
      let encoder ← encoder.startBlock contentIndex (.text .text content.text.length 0)
      return (some (.textStart contentIndex content), encoder)
    | block => throw (wrongBlock "text_start" contentIndex block)
  | .textDelta contentIndex delta => do
    let (delta, encoder) ← encoder.encodeTextDelta contentIndex delta .text
    return (delta.map (.textDelta contentIndex), encoder)
  | .textEnd contentIndex content shown => do
    match ← eventBlock "text_end" contentIndex shown with
    | .text block =>
      let encoder ← encoder.endBlock contentIndex .text
      return (some (.textEnd contentIndex content block.textSignature), encoder)
    | block => throw (wrongBlock "text_end" contentIndex block)
  | .thinkingStart contentIndex shown => do
    match ← eventBlock "thinking_start" contentIndex shown with
    | .thinking content =>
      let encoder ← encoder.startBlock contentIndex (.text .thinking content.thinking.length 0)
      return (some (.thinkingStart contentIndex content), encoder)
    | block => throw (wrongBlock "thinking_start" contentIndex block)
  | .thinkingDelta contentIndex delta => do
    let (delta, encoder) ← encoder.encodeTextDelta contentIndex delta .thinking
    return (delta.map (.thinkingDelta contentIndex), encoder)
  | .thinkingEnd contentIndex content shown => do
    match ← eventBlock "thinking_end" contentIndex shown with
    | .thinking block =>
      let encoder ← encoder.endBlock contentIndex .thinking
      return (some (.thinkingEnd contentIndex content
        block.thinkingSignature block.redacted), encoder)
    | block => throw (wrongBlock "thinking_end" contentIndex block)
  | .toolcallStart contentIndex shown => do
    match ← eventBlock "toolcall_start" contentIndex shown with
    | .toolCall content =>
      let snapshotArguments := T.stringify content.arguments
      let caughtUp := decide (snapshotArguments = emptyParsedToolArguments T)
      let encoder ← encoder.startBlock contentIndex (.toolCall caughtUp []
        (if caughtUp then [] else snapshotArguments))
      return (some (.toolcallStart contentIndex content), encoder)
    | block => throw (wrongBlock "toolcall_start" contentIndex block)
  | .toolcallDelta contentIndex delta => do
    match ← encoder.block contentIndex .toolCall with
    | .text _ _ _ => throw "Unreachable tool-call encoder state"
    | .toolCall caughtUp catchupJson snapshotArguments =>
      let (frame, state) := toolcallDelta T contentIndex delta caughtUp
        catchupJson snapshotArguments
      return (frame, { encoder with
        blocks := encoder.blocks.set contentIndex state })
  | .toolcallEnd contentIndex toolCall shown => do
    match ← eventBlock "toolcall_end" contentIndex shown with
    | .toolCall _ =>
      let encoder ← encoder.endBlock contentIndex .toolCall
      return (some (.toolcallEnd contentIndex toolCall), encoder)
    | block => throw (wrongBlock "toolcall_end" contentIndex block)
  | .start _ | .done | .error => return (none, encoder)

def encode (encoder : AssistantMessageFrameEncoder) (event : AssistantMessageEvent ν) :
    Except String (Option (AssistantMessageFrame ν)
      × AssistantMessageFrameEncoder) :=
  if encoder.terminal then
    .error s!"Assistant message event {event.type} follows a terminal event"
  else
    match event with
    | .start shown =>
      if encoder.started then
        .error "Assistant message stream contains more than one start event"
      else .ok (some (.start (cloneStartMessage shown)), { encoder with started := true })
    | .done =>
      if !encoder.started then
        .error "Assistant message done event appears before start"
      else .ok (none, { encoder with terminal := true })
    | .error => .ok (none, { encoder with terminal := true })
    | event =>
      if !encoder.started then
        .error s!"Assistant message {event.type} event appears before start"
      else encoder.encodeBlock T event

/-- The frames of a list of events. -/
def encodeAll (encoder : AssistantMessageFrameEncoder) :
    List (AssistantMessageEvent ν) → Except String (List (AssistantMessageFrame ν)
        × AssistantMessageFrameEncoder)
  | [] => return ([], encoder)
  | event :: events => do
    let (frame, encoder) ← encoder.encode T event
    let (frames, encoder) ← encoder.encodeAll events
    return (frame.toList ++ frames, encoder)

end

end AssistantMessageFrameEncoder

end ReflectivePi.Frames
