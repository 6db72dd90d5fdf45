import ReflectivePi.Frames.Encoder

/-!
# Frames — Reducer

Frames replayed to a message: each frame edits the block it names, and the
JSON collected for an unfinished tool call is parsed once, at the end.
-/

namespace ReflectivePi.Frames

open Delta (JsString)

structure ReducerBlockState where
  kind : BlockKind
  ended : Bool
  /-- Of a tool call. -/
  json : JsString

/-- The message so far and the state of each block. -/
structure Replay (ν : Type) where
  message : AssistantMessage ν
  states : InsertionMap Nat ReducerBlockState

namespace AssistantMessageFrame

def type {ν : Type} : AssistantMessageFrame ν → String
  | .start _ => "start"
  | .textStart _ _ => "text_start"
  | .textDelta _ _ => "text_delta"
  | .textEnd _ _ _ => "text_end"
  | .thinkingStart _ _ => "thinking_start"
  | .thinkingDelta _ _ => "thinking_delta"
  | .thinkingEnd _ _ _ _ => "thinking_end"
  | .toolcallStart _ _ => "toolcall_start"
  | .toolcallCheckpoint _ _ => "toolcall_checkpoint"
  | .toolcallDelta _ _ => "toolcall_delta"
  | .toolcallEnd _ _ => "toolcall_end"

end AssistantMessageFrame

namespace Replay

variable {ν : Type}

def cannotStart (contentIndex length : Nat) : String :=
  let reason := if contentIndex < length then "already exists"
    else "would leave a gap"
  s!"Cannot start assistant message block at index {contentIndex}: {reason}"

def appendBlock (replay : Replay ν) (contentIndex : Nat)
    (block : ContentBlock ν) (state : ReducerBlockState) :
    Except String (Replay ν) := do
  assertContentIndex contentIndex
  if contentIndex ≠ replay.message.content.length then
    throw (cannotStart contentIndex replay.message.content.length)
  else return ⟨{ replay.message with
    content := replay.message.content ++ [block] }, replay.states.set contentIndex state⟩

def unexpectedKind (frameType : String) (contentIndex : Nat)
    (expectedKind found : BlockKind) : String :=
  s!"{frameType} frame expected {expectedKind.name} block at index {contentIndex}, found {found.name}"

/-- A block that has started, is of the kind, and has not ended. -/
def activeBlock (replay : Replay ν) (contentIndex : Nat)
    (expectedKind : BlockKind) (frameType : String) :
    Except String (ContentBlock ν × ReducerBlockState) := do
  assertContentIndex contentIndex
  match replay.states.get? contentIndex, replay.message.content[contentIndex]? with
  | some state, some block =>
    if state.kind ≠ expectedKind ∨ block.kind ≠ expectedKind then
      throw (unexpectedKind frameType contentIndex expectedKind block.kind)
    else if state.ended then
      throw s!"{frameType} frame follows the end of block at index {contentIndex}"
    else return (block, state)
  | _, _ =>
    throw s!"{frameType} frame has no started block at index {contentIndex}"

/-- The block of `activeBlock` and its state, changed in place. -/
def update (replay : Replay ν) (contentIndex : Nat) (block : ContentBlock ν)
    (state : ReducerBlockState) : Replay ν :=
  ⟨{ replay.message with
    content := replay.message.content.set contentIndex block },
    replay.states.set contentIndex state⟩

variable (T : JsonText ν)

/-- One frame after the start. -/
def step (replay : Replay ν) (frame : AssistantMessageFrame ν) : Except String (Replay ν) :=
  match frame with
  | .start _ =>
    .error "Assistant message frame sequence contains more than one start frame"
  | .textStart contentIndex content =>
    replay.appendBlock contentIndex (.text content) ⟨.text, false, []⟩
  | .textDelta contentIndex delta => do
    match ← replay.activeBlock contentIndex .text frame.type with
    | (.text block, state) =>
      return replay.update contentIndex (.text { block with text := block.text ++ delta }) state
    | _ => throw "Unreachable text frame state"
  | .textEnd contentIndex content textSignature => do
    match ← replay.activeBlock contentIndex .text frame.type with
    | (.text _, state) =>
      return replay.update contentIndex (.text ⟨content, textSignature⟩)
        { state with ended := true }
    | _ => throw "Unreachable text frame state"
  | .thinkingStart contentIndex content =>
    replay.appendBlock contentIndex (.thinking content) ⟨.thinking, false, []⟩
  | .thinkingDelta contentIndex delta => do
    match ← replay.activeBlock contentIndex .thinking frame.type with
    | (.thinking block, state) =>
      return replay.update contentIndex
        (.thinking { block with thinking := block.thinking ++ delta }) state
    | _ => throw "Unreachable thinking frame state"
  | .thinkingEnd contentIndex content thinkingSignature redacted => do
    match ← replay.activeBlock contentIndex .thinking frame.type with
    | (.thinking _, state) =>
      return replay.update contentIndex (.thinking ⟨content, thinkingSignature, redacted⟩)
        { state with ended := true }
    | _ => throw "Unreachable thinking frame state"
  | .toolcallStart contentIndex toolCall =>
    replay.appendBlock contentIndex (.toolCall toolCall) ⟨.toolCall, false, []⟩
  | .toolcallCheckpoint contentIndex json => do
    match ← replay.activeBlock contentIndex .toolCall frame.type with
    | (.toolCall block, state) =>
      return replay.update contentIndex
        (.toolCall { block with arguments := T.parseStreamingJson json })
        { state with json }
    | _ => throw "Unreachable tool-call checkpoint state"
  | .toolcallDelta contentIndex delta => do
    match ← replay.activeBlock contentIndex .toolCall frame.type with
    | (.toolCall block, state) =>
      return replay.update contentIndex (.toolCall block) { state with json := state.json ++ delta }
    | _ => throw "Unreachable tool-call frame state"
  | .toolcallEnd contentIndex toolCall => do
    match ← replay.activeBlock contentIndex .toolCall frame.type with
    | (.toolCall _, state) =>
      return replay.update contentIndex (.toolCall toolCall) { state with ended := true }
    | _ => throw "Unreachable tool-call frame state"

/-- The JSON collected for an unfinished tool call, parsed. -/
def finishBlock (content : List (ContentBlock ν)) (contentIndex : Nat)
    (state : ReducerBlockState) : Except String (List (ContentBlock ν)) :=
  if state.kind ≠ .toolCall ∨ state.ended = true ∨ state.json.length = 0 then
    .ok content
  else
    match content[contentIndex]? with
    | some (.toolCall block) => .ok (content.set contentIndex
        (.toolCall { block with arguments := T.parseStreamingJson state.json }))
    | _ => .error "Unreachable tool-call frame state"

def finish (replay : Replay ν) : Except String (AssistantMessage ν) := do
  let content ← replay.states.entries.foldlM
    (fun content p => finishBlock T content p.1 p.2) replay.message.content
  return { replay.message with content }

end Replay

section

variable {ν : Type} (T : JsonText ν)

/-- The frames before the start: they are passed over, and then a start is
one too late. -/
def awaitStart (frameBeforeStart : Option String) :
    List (AssistantMessageFrame ν) → Except String (Option (Replay ν))
  | [] => .ok none
  | .start message :: frames =>
    match frameBeforeStart with
    | some type => .error s!"{type} frame appears before the start frame"
    | none => do
      let replay ← frames.foldlM (Replay.step T) ⟨message, .empty⟩
      return some replay
  | frame :: frames =>
    awaitStart (some (frameBeforeStart.getD frame.type)) frames

/-- Replay compact frames; `none` when there is no start frame. -/
def reduceAssistantMessageFrames (frames : List (AssistantMessageFrame ν)) :
    Except String (Option (AssistantMessage ν)) := do
  match ← awaitStart T none frames with
  | none => return none
  | some replay => do
    let message ← replay.finish T
    return some message

end

end ReflectivePi.Frames
