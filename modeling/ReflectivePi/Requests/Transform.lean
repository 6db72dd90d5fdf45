import ReflectivePi.Session.File

/-!
# Requests — Transform

`transformMessages`: what becomes of a transcript before it goes out to a
target model. A first pass goes over the messages with the map of renamed
tool calls; a second one puts in the results that are missing and holds
system messages back until a turn's results are complete.
-/

namespace ReflectivePi.Requests

open Session (isWhitespace)

/-! ## Messages -/

structure TextContent where
  text : String
  textSignature : Option String := none
  deriving DecidableEq

structure ThinkingContent where
  thinking : String
  thinkingSignature : Option String := none
  redacted : Bool := false
  deriving DecidableEq

structure ImageContent where
  data : String
  mimeType : String
  deriving DecidableEq

structure ToolCall where
  id : String
  name : String
  /-- The JSON text of the arguments. -/
  arguments : String
  thoughtSignature : Option String := none
  deriving DecidableEq

/-- `TextContent | ImageContent`. -/
inductive Block where
  | text (content : TextContent)
  | image (content : ImageContent)
  deriving DecidableEq

inductive AssistantBlock where
  | text (content : TextContent)
  | thinking (content : ThinkingContent)
  | toolCall (call : ToolCall)
  deriving DecidableEq

inductive StopReason where
  | pending | stop | length | toolUse | error | aborted | deferred
  deriving DecidableEq

inductive SystemContent where
  | text (text : String)
  | blocks (blocks : List TextContent)
  deriving DecidableEq

inductive UserContent where
  | text (text : String)
  | blocks (blocks : List Block)
  deriving DecidableEq

structure SystemMessage where
  content : Option SystemContent
  sections : List (String × Option String) := []
  toolsAdded : List Session.Tool := []
  toolsRemoved : List String := []
  deriving DecidableEq

structure UserMessage where
  content : Option UserContent
  deriving DecidableEq

structure AssistantMessage where
  content : Option (List AssistantBlock)
  api : String
  provider : String
  model : String
  stopReason : StopReason
  deriving DecidableEq

structure ToolResultMessage where
  toolCallId : String
  toolName : String
  content : Option (List Block)
  isError : Bool
  deriving DecidableEq

/-- A message; from untyped callers its content may be missing. -/
inductive Message where
  | system (message : SystemMessage)
  | user (message : UserMessage)
  | assistant (message : AssistantMessage)
  | toolResult (message : ToolResultMessage)
  deriving DecidableEq

structure Model where
  id : String
  api : String
  provider : String
  input : List String

/-! ## Images -/

def nonVisionUserImagePlaceholder : String :=
  "(image omitted: model does not support images)"

def nonVisionToolImagePlaceholder : String :=
  "(tool image omitted: model does not support images)"

/-- The loop of `replaceImagesWithPlaceholder`, from what the block before
it was. -/
def replaceLoop (placeholder : String) : Bool → List Block → List Block
  | _, [] => []
  | previousWasPlaceholder, .image _ :: rest =>
    if previousWasPlaceholder then replaceLoop placeholder true rest
    else
      Block.text { text := placeholder } :: replaceLoop placeholder true rest
  | _, .text t :: rest =>
    .text t :: replaceLoop placeholder (t.text = placeholder) rest

def replaceImagesWithPlaceholder (content : List Block) (placeholder : String) : List Block :=
  replaceLoop placeholder false content

/-- `msg.content == null ? { ...msg, content: [] } : msg`. -/
def normalizeContent : Message → Message
  | .system m => .system { m with content := m.content.or (some (.blocks [])) }
  | .user m => .user { m with content := m.content.or (some (.blocks [])) }
  | .assistant m => .assistant { m with content := m.content.or (some []) }
  | .toolResult m => .toolResult { m with content := m.content.or (some []) }

def downgradeUserContent : UserContent → UserContent
  | .text s => .text s
  | .blocks bs =>
    .blocks (replaceImagesWithPlaceholder bs nonVisionUserImagePlaceholder)

def downgradeUnsupportedImages (model : Model) (message : Message) : Message :=
  if "image" ∈ model.input then message
  else
    match message with
    | .user m => .user { m with content := m.content.map downgradeUserContent }
    | .toolResult m =>
      .toolResult { m with
        content := m.content.map fun content =>
          replaceImagesWithPlaceholder content nonVisionToolImagePlaceholder }
    | m => m

/-- A message with its content in place and its images downgraded. -/
def imageAware (model : Model) (message : Message) : Message :=
  downgradeUnsupportedImages model (normalizeContent message)

/-! ## First pass -/

abbrev Normalizer := String → Model → AssistantMessage → String

def isSameModel (model : Model) (m : AssistantMessage) : Bool :=
  m.provider = model.provider && m.api = model.api && m.model = model.id

/-- An optional string that is there and not empty. -/
def truthy (s : Option String) : Bool := s.any (· ≠ "")

def transformThinking (sameModel : Bool) (block : ThinkingContent) : List AssistantBlock :=
  if block.redacted then if sameModel then [.thinking block] else []
  else if sameModel && truthy block.thinkingSignature then [.thinking block]
  else if block.thinking.toList.all isWhitespace then []
  else if sameModel then [.thinking block]
  else [.text { text := block.thinking }]

/-- The renaming of one tool call, and what the map becomes of it. -/
def transformToolCall (model : Model) (normalizeToolCallId : Option Normalizer)
    (message : AssistantMessage) (toolCallIdMap : InsertionMap String String)
    (toolCall : ToolCall) : InsertionMap String String × ToolCall :=
  let sameModel := isSameModel model message
  let normalizedToolCall : ToolCall := if !sameModel && truthy toolCall.thoughtSignature then
      { toolCall with thoughtSignature := none }
    else toolCall
  match normalizeToolCallId with
  | some normalize =>
    let normalizedId := normalize toolCall.id model message
    if !sameModel && normalizedId ≠ toolCall.id then
      (toolCallIdMap.set toolCall.id normalizedId, { normalizedToolCall with id := normalizedId })
    else (toolCallIdMap, normalizedToolCall)
  | none => (toolCallIdMap, normalizedToolCall)

def transformBlocks (model : Model) (normalizeToolCallId : Option Normalizer)
    (message : AssistantMessage) (toolCallIdMap : InsertionMap String String) :
    List AssistantBlock → InsertionMap String String × List AssistantBlock
  | [] => (toolCallIdMap, [])
  | .thinking block :: rest =>
    let (map, blocks) := transformBlocks model normalizeToolCallId message toolCallIdMap rest
    (map, transformThinking (isSameModel model message) block ++ blocks)
  | .text block :: rest =>
    let (map, blocks) := transformBlocks model normalizeToolCallId message toolCallIdMap rest
    let block : TextContent := if isSameModel model message then block else { text := block.text }
    (map, .text block :: blocks)
  | .toolCall toolCall :: rest =>
    let (map, call) := transformToolCall model normalizeToolCallId message toolCallIdMap toolCall
    let (map, blocks) := transformBlocks model normalizeToolCallId message map rest
    (map, .toolCall call :: blocks)

/-- A result goes by the name the map has for its call. An empty name
counts as none. -/
def renameResult (toolCallIdMap : InsertionMap String String)
    (m : ToolResultMessage) : ToolResultMessage :=
  match toolCallIdMap.get? m.toolCallId with
  | some normalizedId =>
    if normalizedId ≠ "" ∧ normalizedId ≠ m.toolCallId then
      { m with toolCallId := normalizedId }
    else m
  | none => m

/-- The first pass, on messages whose content is there. -/
def firstPass (model : Model) (normalizeToolCallId : Option Normalizer) :
    InsertionMap String String → List Message → List Message
  | _, [] => []
  | map, .system m :: rest =>
    .system m :: firstPass model normalizeToolCallId map rest
  | map, .user m :: rest =>
    .user m :: firstPass model normalizeToolCallId map rest
  | map, .toolResult m :: rest =>
    .toolResult (renameResult map m) :: firstPass model normalizeToolCallId map rest
  | map, .assistant m :: rest =>
    let (map, content) := transformBlocks model normalizeToolCallId m map (m.content.getD [])
    .assistant { m with content := some content } :: firstPass model normalizeToolCallId map rest

/-! ## Second pass -/

def AssistantBlock.toolCall? : AssistantBlock → Option ToolCall
  | .toolCall call => some call
  | _ => none

namespace AssistantMessage

def toolCalls (m : AssistantMessage) : List ToolCall :=
  (m.content.getD []).filterMap AssistantBlock.toolCall?

def callIds (m : AssistantMessage) : List String := m.toolCalls.map ToolCall.id

/-- An incomplete turn. -/
def stopped (m : AssistantMessage) : Bool :=
  m.stopReason = .error || m.stopReason = .aborted

end AssistantMessage

/-- The result put in for a call that has none. -/
def noResultProvided (toolCall : ToolCall) : ToolResultMessage where
  toolCallId := toolCall.id
  toolName := toolCall.name
  content := some [Block.text { text := "No result provided" }]
  isError := true

/-- The variables of the second pass. -/
structure Pass where
  result : List Message
  pendingToolCalls : List ToolCall
  existingToolResultIds : List String
  heldSystemMessages : List SystemMessage

namespace Pass

def start : Pass := ⟨[], [], [], []⟩

def push (p : Pass) (m : Message) : Pass := { p with result := p.result ++ [m] }

/-- The results put in for the pending calls that have none. -/
def missing (p : Pass) : List ToolResultMessage :=
  (p.pendingToolCalls.filter
    fun tc => decide (tc.id ∉ p.existingToolResultIds)).map noResultProvided

def closePendingToolCalls (p : Pass) : Pass where
  result := p.result ++ p.missing.map .toolResult ++ p.heldSystemMessages.map .system
  pendingToolCalls := []
  existingToolResultIds := if p.pendingToolCalls = [] then p.existingToolResultIds else []
  heldSystemMessages := []

def step (p : Pass) : Message → Pass
  | .assistant m =>
    let p := p.closePendingToolCalls
    if m.stopped then p
    else if m.toolCalls = [] then p.push (.assistant m)
    else
      { p with pendingToolCalls := m.toolCalls, existingToolResultIds := [] }.push (.assistant m)
  | .toolResult m =>
    { p with
      existingToolResultIds := m.toolCallId :: p.existingToolResultIds }.push
      (.toolResult m)
  | .system m =>
    if p.pendingToolCalls = [] then p.push (.system m)
    else { p with heldSystemMessages := p.heldSystemMessages ++ [m] }
  | .user m => p.closePendingToolCalls.push (.user m)

end Pass

def secondPass (transformed : List Message) : List Message :=
  (transformed.foldl Pass.step Pass.start).closePendingToolCalls.result

def transformMessages (messages : List Message) (model : Model)
    (normalizeToolCallId : Option Normalizer) : List Message :=
  secondPass (firstPass model normalizeToolCallId InsertionMap.empty
    (messages.map (imageAware model)))

end ReflectivePi.Requests
