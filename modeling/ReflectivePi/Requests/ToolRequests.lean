import ReflectivePi.Requests.TranscriptTools

/-!
# Requests — tool requests

What the Anthropic and the OpenAI Responses request say about tools: the list
at the top, and the changes in the conversation. A message of the conversation
stands for what it is converted to.
-/

namespace ReflectivePi.Requests

open Session (Tool)

/-- A tool of a request. -/
structure WireTool where
  name : String
  definition : String
  deferLoading : Bool := false
  deriving DecidableEq

/-! ## Anthropic -/

def claudeCodeTools : List String :=
  ["Read", "Write", "Edit", "Bash", "Grep", "Glob", "AskUserQuestion", "EnterPlanMode",
    "ExitPlanMode", "KillShell", "NotebookEdit", "Skill", "Task", "TaskOutput", "TodoWrite",
    "WebFetch", "WebSearch"]

/-- `toLowerCase`, to compare with names of ASCII letters: the Kelvin sign is
the one character outside ASCII that becomes one. -/
def lowerCase (name : String) : String :=
  name.map fun c => if c = '\u212A' then 'k' else c.toLower

/-- Claude Code's own casing, if the name is one of its names. -/
def toClaudeCodeName (name : String) : String :=
  (claudeCodeTools.find? fun tool => lowerCase tool = lowerCase name).getD name

def wireName (isOAuthToken : Bool) (name : String) : String :=
  if isOAuthToken then toClaudeCodeName name else name

def convertTool (isOAuthToken : Bool) (tool : Tool) : WireTool :=
  { name := wireName isOAuthToken tool.name, definition := tool.definition }

def convertTools (isOAuthToken : Bool) (tools : List Tool) : List WireTool :=
  tools.map (convertTool isOAuthToken)

def deferredToolPlaceholder : WireTool where
  name := "__pi_deferred_placeholder__"
  definition := "\x7b\"name\":\"__pi_deferred_placeholder__\","
    ++ "\"description\":\"Reserved placeholder. Never available. Never call this.\","
    ++ "\"parameters\":\x7b\"type\":\"object\",\"properties\":\x7b\x7d,\"required\":[]\x7d\x7d"
  deferLoading := true

inductive SystemBlock where
  | text (text : String)
  | toolRemoval (name : String)
  | toolAddition (name : String)

inductive MessageParam where
  | system (content : List SystemBlock)
  | conversation (message : Message)

/-- The blocks of a later system message. -/
def systemBlocks (isOAuthToken nativeToolChanges : Bool) (m : SystemMessage) : List SystemBlock :=
  let text := renderSystemMessageUpdate m
  (if text = "" then [] else [.text text]) ++ if nativeToolChanges then
      m.toolsRemoved.map (fun name => .toolRemoval (wireName isOAuthToken name)) ++
        m.toolsAdded.map fun tool => .toolAddition (wireName isOAuthToken tool.name)
    else []

/-- The parameters so far, and the system messages held back for the next
assistant message. -/
structure Conversion where
  params : List MessageParam := []
  pendingSystemMessages : List MessageParam := []

def Conversion.flush (conversion : Conversion) : Conversion where
  params := conversion.params ++ conversion.pendingSystemMessages
  pendingSystemMessages := []

def Conversion.step (isOAuthToken nativeToolChanges : Bool) (conversion : Conversion) :
    Message → Conversion
  | .system m =>
    match systemBlocks isOAuthToken nativeToolChanges m with
    | [] => conversion
    | blocks =>
      { conversion with
        pendingSystemMessages := conversion.pendingSystemMessages ++ [.system blocks] }
  | .assistant m =>
    { conversion.flush with params := conversion.flush.params ++ [.conversation (.assistant m)] }
  | message => { conversion with params := conversion.params ++ [.conversation message] }

def convertMessages (isOAuthToken nativeToolChanges : Bool) (messages : List Message) :
    List MessageParam :=
  (messages.foldl (Conversion.step isOAuthToken nativeToolChanges) {}).flush.params

structure AnthropicCompat where
  supportsMidConvoSystemMessages : Bool
  supportsMidConvoToolChanges : Bool

structure AnthropicParams where
  messages : List MessageParam
  tools : List WireTool

def initialTools (messages : List Message) : List Tool :=
  ((getInitialSystemMessage messages).map SystemMessage.toolsAdded).getD []

/-- Whether later changes go out as additions and removals by name. -/
def nativeToolChanges (compat : AnthropicCompat) (messages : List Message) : Bool :=
  compat.supportsMidConvoSystemMessages && compat.supportsMidConvoToolChanges &&
    (initialTools messages).length > 0 && !hasToolRedefinitions messages

/-- What is declared after the initial tools. -/
def laterTools (messages : List Message) : List Tool :=
  (getDeclaredTools messages).filter fun tool =>
    !((initialTools messages).map Tool.name).contains tool.name

def buildParams (compat : AnthropicCompat) (isOAuthToken : Bool) (model : Model)
    (normalizeToolCallId : Option Normalizer) (messages : List Message) : AnthropicParams :=
  let transformed := transformMessages messages model normalizeToolCallId
  let conversation :=
    if (getInitialSystemMessage messages).isSome then transformed.drop 1 else transformed
  let native := nativeToolChanges compat messages
  { messages := convertMessages isOAuthToken native conversation
    tools :=
      if native then
        convertTools isOAuthToken (initialTools messages) ++ deferredToolPlaceholder ::
          (convertTools isOAuthToken (laterTools messages)).map
            fun tool => { tool with deferLoading := true }
      else convertTools isOAuthToken (getCurrentTools messages) }

inductive ResponseItem where
  | additionalTools (tools : List WireTool)
  | toolSearchCall (names : List String)
  | toolSearchOutput (tools : List WireTool)
  | instruction (text : String)
  | conversation (message : Message)

structure ResponsesParams where
  input : List ResponseItem
  tools : List WireTool

def WireTool.loaded (tool : WireTool) : WireTool := { tool with deferLoading := false }

def nonDeferred (tools : List WireTool) : List WireTool :=
  tools.filter fun tool => !tool.deferLoading

/-- An addition by name brings the first tool of the request with the name. -/
def applySystemBlock (tools available : List WireTool) : SystemBlock → List WireTool
  | .text _ => available
  | .toolRemoval name => available.filter fun tool => tool.name ≠ name
  | .toolAddition name =>
    available ++ (tools.find? fun tool => tool.name = name).toList.map WireTool.loaded

def MessageParam.systemBlocks : MessageParam → List SystemBlock
  | .system blocks => blocks
  | .conversation _ => []

def AnthropicParams.available (params : AnthropicParams) : List WireTool :=
  (params.messages.flatMap MessageParam.systemBlocks).foldl (applySystemBlock params.tools)
    (nonDeferred params.tools)

def ResponseItem.added : ResponseItem → List WireTool
  | .additionalTools tools => tools.map WireTool.loaded
  | .toolSearchOutput tools => tools.map WireTool.loaded
  | _ => []

def ResponsesParams.available (params : ResponsesParams) : List WireTool :=
  nonDeferred params.tools ++ params.input.flatMap ResponseItem.added

end ReflectivePi.Requests
