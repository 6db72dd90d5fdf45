import ReflectivePi.Lib.InsertionMap

/-!
# Session — Message

The messages a session stores and a model sees, with the fields the
session code reads. Two JSON payloads enter only through the views the
code takes of them: a tool call's arguments through their JSON text and
their `path`, and a tool definition through its JSON text.
-/

namespace ReflectivePi.Session

/-- `reduce((sum, x) => sum + f(x), 0)`. -/
def total {α : Type} (f : α → Nat) (l : List α) : Nat :=
  l.foldl (fun sum x => sum + f x) 0

/-- The length of a JavaScript string: its UTF-16 code units. -/
def jsLength (s : String) : Nat :=
  total (fun c => if c.toNat < 0x10000 then 1 else 2) s.toList

structure ToolCall where
  id : String
  name : String
  /-- `JSON.stringify(arguments)`. -/
  arguments : String
  /-- `arguments.path`, when it is a string. -/
  path : Option String
  deriving DecidableEq

inductive ContentBlock where
  | text (text : String)
  | thinking (thinking : String)
  | image (data mimeType : String)
  | toolCall (call : ToolCall)
  deriving DecidableEq

/-- Message content: a plain string or a list of blocks. -/
inductive Content where
  | text (text : String)
  | blocks (blocks : List ContentBlock)
  deriving DecidableEq

structure Tool where
  name : String
  /-- `JSON.stringify` of the whole definition. -/
  definition : String
  deriving DecidableEq

/-- Instruction text plus the patches later system messages make to the
named sections (`none` removes one) and to the tool set. -/
structure SystemMessage where
  content : Option Content
  sections : List (String × Option String) := []
  toolsAdded : List Tool := []
  toolsRemoved : List String := []
  timestamp : Nat
  deriving DecidableEq

structure Usage where
  input : Nat
  output : Nat
  cacheRead : Nat
  cacheWrite : Nat
  totalTokens : Nat
  deriving DecidableEq

structure AssistantMessage where
  content : Option Content
  provider : String
  model : String
  stopReason : String
  usage : Option Usage
  timestamp : Nat
  deriving DecidableEq

structure ToolResultMessage where
  toolCallId : String
  toolName : String
  content : Option Content
  isError : Bool
  timestamp : Nat
  deriving DecidableEq

structure CustomMessage where
  customType : String
  content : Content
  display : Bool
  details : Option String
  timestamp : Nat
  deriving DecidableEq

structure BashExecutionMessage where
  command : String
  output : String
  excludeFromContext : Bool
  timestamp : Nat
  deriving DecidableEq

/-- One message of a transcript, by role. `other` is a role this version
does not know, which an imported session may contain. -/
inductive AgentMessage where
  | user (content : Option Content) (timestamp : Nat)
  | assistant (message : AssistantMessage)
  | toolResult (message : ToolResultMessage)
  | system (message : SystemMessage)
  | custom (message : CustomMessage)
  | bashExecution (message : BashExecutionMessage)
  | branchSummary (summary fromId : String) (timestamp : Nat)
  | compactionSummary (summary : String) (tokensBefore timestamp : Nat)
  | contextStatus (content : String) (timestamp : Nat)
  | other (role : String)
  deriving DecidableEq

namespace AgentMessage

def isSystem : AgentMessage → Bool
  | system _ => true
  | _ => false

def isAssistant : AgentMessage → Bool
  | assistant _ => true
  | _ => false

def isToolResult : AgentMessage → Bool
  | toolResult _ => true
  | _ => false

end AgentMessage

/-- Extract and join text from message content. -/
def contentText : Content → String
  | .text s => s
  | .blocks bs => "\n".intercalate (bs.filterMap fun
      | .text t => some t
      | _ => none)

/-- The tool calls of a content; the declared content of an assistant
message is a block list, and anything else has none. -/
def Content.toolCalls : Content → List ToolCall
  | .text _ => []
  | .blocks bs => bs.filterMap fun
      | .toolCall c => some c
      | _ => none

def toolCalls : AgentMessage → List ToolCall
  | .assistant m => (m.content.map Content.toolCalls).getD []
  | _ => []

def hasToolCalls (message : AgentMessage) : Bool :=
  !(toolCalls message).isEmpty

/-! ## Token estimates -/

def estimatedImageChars : Nat := 4800

def textAndImageBlockChars : ContentBlock → Nat
  | .text t => jsLength t
  | .image _ _ => estimatedImageChars
  | _ => 0

def estimateTextAndImageContentChars : Content → Nat
  | .text s => jsLength s
  | .blocks bs => total textAndImageBlockChars bs

def assistantBlockChars : ContentBlock → Nat
  | .text t => jsLength t
  | .thinking t => jsLength t
  | .toolCall c => jsLength c.name + jsLength c.arguments
  | .image _ _ => 0

/-- `JSON.stringify(tools).length`: brackets, definitions and commas. -/
def toolsJsonLength (tools : List Tool) : Nat :=
  2 + total (fun t => jsLength t.definition) tools + (tools.length - 1)

def contentChars (content : Option Content) : Nat :=
  (content.map estimateTextAndImageContentChars).getD 0

def messageChars : AgentMessage → Nat
  | .system m =>
    contentChars m.content + total (fun s => jsLength (s.2.getD "")) m.sections
      + (if m.toolsAdded.isEmpty then 0 else toolsJsonLength m.toolsAdded)
  | .user content _ => contentChars content
  | .assistant m =>
    match m.content with
    | some (.blocks bs) => total assistantBlockChars bs
    | _ => 0
  | .custom m => estimateTextAndImageContentChars m.content
  | .toolResult m => contentChars m.content
  | .contextStatus content _ => jsLength content
  | .bashExecution m => jsLength m.command + jsLength m.output
  | .branchSummary summary _ _ => jsLength summary
  | .compactionSummary summary _ _ => jsLength summary
  | .other _ => 0

/-- Estimate token count for a message using the chars/4 heuristic,
rounded up. -/
def estimateTokens (message : AgentMessage) : Nat :=
  (messageChars message + 3) / 4

/-! ## Replaying system messages -/

/-- Resolve the tools available after every transcript delta in order. -/
def currentToolMap (messages : List AgentMessage) : InsertionMap String Tool :=
  messages.foldl (fun tools message =>
    match message with
    | .system m =>
      m.toolsAdded.foldl (fun ts t => ts.set t.name t)
        (m.toolsRemoved.foldl InsertionMap.delete tools)
    | _ => tools) InsertionMap.empty

def getCurrentTools (messages : List AgentMessage) : List Tool :=
  (currentToolMap messages).values

/-- The running state of the replay loop. -/
structure PromptReplay where
  content : List String
  sections : InsertionMap String String
  timestamp : Option Nat

def PromptReplay.step (r : PromptReplay) : AgentMessage → PromptReplay
  | .system m =>
    let text := (m.content.map contentText).getD ""
    { content := if text = "" then r.content else r.content ++ [text]
      sections := m.sections.foldl (fun s p =>
        match p.2 with
        | none => s.delete p.1
        | some v => s.set p.1 v) r.sections
      timestamp := r.timestamp.or (some m.timestamp) }
  | _ => r

def replayPrompt (messages : List AgentMessage) : PromptReplay :=
  messages.foldl PromptReplay.step ⟨[], InsertionMap.empty, none⟩

/-- Replay every system message into one leading system message holding
the current prompt and tools. -/
def getCurrentSystemMessage (messages : List AgentMessage) : Option SystemMessage :=
  let r := replayPrompt messages
  let tools := getCurrentTools messages
  if r.timestamp = none ∧ tools = [] then none
  else some
    { content := some (.text ("\n\n".intercalate r.content))
      sections := r.sections.entries.map (fun p => (p.1, some p.2))
      toolsAdded := tools
      timestamp := r.timestamp.getD 0 }

end ReflectivePi.Session
