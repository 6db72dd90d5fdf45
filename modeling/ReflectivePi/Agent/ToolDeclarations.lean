import ReflectivePi.Agent.ToolCalls

/-!
# Agent — ToolDeclarations

The messages of an agent's transcript, and the tool changes that are declared
to the model in system messages. A declaration changes the tool fields of a
pending system message or inserts one; every other message stays as it is.
-/

namespace ReflectivePi.Agent

/-! ## Messages -/

/-- What `toToolDeclaration` leaves of a tool, as the JSON text of it. -/
structure ToolDeclaration where
  name : String
  declaration : String
  deriving DecidableEq

/-- A tool list that is left out is an empty one. -/
structure SystemMessage where
  /-- The content and the sections. -/
  content : String
  toolsAdded : List ToolDeclaration := []
  toolsRemoved : List String := []
  deriving DecidableEq

inductive StopReason where
  | pending | stop | length | toolUse | error | aborted | deferred
  deriving DecidableEq

structure AssistantMessage where
  content : String
  toolCalls : List ToolCall
  stopReason : StopReason
  deriving DecidableEq

inductive AgentMessage where
  | system (message : SystemMessage)
  | assistant (message : AssistantMessage)
  | toolResult (message : ToolResultMessage)
  /-- A user message, or one with a role of the application. -/
  | other (role content : String)
  deriving DecidableEq

def AgentMessage.isSystem : AgentMessage → Bool
  | .system _ => true
  | _ => false

structure AgentContext where
  messages : List AgentMessage
  tools : List ToolDeclaration

/-! ## Tool state -/

structure ToolStateChanges where
  toolsAdded : List ToolDeclaration
  toolsRemoved : List String
  deriving DecidableEq

def noChanges : ToolStateChanges := ⟨[], []⟩

def toolsByName (tools : List ToolDeclaration) : InsertionMap String ToolDeclaration :=
  tools.foldl (fun map tool => map.set tool.name tool) InsertionMap.empty

/-- The tools after a system message. -/
def applyToolChanges (tools : InsertionMap String ToolDeclaration) :
    AgentMessage → InsertionMap String ToolDeclaration
  | .system message =>
    let kept := message.toolsRemoved.foldl (fun map name => map.delete name) tools
    message.toolsAdded.foldl (fun map tool => map.set tool.name tool) kept
  | _ => tools

def getCurrentTools (messages : List AgentMessage) : List ToolDeclaration :=
  (messages.foldl applyToolChanges InsertionMap.empty).values

def getToolStateChanges (previous current : List ToolDeclaration) : ToolStateChanges where
  toolsAdded := current.filter fun tool =>
    (toolsByName previous).get? tool.name ≠ some tool
  toolsRemoved := (previous.filter fun tool =>
    (toolsByName current).get? tool.name ≠ some tool).map ToolDeclaration.name

def withToolChanges (message : SystemMessage) (changes : ToolStateChanges) : SystemMessage :=
  { message with toolsAdded := changes.toolsAdded, toolsRemoved := changes.toolsRemoved }

/-- The last system message, with what is before and after it. -/
def splitLastSystem :
    List AgentMessage → Option (List AgentMessage × SystemMessage × List AgentMessage)
  | [] => none
  | message :: rest =>
    match splitLastSystem rest with
    | some (before, pending, after) => some (message :: before, pending, after)
    | none =>
      match message with
      | .system pending => some ([], pending, rest)
      | _ => none

def declareToolChanges (context : AgentContext) (pendingMessages : List AgentMessage) :
    List AgentMessage :=
  match splitLastSystem pendingMessages with
  | some (before, pending, after) =>
    let baseline := before ++ .system (withToolChanges pending noChanges) :: after
    let changes := getToolStateChanges
      (getCurrentTools (context.messages ++ baseline)) context.tools
    if changes = noChanges ∧ pending.toolsAdded = [] ∧ pending.toolsRemoved = [] then
      pendingMessages
    else before ++ .system (withToolChanges pending changes) :: after
  | none =>
    let changes := getToolStateChanges
      (getCurrentTools (context.messages ++ pendingMessages)) context.tools
    if changes = noChanges then pendingMessages
    else
      -- before the first message that is not a system message
      let update := withToolChanges { content := "" } changes
      pendingMessages.takeWhile AgentMessage.isSystem
        ++ .system update :: pendingMessages.dropWhile AgentMessage.isSystem

/-! ## What a declaration leaves of the messages -/

/-- A message without its tool changes. -/
def AgentMessage.bare : AgentMessage → AgentMessage
  | .system message => .system (withToolChanges message noChanges)
  | message => message

/-- The same messages in the same order, up to the tool changes of system
messages, and system messages that only declare tool changes. -/
inductive Declared : List AgentMessage → List AgentMessage → Prop where
  | nil : Declared [] []
  | same {message message' : AgentMessage} {messages messages' : List AgentMessage}
      (h : message.bare = message'.bare) (hrest : Declared messages messages') :
      Declared (message :: messages) (message' :: messages')
  | update {message : SystemMessage} {messages messages' : List AgentMessage}
      (h : message.content = "") (hrest : Declared messages messages') :
      Declared messages (.system message :: messages')

theorem Declared.refl (messages : List AgentMessage) : Declared messages messages := by
  induction messages with
  | nil => exact .nil
  | cons message messages ih => exact .same rfl ih

theorem Declared.append {messages₁ messages₁' messages₂ messages₂' : List AgentMessage}
    (h₁ : Declared messages₁ messages₁') (h₂ : Declared messages₂ messages₂') :
    Declared (messages₁ ++ messages₂) (messages₁' ++ messages₂') := by
  induction h₁ with
  | nil => exact h₂
  | same h _ ih => exact .same h ih
  | update h _ ih => exact .update h ih

theorem splitLastSystem_eq {messages before after : List AgentMessage}
    {pending : SystemMessage} (h : splitLastSystem messages = some (before, pending, after)) :
    messages = before ++ .system pending :: after := by
  induction messages generalizing before with
  | nil => cases h
  | cons message rest ih =>
    unfold splitLastSystem at h
    split at h
    · rename_i before' pending' after' hrest
      cases h
      rw [ih hrest]
      rfl
    · split at h
      · cases h
        rfl
      · cases h

theorem declared_insert {message : SystemMessage} (h : message.content = "")
    (messages : List AgentMessage) :
    Declared messages (messages.takeWhile AgentMessage.isSystem
      ++ .system message :: messages.dropWhile AgentMessage.isSystem) := by
  have hkeep := (Declared.refl (messages.takeWhile AgentMessage.isSystem)).append
    (.update h (.refl (messages.dropWhile AgentMessage.isSystem)))
  rw [List.takeWhile_append_dropWhile] at hkeep
  exact hkeep

/-- **A declaration keeps the pending messages and their order.** -/
theorem declared_declareToolChanges (context : AgentContext) (pendingMessages : List AgentMessage) :
    Declared pendingMessages (declareToolChanges context pendingMessages) := by
  rw [declareToolChanges]
  split
  · rename_i before pending after hsplit
    dsimp only
    split
    · exact .refl _
    · obtain rfl := splitLastSystem_eq hsplit
      exact (Declared.refl before).append (.same rfl (.refl after))
  · dsimp only
    split
    · exact .refl _
    · exact declared_insert rfl pendingMessages

end ReflectivePi.Agent
