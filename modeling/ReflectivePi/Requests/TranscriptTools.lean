import ReflectivePi.Requests.Transform

/-!
# Requests — transcript tools

The tools that a transcript comes to: its system messages add and remove
tools, and each transport decides what of that its request can say in place.
-/

namespace ReflectivePi.Requests

open Session (Tool)

/-! ## System messages -/

def Message.system? : Message → Option SystemMessage
  | .system m => some m
  | _ => none

def systemMessages (messages : List Message) : List SystemMessage :=
  messages.filterMap Message.system?

/-- The leading system message, if the transcript starts with one. -/
def getInitialSystemMessage (messages : List Message) : Option SystemMessage :=
  messages.head?.bind Message.system?

def contentText : SystemContent → String
  | .text text => text
  | .blocks blocks => "\n".intercalate (blocks.map TextContent.text)

/-- The text of a system message's content, which may be missing. -/
def SystemMessage.text (m : SystemMessage) : String := (m.content.map contentText).getD ""

/-- A later system message for APIs that accept it in the conversation. -/
def renderSystemMessageUpdate (m : SystemMessage) : String :=
  let parts := if m.text = "" then [] else [m.text]
  "\n\n".intercalate (parts ++ m.sections.map fun (name, value) =>
    match value with
    | none => "Removed system prompt section \"" ++ name ++ "\"."
    | some value => "Updated system prompt section \"" ++ name ++ "\":\n\n" ++ value)

/-! ## Replay -/

/-- What one system message does to the tools. -/
def applyToolChanges (tools : InsertionMap String Tool) (m : SystemMessage) :
    InsertionMap String Tool :=
  m.toolsAdded.foldl (fun tools tool => tools.set tool.name tool)
    (m.toolsRemoved.foldl InsertionMap.delete tools)

/-- The tools available after every delta of the transcript in order. -/
def getCurrentTools (messages : List Message) : List Tool :=
  ((systemMessages messages).foldl applyToolChanges InsertionMap.empty).values

structure SystemReplay where
  content : List String := []
  sections : InsertionMap String String := InsertionMap.empty

def SystemReplay.step (replay : SystemReplay) (m : SystemMessage) : SystemReplay where
  content := if m.text = "" then replay.content else replay.content ++ [m.text]
  sections := m.sections.foldl (fun sections (name, value) =>
    match value with
    | none => sections.delete name
    | some value => sections.set name value) replay.sections

/-- Every system message in one leading one. -/
def getCurrentSystemMessage (messages : List Message) : Option SystemMessage :=
  let systems := systemMessages messages
  let replay := systems.foldl SystemReplay.step {}
  let tools := getCurrentTools messages
  if systems = [] ∧ tools = [] then none
  else some
    { content := some (.text ("\n\n".intercalate replay.content))
      sections := replay.sections.entries.map fun (name, value) => (name, some value)
      toolsAdded := tools }

def collapseSystemMessages (messages : List Message) : List Message :=
  (getCurrentSystemMessage messages).toList.map .system
    ++ messages.filter fun message => message.system?.isNone

/-- Later system messages stay where the model accepts them. -/
def resolveTranscript (messages : List Message) (supportsMidConvoSystemMessages : Bool) :
    List Message :=
  if supportsMidConvoSystemMessages then messages else collapseSystemMessages messages

/-! ## What a transport can say in place -/

/-- Every addition of a transcript, in order. -/
def additions (messages : List Message) : List Tool :=
  (systemMessages messages).flatMap SystemMessage.toolsAdded

/-- Every definition that a transcript declares; the last one of each name. -/
def getDeclaredTools (messages : List Message) : List Tool :=
  ((additions messages).foldl (fun tools tool => tools.set tool.name tool)
    (InsertionMap.empty : InsertionMap String Tool)).values

/-- Whether one of the tools has another definition than the one before it. -/
def redefines (declared : InsertionMap String Tool) : List Tool → Bool
  | [] => false
  | tool :: rest =>
    ((declared.get? tool.name).any fun previous => previous.definition ≠ tool.definition) ||
      redefines (declared.set tool.name tool) rest

/-- Whether a name was declared twice with different definitions. -/
def hasToolRedefinitions (messages : List Message) : Bool :=
  redefines InsertionMap.empty (additions messages)

end ReflectivePi.Requests
