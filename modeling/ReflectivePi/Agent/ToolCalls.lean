import ReflectivePi.Lib.LabelledRun
import ReflectivePi.Requests.Transform

/-!
# Agent — ToolCalls

The tool calls of an assistant message, executed one after the other or side
by side. A run is a sequence of resumed awaits, partial updates and an abort,
in any order; what a tool or a hook does depends on its arguments and on the
abort signal only. Where an await does not let anything be seen in between, two
of them are one step.
-/

namespace ReflectivePi.Agent

open Requests (Block)

/-! ## Tools and hooks -/

structure ToolCall where
  id : String
  name : String
  /-- The JSON text of the arguments. -/
  arguments : String
  deriving DecidableEq

/-- `AgentToolResult`; an untyped tool may leave the content out. -/
structure ToolResult where
  content : Option (List Block)
  details : Option String := none
  usage : Option String := none
  terminate : Option Bool := none

structure BeforeToolCallResult where
  block : Bool
  reason : Option String
  terminate : Bool

structure AfterToolCallResult where
  content : Option (List Block)
  details : Option String
  usage : Option String
  terminate : Option Bool
  isError : Option Bool

/-- A tool; `error` is the message of what is thrown. Tools and hooks are given
the abort signal. -/
structure Tool (Args : Type) where
  name : String
  /-- `executionMode === "sequential"`. -/
  sequential : Bool
  prepareArguments : Option (String → Except String String)
  validate : String → Except String Args
  execute : String → Args → Bool → Except String ToolResult

/-- What the agent loop executes tools with. -/
structure ToolConfig (Args : Type) where
  tools : List (Tool Args)
  /-- `toolExecution === "sequential"`. -/
  sequential : Bool
  beforeToolCall :
    Option (ToolCall → Args → Bool → Except String (Option BeforeToolCallResult))
  afterToolCall :
    Option (ToolCall → Args → ToolResult → Bool → Bool → Except String (Option AfterToolCallResult))

structure Finalized where
  toolCall : ToolCall
  result : ToolResult
  isError : Bool

structure ToolResultMessage where
  toolCallId : String
  toolName : String
  content : List Block
  details : Option String
  usage : Option String
  isError : Bool
  deriving DecidableEq

def createErrorToolResult (message : String) : ToolResult where
  content := some [Block.text { text := message }]
  details := some "\x7b\x7d"

def createToolResultMessage (finalized : Finalized) : ToolResultMessage where
  toolCallId := finalized.toolCall.id
  toolName := finalized.toolCall.name
  content := finalized.result.content.getD []
  details := finalized.result.details
  usage := finalized.result.usage
  isError := finalized.isError

def shouldTerminateToolBatch (finalizedCalls : List Finalized) : Bool :=
  !finalizedCalls.isEmpty
    && finalizedCalls.all fun finalized => finalized.result.terminate = some true

structure Batch where
  messages : List ToolResultMessage
  terminate : Bool

def batchOf (finalizedCalls : List Finalized) : Batch where
  messages := finalizedCalls.map createToolResultMessage
  terminate := shouldTerminateToolBatch finalizedCalls

section

variable {Args : Type} (C : ToolConfig Args)

inductive Preparation (Args : Type) where
  | immediate (result : ToolResult)
  | prepared (tool : Tool Args) (args : Args)

def aborted : Preparation Args :=
  .immediate (createErrorToolResult "Operation aborted")

/-- The tool and the arguments of a call, or an error. -/
def validated (toolCall : ToolCall) : Except String (Tool Args × Args) :=
  match C.tools.find? fun tool => tool.name = toolCall.name with
  | none => .error s!"Tool {toolCall.name} not found"
  | some tool => do
    let arguments ← match tool.prepareArguments with
      | none => .ok toolCall.arguments
      | some prepareArguments => prepareArguments toolCall.arguments
    let args ← tool.validate arguments
    .ok (tool, args)

/-- After `beforeToolCall`. -/
def afterBeforeHook (isAborted : Bool) (tool : Tool Args) (args : Args) :
    Except String (Option BeforeToolCallResult) → Preparation Args
  | .error message => .immediate (createErrorToolResult message)
  | .ok beforeResult =>
    if isAborted then aborted
    else
      match beforeResult with
      | some before =>
        if before.block then
          let reason := before.reason.getD ""
          let result := createErrorToolResult
            (if reason = "" then "Tool execution was blocked" else reason)
          .immediate (if before.terminate then { result with terminate := some true }
            else result)
        else .prepared tool args
      | none => .prepared tool args

structure Executed where
  result : ToolResult
  isError : Bool

/-- How `tool.execute` settles. -/
def settled (isAborted : Bool) (toolCall : ToolCall) (tool : Tool Args)
    (args : Args) : Executed :=
  match tool.execute toolCall.id args isAborted with
  | .ok result => ⟨result, false⟩
  | .error message => ⟨createErrorToolResult message, true⟩

def finalize (isAborted : Bool) (toolCall : ToolCall) (args : Args)
    (executed : Executed) : Finalized :=
  match C.afterToolCall with
  | none => ⟨toolCall, executed.result, executed.isError⟩
  | some afterToolCall =>
    match afterToolCall toolCall args executed.result executed.isError isAborted with
    | .error message => ⟨toolCall, createErrorToolResult message, true⟩
    | .ok none => ⟨toolCall, executed.result, executed.isError⟩
    | .ok (some after) =>
      { toolCall
        result :=
          { content := after.content.or executed.result.content
            details := after.details.or executed.result.details
            usage := after.usage.or executed.result.usage
            terminate := after.terminate.or executed.result.terminate }
        isError := after.isError.getD executed.isError }

/-! ## The states of a run -/

/-- How far a call has come, by the await that it is in: the start event, the
hook before, a thunk that is not called yet, the tool, the update events, the
hook after, the end event; and when its outcome is there. -/
inductive Phase (Args : Type) where
  | starting
  | preparing (tool : Tool Args) (args : Args)
  | deferred (tool : Tool Args) (args : Args)
  | executing (tool : Tool Args) (args : Args)
  | settling (args : Args) (executed : Executed)
  | finalizing (args : Args) (executed : Executed)
  | ending (finalized : Finalized)
  | ended (finalized : Finalized)

/-- The events of a call, by its position, and those of the result messages. -/
inductive Event where
  | toolExecutionStart (index : Nat) (toolCall : ToolCall)
  | toolExecutionUpdate (index : Nat) (toolCall : ToolCall) (partialResult : ToolResult)
  | toolExecutionEnd (index : Nat) (finalized : Finalized)
  | messageStart (message : ToolResultMessage)
  | messageEnd (message : ToolResultMessage)

inductive Loop where
  /-- The loop over the calls. -/
  | running
  /-- The thunks are called, up to a position. -/
  | launching (position : Nat)
  /-- `Promise.all`. -/
  | waiting
  | returned (batch : Batch)

inductive Mode where
  | sequential
  | parallel
  deriving DecidableEq

structure Execution (Args : Type) where
  aborted : Bool
  /-- The calls that the loop has reached. -/
  entries : List (Phase Args)
  loop : Loop
  events : List Event

/-- The abort signal, a partial update of a call, the end of an await of a
call, or a step of the function itself. -/
inductive Label where
  | abort
  | update (index : Nat) (partialResult : ToolResult)
  | resume (index : Nat)
  | next
  | launch
  | collect

def Execution.start (isAborted : Bool) : Execution Args :=
  ⟨isAborted, [], .running, []⟩

/-! ## Steps -/

def messageEvents (finalized : Finalized) : List Event :=
  [.messageStart (createToolResultMessage finalized),
    .messageEnd (createToolResultMessage finalized)]

/-- An outcome is there: its end event is emitted. -/
def conclude (index : Nat) (finalized : Finalized) : Phase Args × List Event :=
  (.ending finalized, [.toolExecutionEnd index finalized])

/-- A preparation is done: its outcome is there, or the tool is to be called,
at once or by a thunk. -/
def proceed (mode : Mode) (index : Nat) (toolCall : ToolCall) :
    Preparation Args → Phase Args × List Event
  | .immediate result => conclude index ⟨toolCall, result, true⟩
  | .prepared tool args =>
    match mode with
    | .sequential => (.executing tool args, [])
    | .parallel => (.deferred tool args, [])

/-- The end of the await that a call is in. -/
def resume (mode : Mode) (isAborted : Bool) (index : Nat) (toolCall : ToolCall) :
    Phase Args → Option (Phase Args × List Event)
  | .starting =>
    match validated C toolCall with
    | .error message =>
      some (proceed mode index toolCall (.immediate (createErrorToolResult message)))
    | .ok (tool, args) =>
      match C.beforeToolCall with
      | some _ => some (.preparing tool args, [])
      | none =>
        some (proceed mode index toolCall (if isAborted then aborted else .prepared tool args))
  | .preparing tool args =>
    C.beforeToolCall.map fun beforeToolCall =>
      proceed mode index toolCall
        (afterBeforeHook isAborted tool args (beforeToolCall toolCall args isAborted))
  | .deferred _ _ => none
  | .executing tool args => some (.settling args (settled isAborted toolCall tool args), [])
  | .settling args executed =>
    match C.afterToolCall with
    | some _ => some (.finalizing args executed, [])
    | none => some (conclude index (finalize C isAborted toolCall args executed))
  | .finalizing args executed =>
    some (conclude index (finalize C isAborted toolCall args executed))
  | .ending finalized =>
    match mode with
    | .sequential => some (.ended finalized, messageEvents finalized)
    | .parallel => some (.ended finalized, [])
  | .ended _ => none

/-- The loop goes on from a call with its result, or with a thunk for it. -/
def Phase.handled (mode : Mode) : Phase Args → Bool
  | .ended _ => true
  | .deferred _ _ => mode = .parallel
  | _ => false

def Phase.finalized? : Phase Args → Option Finalized
  | .ended finalized => some finalized
  | _ => none

def call (isAborted : Bool) (index : Nat) (toolCall : ToolCall) :
    Phase Args → Phase Args × List Event
  | .deferred tool args =>
    if isAborted then
      conclude index ⟨toolCall, createErrorToolResult "Operation aborted", true⟩
    else (.executing tool args, [])
  | phase => (phase, [])

namespace Execution

def finalizedCalls (s : Execution Args) : List Finalized :=
  s.entries.filterMap Phase.finalized?

/-- An entry becomes another, and events are emitted. -/
def put (s : Execution Args) (index : Nat) (result : Phase Args × List Event) : Execution Args :=
  { s with
    entries := s.entries.set index result.1
    events := s.events ++ result.2 }

def step (mode : Mode) (calls : List ToolCall) (s : Execution Args) :
    Label → Option (Execution Args)
  | .abort => some { s with aborted := true }
  | .update index partialResult =>
    match calls[index]?, s.entries[index]? with
    | some toolCall, some (.executing _ _) =>
      some { s with
        events := s.events ++ [.toolExecutionUpdate index toolCall partialResult] }
    | _, some _ => some s
    | _, none => none
  | .resume index =>
    match calls[index]?, s.entries[index]? with
    | some toolCall, some phase =>
      (resume C mode s.aborted index toolCall phase).map (s.put index)
    | _, _ => none
  | .next =>
    match s.loop with
    | .running =>
      if s.entries.getLast?.all (Phase.handled mode) then
        if s.entries ≠ [] ∧ s.aborted then
          match mode with
          | .sequential => some { s with loop := .returned (batchOf s.finalizedCalls) }
          | .parallel => some { s with loop := .launching 0 }
        else
          match calls[s.entries.length]? with
          | some toolCall =>
            some { s with
              entries := s.entries ++ [.starting]
              events := s.events ++ [.toolExecutionStart s.entries.length toolCall] }
          | none =>
            match mode with
            | .sequential =>
              some { s with loop := .returned (batchOf s.finalizedCalls) }
            | .parallel => some { s with loop := .launching 0 }
      else none
    | _ => none
  | .launch =>
    match s.loop with
    | .launching position =>
      match calls[position]?, s.entries[position]? with
      | some toolCall, some phase =>
        some { s.put position (call s.aborted position toolCall phase) with
            loop := .launching (position + 1) }
      | _, _ => some { s with loop := .waiting }
    | _ => none
  | .collect =>
    match s.loop with
    | .waiting =>
      if s.entries.all fun phase => phase.finalized?.isSome then
        some { s with
          loop := .returned (batchOf s.finalizedCalls)
          events := s.events ++ s.finalizedCalls.flatMap messageEvents }
      else none
    | _ => none

end Execution

def executionMode (calls : List ToolCall) : Mode :=
  let hasSequentialToolCall := calls.any fun toolCall =>
    (C.tools.find? fun tool => tool.name = toolCall.name).any Tool.sequential
  if C.sequential || hasSequentialToolCall then .sequential else .parallel

end

end ReflectivePi.Agent
