import ReflectivePi.Agent.ToolDeclarations

/-!
# Agent — RunLoop

The loop of an agent run over its turns, with the queues of steering and
follow-up messages that users fill while it runs. Every await is a point of the
loop: what a hook, the model or a tool batch comes back with is the label of a
step, and messages can be queued at every point.
-/

namespace ReflectivePi.Agent

/-! ## Queues -/

inductive QueueMode where
  | all
  | oneAtATime

structure PendingMessageQueue where
  messages : List AgentMessage
  mode : QueueMode

namespace PendingMessageQueue

def enqueue (queue : PendingMessageQueue) (message : AgentMessage) : PendingMessageQueue :=
  { queue with messages := queue.messages ++ [message] }

def peek (queue : PendingMessageQueue) : List AgentMessage :=
  match queue.mode with
  | .all => queue.messages
  | .oneAtATime => queue.messages.take 1

/-- What is drained, and the queue that is left. -/
def drain (queue : PendingMessageQueue) : List AgentMessage × PendingMessageQueue :=
  (queue.peek, { queue with messages := queue.messages.drop queue.peek.length })

end PendingMessageQueue

inductive Source where
  | steering
  | followUp
  deriving DecidableEq

/-- `lastCompletedTurn`; its context and messages are not read. -/
structure CompletedTurn where
  message : AssistantMessage
  toolResults : List ToolResultMessage
  terminated : Bool
  deriving DecidableEq

/-- The await that the loop is in. -/
inductive Point where
  /-- The start event of the next prompt, or the end of the prompts. -/
  | prompting (rest : List AgentMessage)
  | promptEnding (message : AgentMessage) (rest : List AgentMessage)
  /-- `getSteeringMessages` before the first turn. -/
  | initialPoll
  | preparing
  /-- `getSteeringMessages` after a preparation. -/
  | repolling (preparedMessages : List AgentMessage)
  | delivering (rest : List AgentMessage)
  | messageEnding (message : AgentMessage) (rest : List AgentMessage)
  /-- `prepareRequest`. -/
  | requesting
  /-- `streamAssistantResponse`. -/
  | responding
  | executing (message : AssistantMessage)
  | finishing (turn : CompletedTurn)
  /-- `getSteeringMessages` after a turn. -/
  | steeringPoll (turn : CompletedTurn)
  /-- `getContextStatusMessages`. -/
  | statusPoll (turn : CompletedTurn)
  /-- `getFollowUpMessages`. -/
  | followUpPoll
  | ended
  deriving DecidableEq

/-- What is queued, handed out, emitted and appended to the context. -/
inductive RunEvent where
  | queued (source : Source) (message : AgentMessage)
  | prompted (messages : List AgentMessage)
  | drained (source : Source) (messages : List AgentMessage)
  | prepared (messages : List AgentMessage)
  | contextStatus (messages : List AgentMessage)
  | turnStart
  | messageStart (message : AgentMessage)
  | messageEnd (message : AgentMessage)
  | appended (message : AgentMessage)
  | response (message : AssistantMessage)
  | turnEnd
  | agentEnd (messages : List AgentMessage)
  deriving DecidableEq

/-- How a run was started. -/
inductive Origin where
  | prompt
  /-- `continue()` with drained messages as prompts. -/
  | queue (source : Source)
  /-- `continue()` from a transcript that does not end in a response. -/
  | transcript

structure RunState where
  origin : Origin
  context : AgentContext
  newMessages : List AgentMessage
  steeringQueue : PendingMessageQueue
  followUpQueue : PendingMessageQueue
  skipInitialSteeringPoll : Bool
  pendingMessages : List AgentMessage := []
  pendingContextStatus : List AgentMessage := []
  lastCompletedTurn : Option CompletedTurn := none
  hasMoreToolCalls : Bool := true
  explicitContinuation : Bool := false
  point : Point
  /-- The events up to each response, and to the end of the run. -/
  turns : List (List RunEvent) := []
  /-- The events since then. -/
  events : List RunEvent

namespace RunState

def emit (s : RunState) (events : List RunEvent) : RunState :=
  { s with events := s.events ++ events }

/-- An event that ends the delivery of messages. -/
def close (s : RunState) (event : RunEvent) : RunState :=
  { s with turns := s.turns ++ [s.events ++ [event]], events := [] }

def finish (s : RunState) : RunState :=
  { s.close (.agentEnd s.newMessages) with point := .ended }

def queue (s : RunState) : Source → PendingMessageQueue
  | .steering => s.steeringQueue
  | .followUp => s.followUpQueue

def setQueue (s : RunState) (source : Source) (queue : PendingMessageQueue) : RunState :=
  match source with
  | .steering => { s with steeringQueue := queue }
  | .followUp => { s with followUpQueue := queue }

/-- `steer` and `followUp`. -/
def enqueue (s : RunState) (source : Source) (message : AgentMessage) : RunState :=
  (s.setQueue source ((s.queue source).enqueue message)).emit [.queued source message]

/-- A queue is drained into the pending messages. -/
def drainQueue (s : RunState) (source : Source) : RunState :=
  let (messages, queue) := (s.queue source).drain
  { (s.setQueue source queue).emit [.drained source messages] with
    pendingMessages := messages }

def getSteeringMessages (s : RunState) : RunState :=
  if s.skipInitialSteeringPoll then
    { s with skipInitialSteeringPoll := false, pendingMessages := [] }
  else s.drainQueue .steering

/-! ## The loop -/

def deliver (s : RunState) (preparedMessages : List AgentMessage) : RunState :=
  { s with
    point := .delivering (declareToolChanges s.context (preparedMessages ++ s.pendingMessages)) }

def startTurn (s : RunState) (preparedMessages : List AgentMessage) : RunState :=
  let s := { s with
    pendingMessages := s.pendingMessages ++ s.pendingContextStatus
    pendingContextStatus := [] }
  (s.emit [.turnStart]).deliver preparedMessages

/-- The condition of the inner loop. -/
def whileLoop (s : RunState) : RunState :=
  if s.hasMoreToolCalls ∨ s.pendingMessages ≠ [] then
    match s.lastCompletedTurn with
    | some _ => { s with point := .preparing }
    | none => s.deliver []
  else { s with point := .followUpPoll }

/-- The message is emitted completely and goes to the context. -/
def append (s : RunState) (message : AgentMessage) : RunState :=
  { s.emit [.messageEnd message, .appended message] with
    context := { s.context with messages := s.context.messages ++ [message] }
    newMessages := s.newMessages ++ [message] }

/-- A turn is over, with its tool results in the context. -/
def completeTurn (s : RunState) (turn : CompletedTurn) : RunState :=
  let results := turn.toolResults.map AgentMessage.toolResult
  { s with
    context := { s.context with messages := s.context.messages ++ results }
    newMessages := s.newMessages ++ results
    lastCompletedTurn := some turn
    point := .finishing turn }

end RunState

/-- The calls of a message that was cut off are not executed. -/
def failToolCallsFromTruncatedMessage (toolCalls : List ToolCall) : Batch where
  messages := toolCalls.map fun toolCall => createToolResultMessage
    { toolCall
      result := createErrorToolResult
        s!"Tool call \"{toolCall.name}\" was not executed: the response hit the output token limit, so its arguments may be truncated. Re-issue the tool call with complete arguments."
      isError := true }
  terminate := false

namespace RunState

/-- The batch of tool calls of a turn is done. -/
def executed (s : RunState) (message : AssistantMessage) (batch : Batch) : RunState :=
  { s with hasMoreToolCalls := !batch.terminate }.completeTurn
    ⟨message, batch.messages, batch.terminate⟩

def respond (s : RunState) (message : AssistantMessage) : RunState :=
  let s := { s.close (.response message) with
    context := { s.context with messages := s.context.messages ++ [AgentMessage.assistant message] }
    newMessages := s.newMessages ++ [AgentMessage.assistant message] }
  if message.stopReason = .error ∨ message.stopReason = .aborted then
    s.completeTurn ⟨message, [], false⟩
  else if message.toolCalls = [] then
    { s with hasMoreToolCalls := false }.completeTurn ⟨message, [], false⟩
  else if message.stopReason = .length then
    s.executed message (failToolCallsFromTruncatedMessage message.toolCalls)
  else { s with point := .executing message }

end RunState

/-! ## Steps -/

/-- `AgentLoopTurnUpdate`; no messages are an empty list. -/
structure AgentLoopTurnUpdate where
  context : Option AgentContext
  messages : List AgentMessage

inductive TurnDecision where
  | continue
  | end
  deriving DecidableEq

inductive RunLabel where
  | steer (message : AgentMessage)
  | followUp (message : AgentMessage)
  /-- An emitted event, or a poll of a queue. -/
  | next
  | prepareNextTurn (update : AgentLoopTurnUpdate)
  | prepareRequest (context : Option AgentContext)
  | respond (message : AssistantMessage)
  | executeToolCalls (batch : Batch)
  | finishTurn (decision : Option TurnDecision)
  | getContextStatusMessages (messages : List AgentMessage)

namespace RunState

/-- The step of a point that waits for an event or a queue. -/
def next (s : RunState) : Option RunState :=
  match s.point with
  | .prompting [] => some { s with point := .initialPoll }
  | .prompting (message :: rest) =>
    some { s.emit [.messageStart message] with point := .promptEnding message rest }
  | .promptEnding message rest =>
    some { s.emit [.messageEnd message] with point := .prompting rest }
  | .initialPoll => some { s.getSteeringMessages with hasMoreToolCalls := true }.whileLoop
  | .repolling preparedMessages =>
    some (s.getSteeringMessages.startTurn preparedMessages)
  | .delivering [] => some { s with pendingMessages := [], point := .requesting }
  | .delivering (message :: rest) =>
    some { s.emit [.messageStart message] with point := .messageEnding message rest }
  | .messageEnding message rest =>
    some { s.append message with point := .delivering rest }
  | .steeringPoll turn => some { s.getSteeringMessages with point := .statusPoll turn }
  | .followUpPoll =>
    let s := s.drainQueue .followUp
    if s.pendingMessages ≠ [] then
      some { s with explicitContinuation := false, hasMoreToolCalls := true }.whileLoop
    else if s.explicitContinuation then
      some { s with explicitContinuation := false, hasMoreToolCalls := true }.whileLoop
    else some s.finish
  | _ => none

/-- A turn is prepared; steering is polled again when there is none yet. -/
def prepareNextTurn (s : RunState) (update : AgentLoopTurnUpdate) : RunState :=
  let s := { s.emit [.prepared update.messages] with
    context := update.context.getD s.context }
  if s.pendingMessages = [] then { s with point := .repolling update.messages }
  else s.startTurn update.messages

def finishTurn (s : RunState) (turn : CompletedTurn) (decision : Option TurnDecision) : RunState :=
  let s := s.emit [.turnEnd]
  if turn.message.stopReason = .error ∨ turn.message.stopReason = .aborted then s.finish
  else if decision = some .end then s.finish
  else
    { s with
      explicitContinuation := decision = some .continue
      point := .steeringPoll turn }

def getContextStatusMessages (s : RunState) (messages : List AgentMessage) : RunState :=
  let s := { s.emit [.contextStatus messages] with
    pendingContextStatus := if messages ≠ [] then messages else s.pendingContextStatus }
  let s := { s with
    explicitContinuation := s.explicitContinuation
      && !(s.hasMoreToolCalls || s.pendingMessages ≠ []) }
  s.whileLoop

def step (s : RunState) : RunLabel → Option RunState
  | .steer message => some (s.enqueue .steering message)
  | .followUp message => some (s.enqueue .followUp message)
  | .next => s.next
  | .prepareNextTurn update =>
    if s.point = .preparing then some (s.prepareNextTurn update) else none
  | .prepareRequest context =>
    if s.point = .requesting then
      some { s with context := context.getD s.context, point := .responding }
    else none
  | .respond message => if s.point = .responding then some (s.respond message) else none
  | .executeToolCalls batch =>
    match s.point with
    | .executing message => some (s.executed message batch)
    | _ => none
  | .finishTurn decision =>
    match s.point with
    | .finishing turn => some (s.finishTurn turn decision)
    | _ => none
  | .getContextStatusMessages messages =>
    match s.point with
    | .statusPoll _ => some (s.getContextStatusMessages messages)
    | _ => none

end RunState

/-! ## Starting a run -/

/-- What a run takes from the agent. -/
structure AgentState where
  messages : List AgentMessage
  tools : List ToolDeclaration
  steeringQueue : PendingMessageQueue
  followUpQueue : PendingMessageQueue

namespace AgentState

/-- What was queued before the run. -/
def queuedEvents (agent : AgentState) : List RunEvent :=
  agent.steeringQueue.messages.map (.queued .steering)
    ++ agent.followUpQueue.messages.map (.queued .followUp)

/-- `runAgentLoop`, with the event that hands out the prompts. -/
def runAgentLoop (agent : AgentState) (origin : Origin) (handed : RunEvent)
    (prompts : List AgentMessage) (events : List RunEvent)
    (skipInitialSteeringPoll : Bool) : RunState :=
  let initialMessages := declareToolChanges ⟨agent.messages, agent.tools⟩ prompts
  { origin
    context := ⟨agent.messages ++ initialMessages, agent.tools⟩
    newMessages := initialMessages
    steeringQueue := agent.steeringQueue
    followUpQueue := agent.followUpQueue
    skipInitialSteeringPoll
    point := .prompting initialMessages
    events := events ++ handed :: (initialMessages.map .appended ++ [.turnStart]) }

def runAgentLoopContinue (agent : AgentState) : RunState where
  origin := .transcript
  context := ⟨agent.messages, agent.tools⟩
  newMessages := []
  steeringQueue := agent.steeringQueue
  followUpQueue := agent.followUpQueue
  skipInitialSteeringPoll := false
  point := .initialPoll
  events := agent.queuedEvents ++ [.turnStart]

def prompt (agent : AgentState) (messages : List AgentMessage) : RunState :=
  agent.runAgentLoop .prompt (.prompted messages) messages agent.queuedEvents false

def continueRun (agent : AgentState) : Except String RunState :=
  match agent.messages.getLast? with
  | none => .error "No messages to continue from"
  | some lastMessage =>
    if agent.messages.all AgentMessage.isSystem then
      .error "No messages to continue from"
    else
      match lastMessage with
      | .assistant _ =>
        let (steering, steeringQueue) := agent.steeringQueue.drain
        let (followUps, followUpQueue) := agent.followUpQueue.drain
        if steering ≠ [] then
          .ok ({ agent with steeringQueue }.runAgentLoop (.queue .steering)
            (.drained .steering steering) steering agent.queuedEvents true)
        else if followUps ≠ [] then
          .ok ({ agent with followUpQueue }.runAgentLoop (.queue .followUp)
            (.drained .followUp followUps) followUps agent.queuedEvents false)
        else .error "Cannot continue from message role: assistant"
      | _ => .ok agent.runAgentLoopContinue

/-- The state that a run starts in. -/
def Starts (agent : AgentState) (s : RunState) : Prop :=
  (∃ messages, s = agent.prompt messages) ∨ agent.continueRun = .ok s

end AgentState

/-- The turn is one after which a run may have to end. -/
def Point.isTerminal : Point → Bool
  | .statusPoll turn => turn.toolResults = [] || turn.terminated
  | _ => false

/-- The contract of the hook for context status: it returns nothing for a turn
without tool results or with early termination. -/
def StatusContract (s : RunState) : RunLabel → Prop
  | .getContextStatusMessages messages => s.point.isTerminal = true → messages = []
  | _ => True

instance instDecidableStatusContract (s : RunState) :
    ∀ label, Decidable (StatusContract s label)
  | .getContextStatusMessages messages =>
    inferInstanceAs (Decidable (s.point.isTerminal = true → messages = []))
  | .steer _ => .isTrue trivial
  | .followUp _ => .isTrue trivial
  | .next => .isTrue trivial
  | .prepareNextTurn _ => .isTrue trivial
  | .prepareRequest _ => .isTrue trivial
  | .respond _ => .isTrue trivial
  | .executeToolCalls _ => .isTrue trivial
  | .finishTurn _ => .isTrue trivial

end ReflectivePi.Agent
