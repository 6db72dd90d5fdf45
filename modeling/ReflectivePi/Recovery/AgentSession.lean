import Mathlib.Algebra.Ring.Nat
import ReflectivePi.Recovery.Classify
import ReflectivePi.Session.Operations

/-!
# Recovery — AgentSession

The loop of a session around the runs of its agent: retries of failed calls,
and compaction with one more try when the context is full or a response was
cut short. An await is a point of the loop; what a model, a sleep, a
compaction or a setting comes back with is the label of a step.

Failed attempts are hidden from the model by an edit entry; the entries and
their projection are those of the session manager.
-/

namespace ReflectivePi.Recovery

open Agent (StopReason)
open Session

/-! ## Settings and events -/

structure RetrySettings where
  enabled : Bool
  maxRetries : Nat
  baseDelayMs : Nat
  maxAgentDelayMs : Nat

/-- `Number.MAX_SAFE_INTEGER`. -/
def maxSafeInteger : Nat := 9007199254740991

def retryDelayMs (settings : RetrySettings) (attempt : Nat) : Nat :=
  min (min (settings.baseDelayMs * 2 ^ (attempt - 1)) maxSafeInteger) settings.maxAgentDelayMs

inductive Reason where
  | overflow
  | threshold
  deriving DecidableEq

inductive SessionEvent where
  | autoRetryStart (attempt maxAttempts delayMs : Nat) (errorMessage : String)
  | autoRetryEnd (success : Bool) (attempt : Nat) (finalError : Option String)
  | compactionStart (reason : Reason)
  | compactionEnd (reason : Reason) (aborted willRetry : Bool) (errorMessage : Option String)
  | entryAppended (id : EntryId)
  | agentSettled

/-- What happens in a session, in order. -/
inductive Item where
  | emitted (event : SessionEvent)
  /-- A request, with the projection it is made from. -/
  | request (context : SessionProjection)
  /-- A finished response and the entry that holds it. -/
  | response (entryId : EntryId) (completion : Completion)
  /-- A failed attempt hidden for a retry: the context before and after. -/
  | omitted (entryId : EntryId) (before after : SessionProjection)

/-- `_lastAssistantMessage`, with the entry `_entryIdsByMessage` has for it. -/
structure Attempt where
  completion : Completion
  entryId : EntryId
  deriving DecidableEq

/-! ## What is read and awaited -/

structure ModelInfo where
  provider : String
  id : String
  contextWindow : Nat
  maxTokens : Nat

/-- What `_checkCompaction` and `_runAutoCompaction` read. -/
structure CheckReadings where
  compactionEnabled : Bool
  model : Option ModelInfo
  /-- `estimateProjectedContextTokens(..).lastUsageIndex !== null`. -/
  estimateHasUsage : Bool
  /-- `shouldCompact` of the context tokens; not when their usage is stale. -/
  overThreshold : Bool
  /-- `prepareCompaction` finds something to compact. -/
  prepared : Bool

def CheckReadings.contextWindow (r : CheckReadings) : Nat :=
  (r.model.map ModelInfo.contextWindow).getD 0

/-- How a check ends. -/
inductive Check where
  | returns (result : Bool)
  /-- It waits for a compaction. -/
  | compacts (reason : Reason) (willRetry : Bool)
  | throws

/-- What `_runAutoCompaction` comes back with. -/
inductive CompactionOutcome where
  | done (summary : String) (firstKeptEntryId : EntryId) (tokensBefore : Nat)
      (details : Option CompactionDetails) (fromExtension : Bool)
  | failed (aborted : Bool) (message : String)

/-- The `action` of `finishTurn`. -/
inductive Decision where
  | none
  | continues
  | ends
  deriving DecidableEq

/-! ## States -/

inductive Phase where
  | idle
  /-- A run before its next request; whether a turn of it has ended. -/
  | requesting (turned : Bool)
  | responding (turned : Bool)
  /-- After a response: its tools, and the end of the turn. -/
  | responded (completion : Completion)
  /-- The run is over: `_handlePostAgentRun` is next. -/
  | deciding
  /-- In `_prepareRetry`, between the announcement and the omission. -/
  | omitting (attempt : Attempt) (toolResults : List EntryId)
  /-- The backoff of `_prepareRetry`. -/
  | sleeping (attempt : Attempt) (toolResults : List EntryId)
  /-- In `_runAutoCompaction`; before a prompt, or after a run. -/
  | compacting (reason : Reason) (willRetry preflight : Bool)
  /-- `agent.continue()` is next. -/
  | continuing
  /-- `_runBeforeSettleBoundary`. -/
  | beforeSettle
  /-- The `finally` block. -/
  | closing
  deriving DecidableEq

structure State where
  manager : LiveManager
  phase : Phase
  retryAttempt : Nat
  overflowRecoveryAttempted : Bool
  lastAssistantMessage : Option Attempt
  lastAssistantToolResults : List EntryId
  /-- The tool results since the last response. -/
  turnToolResults : List EntryId
  agentRunAbortRequested : Bool
  log : List Item
  /-- The model calls of this prompt. -/
  calls : List Completion

namespace State

def emit (s : State) (event : SessionEvent) : State :=
  { s with log := s.log ++ [.emitted event] }

def withPhase (s : State) (phase : Phase) : State := { s with phase }

/-- Append an entry; its id is the new leaf. -/
def append (env : Environment) (s : State) (kind : EntryKind) : State :=
  { s with manager := (s.manager.append env kind).1 }

def nextId (env : Environment) (s : State) : EntryId :=
  env.generateId s.manager.byId.keys

/-- `_handleAgentEvent` for a message that is no response. -/
def handleMessage (env : Environment) (s : State) (message : AgentMessage) : State :=
  let s := match message with
    | .user _ _ => { s with overflowRecoveryAttempted := false }
    | _ => s
  match message with
  | .custom m =>
    s.append env (.customMessage m.customType (some m.content) m.display m.details)
  -- persisted elsewhere
  | .bashExecution _ | .compactionSummary _ _ _ | .branchSummary _ _ _
  | .other _ => s
  | _ => s.append env (.message message)

/-- `_handleAgentEvent` at the end of a response. -/
def handleResponse (env : Environment) (s : State) (c : Completion) : State :=
  let id := s.nextId env
  let s := s.append env (.message c.toMessage)
  let s := { s with
    lastAssistantMessage := some ⟨c, id⟩
    log := s.log ++ [.response id c] }
  let s := if c.stopReason ≠ .error ∧ c.stopReason ≠ .length then
      { s with overflowRecoveryAttempted := false }
    else s
  if c.stopReason ≠ .error ∧ 0 < s.retryAttempt then
    { s.emit (.autoRetryEnd true s.retryAttempt none) with retryAttempt := 0 }
  else s

/-- `sessionManager.appendContextEdit(targetId, null)`. -/
def appendContextEdit (env : Environment) (m : LiveManager)
    (targetId : EntryId) : Option LiveManager :=
  match m.validateContextEdit targetId none none (m.getBranch.map SessionEntry.id) with
  | .error _ => none
  | .ok replacement => some (m.append env (.contextEdit targetId replacement none)).1

/-- `_omitRecoveryAttempt`, and whether it returns: an edit the manager
refuses is thrown, after the edits before it. -/
def omitRecoveryAttempt (env : Environment) (s : State) :
    List EntryId → State × Bool
  | [] => (s, true)
  | targetId :: rest =>
    match appendContextEdit env s.manager targetId with
    | none => (s, false)
    | some manager =>
      omitRecoveryAttempt env ({ s with manager }.emit (.entryAppended (s.nextId env))) rest

def finishCancelledRetry (s : State) : State :=
  if s.retryAttempt = 0 then s
  else { s.emit (.autoRetryEnd false s.retryAttempt (some "Retry cancelled")) with
    retryAttempt := 0 }

/-- `_prepareRetry` up to the omission; `none` when there is no retry. -/
def prepareRetry (settings : RetrySettings) (s : State) (a : Attempt)
    (toolResults : List EntryId) : Option State :=
  if !settings.enabled then none
  else if settings.maxRetries < s.retryAttempt + 1 then none
  else
    let attempt := s.retryAttempt + 1
    some ({ s with retryAttempt := attempt, phase := .omitting a toolResults }.emit
      (.autoRetryStart attempt settings.maxRetries (retryDelayMs settings attempt)
        (a.completion.errorText.getD "Unknown error")))

/-! ## Compaction -/

/-- `_runAutoCompaction` up to its first await. -/
def runAutoCompaction (s : State) (r : CheckReadings) (reason : Reason)
    (willRetry : Bool) : State × Check :=
  if r.model.isNone || !r.prepared then (s, .returns false)
  else (s.emit (.compactionStart reason), .compacts reason willRetry)

/-- `branch.slice(assistantIndex + 1)`; nothing for an entry off the branch. -/
def entriesAfter (branch : List SessionEntry) (id : EntryId) : List SessionEntry :=
  (branch.dropWhile fun e => e.id ≠ id).drop 1

def recoveryFailed (contextOverflow : Bool) : String :=
  if contextOverflow then
    "Context overflow recovery failed after one compact-and-retry attempt. Try reducing context or switching to a larger-context model."
  else "Truncated response recovery failed after one compact-and-retry attempt."

/-- The facts about one response in a session that `_checkCompaction`
decides on. -/
structure CheckFacts where
  fromBeforeCompaction : Bool
  projected : Bool
  retained : Bool
  usageMatchesProjection : Bool
  hasContextChanges : Bool

def checkFacts (m : LiveManager) (a : Attempt) : CheckFacts :=
  let branch := m.getBranch
  let after := entriesAfter branch a.entryId
  let projected := m.buildSessionProjection.entries.any fun p =>
    decide (p.sourceEntry.id = a.entryId) && p.messages.any AgentMessage.isAssistant
  let latestEdit := (after.filter fun e => e.changeTarget? = some a.entryId).getLast?
  { fromBeforeCompaction := match newestCompaction branch with
      | none => false
      | some (e, _) => decide (a.completion.timestamp ≤ e.timestamp)
    projected
    retained := !after.any SessionEntry.isCompaction && !latestEdit.any fun e => match e.kind with
        | .contextEdit _ none _ => true
        | _ => false
    usageMatchesProjection := projected && !after.any fun e => e.changeTarget?.isSome
    hasContextChanges := m.getEntries.any fun e =>
      e.toPrune?.isSome || e.changeTarget?.isSome }

variable (patterns : ErrorPatterns)

/-- The attempt overflowed the context of the current model. -/
def contextOverflow (facts : CheckFacts) (c : Completion) (r : CheckReadings)
    (sameModel : Bool) : Bool :=
  let explicitOverflow := decide (c.stopReason = .error) && isContextOverflow patterns c 0
  let inferredOverflow := facts.usageMatchesProjection
    && isContextOverflow patterns c r.contextWindow
    && (!facts.hasContextChanges || r.estimateHasUsage)
  sameModel && ((explicitOverflow && facts.retained) || inferredOverflow)

/-- `_checkCompaction` up to its first await. -/
def checkCompaction (env : Environment) (s : State) (a : Attempt)
    (skipAbortedCheck : Bool) (toolResults : List EntryId)
    (r : CheckReadings) : State × Check :=
  let c := a.completion
  let facts := checkFacts s.manager a
  let sameModel := r.model.any fun m =>
    decide (c.provider = m.provider) && decide (c.model = m.id)
  let overflow := contextOverflow patterns facts c r sameModel
  let recoverableLength := sameModel && facts.projected
    && isRecoverableLength c ((r.model.map ModelInfo.maxTokens).getD 0)
  if !r.compactionEnabled then (s, .returns false)
  else if skipAbortedCheck && decide (c.stopReason = .aborted) then
    (s, .returns false)
  else if facts.fromBeforeCompaction then (s, .returns false)
  else if overflow || recoverableLength then
    if c.stopReason = .stop then runAutoCompaction s r .overflow false
    else if s.overflowRecoveryAttempted then
      (s.emit (.compactionEnd .overflow false false
        (some (recoveryFailed overflow))), .returns false)
    else
      let (s, returned) := omitRecoveryAttempt env
        { s with overflowRecoveryAttempted := true } (a.entryId :: toolResults)
      if returned then runAutoCompaction s r .overflow true else (s, .throws)
  else if r.overThreshold then runAutoCompaction s r .threshold false
  else (s, .returns false)

/-- `_runAutoCompaction` after its awaits. -/
def finishCompaction (env : Environment) (s : State) (reason : Reason)
    (willRetry : Bool) : CompactionOutcome → State
  | .done summary firstKeptEntryId tokensBefore details fromExtension =>
    { s with
      manager := (s.manager.appendCompaction env summary
        (some firstKeptEntryId) tokensBefore details fromExtension).1 }.emit
      (.compactionEnd reason false willRetry none)
  | .failed aborted message =>
    let errorMessage := match reason with
      | .overflow => "Context overflow recovery failed: " ++ message
      | .threshold => "Auto-compaction failed: " ++ message
    s.emit (.compactionEnd reason aborted false (if aborted then none else some errorMessage))

/-! ## After a run -/

/-- Leave `_handlePostAgentRun` with its answer. -/
def proceed (s : State) (continues : Bool) : State :=
  if s.agentRunAbortRequested then s.withPhase .closing
  else if continues then s.withPhase .continuing
  else s.withPhase .beforeSettle

/-- `_handlePostAgentRun` from the point where no retry is made. -/
def afterRetry (env : Environment) (s : State) (a : Attempt)
    (toolResults : List EntryId) (r : CheckReadings) (hasQueued : Bool) : State :=
  let c := a.completion
  let s := if c.stopReason = .error ∧ 0 < s.retryAttempt then
      { s.emit (.autoRetryEnd false s.retryAttempt c.errorMessage) with
        retryAttempt := 0 }
    else s
  match checkCompaction patterns env s a true toolResults r with
  | (s, .returns result) => s.proceed (result || hasQueued)
  | (s, .compacts reason willRetry) =>
    s.withPhase (.compacting reason willRetry false)
  | (s, .throws) => s.withPhase .closing

/-- The head of the loop and `_handlePostAgentRun`. -/
def handlePostAgentRun (env : Environment) (s : State)
    (settings : RetrySettings) (r : CheckReadings) (hasQueued : Bool) : State :=
  if s.agentRunAbortRequested then s.withPhase .closing
  else
    let toolResults := s.lastAssistantToolResults
    let cleared := { s with
      lastAssistantMessage := none, lastAssistantToolResults := [] }
    match s.lastAssistantMessage with
    | none => cleared.proceed hasQueued
    | some a =>
      if isRetryableError patterns a.completion r.contextWindow then
        match prepareRetry settings cleared a toolResults with
        | some s => s
        | none => afterRetry patterns env cleared a toolResults r hasQueued
      else afterRetry patterns env cleared a toolResults r hasQueued

/-- The omission of `_prepareRetry`. -/
def omitAttempt (env : Environment) (s : State) (a : Attempt)
    (toolResults : List EntryId) : State :=
  let before := s.manager.buildSessionProjection
  match omitRecoveryAttempt env s [a.entryId] with
  | (s, true) =>
    { s with
      phase := .sleeping a toolResults
      log := s.log ++ [.omitted a.entryId before s.manager.buildSessionProjection] }
  | (s, false) => s.withPhase .closing

/-- The backoff is over, or `abortRetry` ended it. -/
def wake (env : Environment) (s : State) (a : Attempt)
    (toolResults : List EntryId) (elapsed : Bool) (r : CheckReadings)
    (hasQueued : Bool) : State :=
  if elapsed then
    if s.agentRunAbortRequested then s.finishCancelledRetry.withPhase .closing
    else s.withPhase .continuing
  else
    let s := s.finishCancelledRetry
    if s.agentRunAbortRequested then s.withPhase .closing
    else afterRetry patterns env s a toolResults r hasQueued

/-- The rest of `_handlePostAgentRun`, or of a prompt, after a compaction. -/
def compacted (env : Environment) (s : State) (reason : Reason)
    (willRetry preflight : Bool) (outcome : CompactionOutcome)
    (hasQueued : Bool) : State :=
  let succeeded := match outcome with
    | .done _ _ _ _ _ => true
    | .failed _ _ => false
  let s := s.finishCompaction env reason willRetry outcome
  if preflight then s.withPhase .idle
  else s.proceed ((succeeded && willRetry) || hasQueued)

/-- The end of a turn in `runLoop`: on to the next request, or out. -/
def endTurn (s : State) (c : Completion) (terminate : Bool)
    (decision : Decision) (drained : Bool) : State :=
  if c.stopReason = .error ∨ c.stopReason = .aborted then
    { s with
      lastAssistantToolResults := [], turnToolResults := [], phase := .deciding }
  else
    let s := { s with
      lastAssistantToolResults := s.turnToolResults, turnToolResults := [] }
    let hasMoreToolCalls := c.hasToolCalls && !terminate
    if decision = .ends then s.withPhase .deciding
    else if hasMoreToolCalls || drained || decide (decision = .continues) then
      s.withPhase (.requesting true)
    else s.withPhase .deciding

/-- `handleRunFailure`: the failure is a response, and the run is over. -/
def handleRunFailure (env : Environment) (s : State) (c : Completion) : State :=
  { s.handleResponse env c with
    lastAssistantToolResults := [], turnToolResults := [], phase := .deciding }

end State

/-- Where a message that a run hands to the model comes from. -/
inductive Delivery where
  /-- The steering or the follow-up queue. -/
  | queue
  /-- `prepareNextTurn`, or a status note for the next turn. -/
  | prepared
  /-- A declaration of tools, in a system message. -/
  | declared
  deriving DecidableEq

/-- What is prepared needs a turn that has ended. -/
def Delivery.allows (turned : Bool) (message : AgentMessage) : Delivery → Bool
  | .queue => !message.isAssistant
  | .prepared => turned && !message.isAssistant
  | .declared => message.isSystem

inductive Act where
  | prompt (messages : List AgentMessage)
  /-- The check for compaction before a prompt. -/
  | preflight (a : Attempt) (r : CheckReadings)
  | deliver (source : Delivery) (message : AgentMessage)
  | request
  | complete (c : Completion)
  /-- The run throws; its failure message has this stop reason. -/
  | fail (c : Completion)
  | toolResult (message : ToolResultMessage)
  | endTurn (terminate : Bool) (decision : Decision) (drained : Bool)
  | post (settings : RetrySettings) (r : CheckReadings) (hasQueued : Bool)
  | omitAttempt
  | wake (elapsed : Bool) (r : CheckReadings) (hasQueued : Bool)
  | compacted (outcome : CompactionOutcome) (hasQueued : Bool)
  /-- Whether the boundary before settling asks to continue. -/
  | beforeSettle (continues : Bool)
  | resume
  /-- What is awaited rejects, out of the loop. -/
  | throw
  | settle
  | abort
  /-- Anything else that writes to the session. -/
  | write (op : LiveManager.Operation)

structure Label where
  env : Environment
  act : Act

open State in
/-- One step, when it can be made. -/
def step (patterns : ErrorPatterns) (migrate : List FileEntry → List FileEntry × Bool) (s : State)
    (label : Label) : Option State :=
  let env := label.env
  match label.act, s.phase with
  | .prompt messages, .idle =>
    some (messages.foldl (handleMessage env) { s with
        agentRunAbortRequested := false, calls := [], phase := .requesting false })
  | .preflight a r, .idle =>
    match checkCompaction patterns env s a false [] r with
    | (s, .returns _) => some (s.withPhase .idle)
    | (s, .compacts reason willRetry) =>
      some (s.withPhase (.compacting reason willRetry true))
    | (s, .throws) => some (s.withPhase .idle)
  | .deliver source message, .requesting turned =>
    if source.allows turned message then some (s.handleMessage env message)
    else none
  | .request, .requesting turned =>
    some { s with
      phase := .responding turned
      log := s.log ++ [.request s.manager.buildSessionProjection] }
  | .complete c, .responding _ =>
    some { s.handleResponse env c with
      phase := .responded c, turnToolResults := [], calls := s.calls ++ [c] }
  | .fail c, .requesting _ =>
    if c.stopReason = .error ∨ c.stopReason = .aborted then
      some (s.handleRunFailure env c)
    else none
  | .fail c, .responding _ =>
    if c.stopReason = .error ∨ c.stopReason = .aborted then
      some { s.handleRunFailure env c with calls := s.calls ++ [c] }
    else none
  | .fail c, .responded _ =>
    if c.stopReason = .error ∨ c.stopReason = .aborted then
      some (s.handleRunFailure env c)
    else none
  | .toolResult message, .responded _ =>
    some { s.append env (.message (.toolResult message)) with
      turnToolResults := s.turnToolResults ++ [s.nextId env] }
  | .endTurn terminate decision drained, .responded c =>
    some (s.endTurn c terminate decision drained)
  | .post settings r hasQueued, .deciding =>
    some (s.handlePostAgentRun patterns env settings r hasQueued)
  | .omitAttempt, .omitting a toolResults => some (s.omitAttempt env a toolResults)
  | .wake elapsed r hasQueued, .sleeping a toolResults =>
    some (s.wake patterns env a toolResults elapsed r hasQueued)
  | .compacted outcome hasQueued, .compacting reason willRetry preflight =>
    some (s.compacted env reason willRetry preflight outcome hasQueued)
  | .beforeSettle continues, .beforeSettle =>
    some (s.withPhase (if s.agentRunAbortRequested || !continues then .closing else .continuing))
  | .resume, .continuing => some (s.withPhase (.requesting false))
  | .throw, phase =>
    match phase with
    | .idle | .closing | .compacting _ _ true => none
    | _ => some (s.withPhase .closing)
  | .settle, .closing =>
    let s := if s.agentRunAbortRequested then s.finishCancelledRetry else s
    some ((s.emit .agentSettled).withPhase .idle)
  | .abort, phase =>
    match phase with
    | .idle | .compacting _ _ true => some s
    | .omitting _ _ => none
    | _ => some { s with agentRunAbortRequested := true }
  | .write op, phase =>
    match phase with
    | .omitting _ _ => none
    | _ => some { s with manager := (s.manager.perform migrate env op).manager }
  | _, _ => none

end ReflectivePi.Recovery
