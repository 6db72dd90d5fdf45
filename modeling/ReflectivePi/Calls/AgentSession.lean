import Mathlib.Logic.Function.Basic

/-!
# Calls — Agent session

The calls on one `AgentSession` and how they interleave: `prompt`,
`sendCustomMessage`, `compact`, `navigateTree`, `recordBashResult`, `abort`
and `waitForIdle`. A call runs without interruption from one `await` to the
next; a step is the part of one call between two of them, so the state is
every call's place and the fields that they share.

Awaits between which no shared field changes are one place. What a call
reads or is answered comes with the label of its step, and so does what the
agent does in a run. Messages are counted, not told apart.
-/

namespace ReflectivePi.Calls

abbrev CallId := Nat

/-- An agent run, a manual compaction or a navigation, each by a number of
its own. -/
inductive Operation where
  | run (k : Nat)
  | compaction (k : Nat)
  | navigation (k : Nat)
  deriving DecidableEq

/-- What is observed. -/
inductive Event where
  | started (op : Operation)
  | ended (op : Operation)
  /-- `agent_settled`, of a run. -/
  | settled (k : Nat)
  | compactionStart (k : Nat)
  /-- `compaction_end`; one comes without a start, when a recovery has
  already been tried. -/
  | compactionEnd (k : Option Nat)
  /-- A wait for idle is resolved. -/
  | idle
  /-- An assistant message with calls that the agent will run. -/
  | toolCalls (n : Nat)
  | toolResult
  /-- The run failed; the calls that are left get no result. -/
  | abandoned
  | bash
  | custom

/-! ## Places of a call -/

/-- An automatic compaction, or the handlers being told that it failed. -/
inductive AutoPhase where
  | working
  | reporting
  deriving DecidableEq

/-- Where `_runAgentPrompt` is. -/
inductive RunPhase where
  /-- `agent.prompt` or `agent.continue` is running. -/
  | agent
  /-- `agent.prompt` has thrown at once: another run was active. -/
  | rejected
  /-- After the agent has ended: the retry, the checks, the boundary. -/
  | between
  | auto (k : Nat) (phase : AutoPhase)
  deriving DecidableEq

/-- Who waits for idle. -/
inductive Waiter where
  | abort
  | waitForIdle
  | compact
  deriving DecidableEq

inductive Phase where
  | absent
  | done
  /-- `prompt`: the extension command. -/
  | commands
  /-- `prompt`: the input handlers. -/
  | input
  /-- `prompt`: `checkAuth`. -/
  | auth
  /-- `prompt`: the compaction before the run. -/
  | autoBefore (k : Nat) (phase : AutoPhase)
  /-- `prompt`: the `before_agent_start` handlers and the images. -/
  | hooks
  | run (k : Nat) (phase : RunPhase)
  /-- `_emitAgentSettled`, and whether the run threw. -/
  | settling (k : Nat) (thrown : Bool)
  /-- A function of the call returns or throws. -/
  | returning (thrown : Bool)
  | waiting (w : Waiter)
  /-- The wait is resolved, the call not yet resumed. -/
  | released (w : Waiter)
  | compacting (k : Nat)
  /-- `compact`: the `session_compact` handlers. -/
  | announcing (k : Nat)
  /-- `_emitSessionCompactFailed` of `compact`. -/
  | reporting
  | navigating (k : Nat)
  deriving DecidableEq

/-- What is put off while `agent_settled` is being emitted. -/
inductive Deferred where
  | prompt
  | run

/-- The deferred actions that a settling run still has to do, and whether the
run threw. -/
structure Frame where
  actions : List Deferred
  thrown : Bool

/-! ## State -/

structure State where
  phase : CallId → Phase
  frames : CallId → List Frame
  isAgentRunActive : Bool
  agentRunAbortRequested : Bool
  isEmittingAgentSettled : Bool
  deferredSettledActions : List Deferred
  pendingBashMessages : Nat
  pendingCustomMessages : Nat
  autoCompaction : Option Nat
  manualCompaction : Option Nat
  branchSummary : Option Nat
  /-- `agent.activeRun`. -/
  activeRun : Option CallId
  /-- The calls of the active run without a result yet. -/
  openCalls : Nat
  /-- The next number for an operation or a compaction. -/
  next : Nat
  /-- The calls of `compact` at `_emitSessionCompactFailed`. -/
  reporters : List CallId
  log : List Event

namespace State

def initial : State where
  phase _ := .absent
  frames _ := []
  isAgentRunActive := false
  agentRunAbortRequested := false
  isEmittingAgentSettled := false
  deferredSettledActions := []
  pendingBashMessages := 0
  pendingCustomMessages := 0
  autoCompaction := none
  manualCompaction := none
  branchSummary := none
  activeRun := none
  openCalls := 0
  next := 0
  reporters := []
  log := []

def isCompacting (s : State) : Bool :=
  s.autoCompaction.isSome || s.manualCompaction.isSome || s.branchSummary.isSome

def isIdle (s : State) : Bool := !s.isAgentRunActive && !s.isCompacting

def emit (s : State) (e : Event) : State := { s with log := s.log ++ [e] }

def moveTo (s : State) (i : CallId) (p : Phase) : State :=
  { s with phase := Function.update s.phase i p }

/-- `_resolveIdleWaitIfIdle`: every wait for idle is one promise. -/
def resolveIdle (s : State) : State :=
  if s.isIdle then
    { s.emit .idle with
      phase := fun j => match s.phase j with
        | .waiting w => .released w
        | p => p }
  else s

def flushBash (s : State) : State :=
  { s with
    log := s.log ++ List.replicate s.pendingBashMessages .bash
    pendingBashMessages := 0 }

def flushCustom (s : State) : State :=
  { s with
    log := s.log ++ List.replicate s.pendingCustomMessages .custom
    pendingCustomMessages := 0 }

/-- `_runAgentPrompt` up to its first wait. -/
def startRun (s : State) (i : CallId) : State :=
  let k := s.next
  let s := { s.emit (.started (.run k)) with
    agentRunAbortRequested := false
    isAgentRunActive := true
    next := k + 1 }
  if s.activeRun.isSome then s.moveTo i (.run k .rejected)
  else { s.moveTo i (.run k .agent) with activeRun := some i }

/-- The `finally` of `_runAgentPrompt` up to its wait. -/
def endRun (s : State) (i : CallId) (k : Nat) (thrown : Bool) : State :=
  let s := (s.emit (.ended (.run k))).flushBash.flushCustom
  { s.moveTo i (.settling k thrown) with
    isAgentRunActive := false
    isEmittingAgentSettled := true }

/-- `_emitAgentSettled` after the handlers. -/
def settle (s : State) (i : CallId) (k : Nat) (thrown : Bool) : State :=
  let s := { s.emit (.settled k) with isEmittingAgentSettled := false }
  if s.deferredSettledActions.isEmpty then (s.moveTo i (.returning thrown)).resolveIdle
  else
    { s.moveTo i (.returning false) with
      deferredSettledActions := []
      frames := Function.update s.frames i (⟨s.deferredSettledActions, thrown⟩ :: s.frames i) }

/-! ## Compactions -/

def startAuto (s : State) (i : CallId) (p : Nat → Phase) : State :=
  let k := s.next
  { (s.emit (.compactionStart k)).moveTo i (p k) with
    autoCompaction := some k
    next := k + 1 }

/-- The `finally` of `_runAutoCompaction`. -/
def clearAuto (s : State) (k : Nat) : State :=
  (if s.autoCompaction = some k then { s with autoCompaction := none } else s).resolveIdle

/-- `compact` after `abort`. -/
def startCompaction (s : State) (i : CallId) : State :=
  let k := s.next
  { ((s.emit (.compactionStart k)).emit (.started (.compaction k))).moveTo i (.compacting k) with
    manualCompaction := some k
    next := k + 1 }

def clearManual (s : State) : State :=
  { s with manualCompaction := none }.resolveIdle

/-- `compact` with a summary or an error. Without its controller the `catch`
block throws before it emits `compaction_end`. -/
def endSummary (s : State) (i : CallId) (k : Nat) (ok : Bool) : State :=
  if s.manualCompaction.isNone then
    ((s.emit (.ended (.compaction k))).moveTo i .done).clearManual
  else if ok then s.moveTo i (.announcing k)
  else
    { (((s.emit (.ended (.compaction k))).moveTo i .reporting).clearManual).emit
        (.compactionEnd (some k)) with
      reporters := i :: s.reporters }

def endCompaction (s : State) (i : CallId) (k : Nat) : State :=
  (((s.emit (.ended (.compaction k))).moveTo i .done).clearManual.emit
    (.compactionEnd (some k))).clearManual

/-- `prompt` up to the input handlers. -/
def enterInput (s : State) (i : CallId) : State :=
  if s.manualCompaction.isSome then s.moveTo i (.returning true) else s.moveTo i .input

/-- `prompt` from its start; `slash` when the text starts with a slash. -/
def enterPrompt (s : State) (i : CallId) (slash : Bool) : State :=
  if s.isEmittingAgentSettled then
    { s.moveTo i (.returning false) with
      deferredSettledActions := s.deferredSettledActions ++ [.prompt] }
  else if slash then s.moveTo i .commands
  else s.enterInput i

/-- The frame on top is left: its actions are done, or one has thrown. -/
def leaveFrame (s : State) (i : CallId) (rest : List Frame) (thrown : Bool) : State :=
  { s.moveTo i (.returning thrown) with
    frames := Function.update s.frames i rest }.resolveIdle

end State

/-! ## Steps -/

inductive Check where
  | none
  /-- An overflow whose recovery has already been tried. -/
  | exhausted
  | compaction
  deriving DecidableEq

/-- The state of the credentials: no model, configured, or to be asked for. -/
inductive Auth where
  | noModel
  | configured (check : Check)
  | asked
  deriving DecidableEq

/-- What follows when the agent has ended. -/
inductive PostRun where
  /-- The loop is left, normally or by an error. -/
  | leave (thrown : Bool)
  /-- `agent.continue`. -/
  | again
  | compaction
  | exhausted
  /-- The entries of the `agent_before_settle` boundary are committed, with so
  many custom messages. -/
  | boundary (drafts : Nat)
  deriving DecidableEq

inductive Act where
  | prompt (slash : Bool)
  | commandDone (handled : Bool)
  /-- The answer of the input handlers; whether the message may be queued, and
  the credentials. -/
  | inputDone (handled mayQueue : Bool) (auth : Auth)
  | authDone (found : Option Check)
  | autoDone (ok : Bool)
  | autoReported
  | hooksDone (ok : Bool)
  | sendCustomMessage (triggerTurn : Option Bool) (nextTurn : Bool)
  | recordBashResult
  /-- Steps of the agent in a run. -/
  | assistant (calls : Nat)
  | toolResult
  | queued
  | turnEnd
  | agentFail
  | agentEnd
  | rejected
  | postRun (next : PostRun)
  | settled
  | return (slash : Bool)
  | wait (w : Waiter)
  | resume
  | compactDone (ok : Bool)
  | compactAnnounced
  | compactReported
  | navigateTree (accepted : Bool)
  | navigateDone
  deriving DecidableEq

structure Label where
  call : CallId
  act : Act

namespace State

/-- `prompt` goes on to the compaction check. -/
def check (s : State) (i : CallId) : Check → State
  | .none => s.moveTo i .hooks
  | .exhausted => (s.emit (.compactionEnd none)).moveTo i .hooks
  | .compaction => s.startAuto i (.autoBefore · .working)

/-- `prompt` after the input handlers. -/
def afterInput (s : State) (i : CallId) (mayQueue : Bool) (auth : Auth) : State :=
  if s.isAgentRunActive then s.moveTo i (.returning !mayQueue)
  else
    let s := s.flushBash.flushCustom
    match auth with
    | .noModel => s.moveTo i (.returning true)
    | .asked => s.moveTo i .auth
    | .configured check => s.check i check

def sendCustomMessage (s : State) (i : CallId) (triggerTurn : Option Bool)
    (nextTurn : Bool) : State :=
  if nextTurn then s.moveTo i .done
  else if s.isAgentRunActive && triggerTurn != some false then s.moveTo i .done
  else if triggerTurn = some true then
    if s.isEmittingAgentSettled then
      { s.moveTo i .done with
        deferredSettledActions := s.deferredSettledActions ++ [.run] }
    else s.startRun i
  else if s.isAgentRunActive then
    { s.moveTo i .done with pendingCustomMessages := s.pendingCustomMessages + 1 }
  else (s.emit .custom).moveTo i .done

def recordBashResult (s : State) (i : CallId) : State :=
  if s.isAgentRunActive then
    { s.moveTo i .done with pendingBashMessages := s.pendingBashMessages + 1 }
  else (s.emit .bash).moveTo i .done

/-- `abort`, `waitForIdle`, and `compact`, which first aborts. -/
def wait (s : State) (i : CallId) (w : Waiter) : State :=
  let s := { s with
    agentRunAbortRequested := s.agentRunAbortRequested ||
      (s.isAgentRunActive && decide (w ≠ Waiter.waitForIdle)) }
  if s.isIdle then (s.emit .idle).moveTo i (.released w) else s.moveTo i (.waiting w)

def navigateTree (s : State) (i : CallId) (accepted : Bool) : State :=
  if s.isAgentRunActive || s.isCompacting || !accepted then s.moveTo i .done
  else
    let k := s.next
    { (s.emit (.started (.navigation k))).moveTo i (.navigating k) with
      branchSummary := some k
      next := k + 1 }

/-- The loop of `_runAgentPrompt` after the agent has ended. -/
def postRun (s : State) (i : CallId) (k : Nat) : PostRun → Option State
  | .leave thrown => some (s.endRun i k thrown)
  | .again =>
    if s.agentRunAbortRequested then none
    else if s.activeRun.isSome then some (s.endRun i k true)
    else some { s.moveTo i (.run k .agent) with activeRun := some i }
  | .compaction => some (s.startAuto i fun c => .run k (.auto c .working))
  | .exhausted => some (s.emit (.compactionEnd none))
  | .boundary drafts =>
    some { s with log := s.log ++ List.replicate drafts Event.custom }.flushCustom

/-- What the agent does in a run. A custom message comes from a queue or a
boundary, and a turn and a run end, only when every call has its result. -/
def agentStep (s : State) (i : CallId) (k : Nat) : Act → Option State
  | .assistant n =>
    if s.openCalls = 0 then some { s.emit (.toolCalls n) with openCalls := n } else none
  | .toolResult =>
    if s.openCalls = 0 then none
    else some { s.emit .toolResult with openCalls := s.openCalls - 1 }
  | .queued => if s.openCalls = 0 then some (s.emit .custom) else none
  | .turnEnd => if s.openCalls = 0 then some s.flushCustom else none
  | .agentFail => some { s.emit .abandoned with openCalls := 0 }
  | .agentEnd =>
    if s.openCalls = 0 then some { s.moveTo i (.run k .between) with activeRun := none }
    else none
  | _ => none

/-- The next deferred action of a settling run. -/
def nextAction (s : State) (i : CallId) (slash thrown : Bool) : State :=
  match s.frames i with
  | [] => s.moveTo i .done
  | ⟨[], t⟩ :: rest => s.leaveFrame i rest (thrown || t)
  | ⟨action :: actions, t⟩ :: rest =>
    if thrown then s.leaveFrame i rest true
    else
      let s := { s with frames := Function.update s.frames i (⟨actions, t⟩ :: rest) }
      match action with
      | .prompt => s.enterPrompt i slash
      | .run => s.startRun i

/-- An automatic compaction has come to its end or has failed. -/
def autoDone (s : State) (i : CallId) (k : Nat) (ok : Bool) (failed next : Phase) : State :=
  let s := s.emit (.compactionEnd (some k))
  if ok then (s.moveTo i next).clearAuto k else s.moveTo i failed

end State

def step (s : State) (label : Label) : Option State :=
  let i := label.call
  match label.act, s.phase i with
  | .prompt slash, .absent => some (s.enterPrompt i slash)
  | .commandDone handled, .commands =>
    some (if handled then s.moveTo i (.returning false) else s.enterInput i)
  | .inputDone handled mayQueue auth, .input =>
    some (if handled then s.moveTo i (.returning false) else s.afterInput i mayQueue auth)
  | .authDone found, .auth =>
    some (match found with
      | none => s.moveTo i (.returning true)
      | some check => s.check i check)
  | .autoDone ok, .autoBefore k .working =>
    some (s.autoDone i k ok (.autoBefore k .reporting) .hooks)
  | .autoDone ok, .run r (.auto k .working) =>
    some (s.autoDone i k ok (.run r (.auto k .reporting)) (.run r .between))
  | .autoReported, .autoBefore k .reporting => some ((s.moveTo i .hooks).clearAuto k)
  | .autoReported, .run r (.auto k .reporting) =>
    some ((s.moveTo i (.run r .between)).clearAuto k)
  | .hooksDone ok, .hooks => some (if ok then s.startRun i else s.moveTo i (.returning true))
  | .sendCustomMessage triggerTurn nextTurn, .absent =>
    some (s.sendCustomMessage i triggerTurn nextTurn)
  | .recordBashResult, .absent => some (s.recordBashResult i)
  | .rejected, .run k .rejected => some (s.endRun i k true)
  | .postRun next, .run k .between => s.postRun i k next
  | .settled, .settling k thrown => some (s.settle i k thrown)
  | .return slash, .returning thrown => some (s.nextAction i slash thrown)
  | .wait w, .absent => some (s.wait i w)
  | .resume, .released .compact => some (s.startCompaction i)
  | .resume, .released .abort => some (s.moveTo i .done)
  | .resume, .released .waitForIdle => some (s.moveTo i .done)
  | .compactDone ok, .compacting k => some (s.endSummary i k ok)
  | .compactAnnounced, .announcing k => some (s.endCompaction i k)
  | .compactReported, .reporting =>
    some { (s.moveTo i .done).clearManual with reporters := s.reporters.erase i }
  | .navigateTree accepted, .absent => some (s.navigateTree i accepted)
  | .navigateDone, .navigating k =>
    some { (s.emit (.ended (.navigation k))).moveTo i .done with
      branchSummary := none }.resolveIdle
  | act, .run k .agent => s.agentStep i k act
  | _, _ => none

end ReflectivePi.Calls
