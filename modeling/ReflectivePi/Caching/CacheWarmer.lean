import Mathlib.Algebra.Order.Ring.Unbundled.Rat
import Mathlib.Data.Rat.Floor

/-!
# Caching — the cache warmer

The warmer keeps the prompt cache entry of one request alive by sending the
request again shortly before the entry expires. Times are milliseconds,
prices dollars. A run of the warmer is a slot of the list of runs; `current`
names the one the warmer works for.
-/

namespace ReflectivePi.Caching

/-! ## Prices -/

structure ModelCostRates where
  input : ℚ
  output : ℚ
  cacheRead : ℚ
  cacheWrite : ℚ

structure ModelCostTier extends ModelCostRates where
  inputTokensAbove : ℚ

structure ModelCost extends ModelCostRates where
  tiers : List ModelCostTier := []

structure Usage where
  input : ℚ := 0
  output : ℚ := 0
  cacheRead : ℚ := 0
  cacheWrite : ℚ := 0
  cacheWrite1h : ℚ := 0

/-- The rates of the highest tier the input passes, the base rates if none. -/
def matchedRates (cost : ModelCost) (inputTokens : ℚ) : ModelCostRates :=
  (cost.tiers.foldl (fun (rates, matchedThreshold) tier =>
      if inputTokens > tier.inputTokensAbove ∧ tier.inputTokensAbove > matchedThreshold then
        (tier.toModelCostRates, tier.inputTokensAbove)
      else (rates, matchedThreshold))
    (cost.toModelCostRates, -1)).1

/-- `calculateCost(model, usage).total`. -/
def calculateCost (cost : ModelCost) (usage : Usage) : ℚ :=
  let rates := matchedRates cost (usage.input + usage.cacheRead + usage.cacheWrite)
  let shortWrite := usage.cacheWrite - usage.cacheWrite1h
  rates.input / 1000000 * usage.input + rates.output / 1000000 * usage.output
    + rates.cacheRead / 1000000 * usage.cacheRead
    + (rates.cacheWrite * shortWrite + rates.input * 2 * usage.cacheWrite1h) / 1000000

/-! ## The request -/

inductive CacheRetention where
  | none
  | short
  | long
  deriving DecidableEq

structure Model where
  api : String
  cost : ModelCost
  promptCacheShort : Option ℚ := none
  promptCacheLong : Option ℚ := none
  forceAdaptiveThinking : Bool := false

/-- The options of a request; `retentionEnv` is `PI_CACHE_RETENTION` as the
provider's environment has it. -/
structure StreamOptions where
  reasoning : Option String := none
  cacheRetention : Option CacheRetention := none
  retentionEnv : Option String := none

structure CacheWarmRequest where
  model : Model
  options : StreamOptions

def getCacheWarmingDelayMs (ttlMs : ℚ) : Option ℤ :=
  if ttlMs ≤ 10000 then none
  else some (max 1 (min (ttlMs * (9 / 10)) (ttlMs - 10000)).floor)

def getPromptCacheTtlMs (model : Model) (options : StreamOptions) : Option ℚ :=
  match options.cacheRetention.getD (if options.retentionEnv = some "long" then .long else .short) with
  | .none => none
  | .short => model.promptCacheShort.map (· * 1000)
  | .long => model.promptCacheLong.map (· * 1000)

def isReplayable (model : Model) (options : StreamOptions) : Bool :=
  options.reasoning.isNone || model.api != "anthropic-messages" || model.forceAdaptiveThinking

/-! ## The decision -/

inductive CacheWarmingMode where
  | off
  | streaming
  | idle
  deriving DecidableEq

inductive Phase where
  | streaming
  | idle
  deriving DecidableEq

inductive CacheWarmingAction where
  | warm
  | stop
  deriving DecidableEq

structure CacheWarmingDecision where
  phase : Phase
  warmCost : ℚ
  missCost : ℚ
  continuationProbability : ℚ
  expectedSavings : ℚ
  economicsAvailable : Bool
  action : CacheWarmingAction

/-- How long after its start a run may warm in a phase. -/
def maxWarmingAgeMs : Phase → ℤ
  | .streaming => 60 * 60000
  | .idle => 30 * 60000

def minimumExpectedSavings : ℚ := 5 / 100

def idleContinuationProbability : ℚ := 15 / 100

/-- An entry of the session's branch: an assistant message with its usage, or
another entry. -/
inductive BranchEntry where
  | assistant (usage : Usage)
  | other

/-- The prompt size of the last assistant message. -/
def lastPromptTokens (entries : List BranchEntry) : ℚ :=
  (entries.reverse.findSome? fun
    | .assistant usage => some (usage.input + usage.cacheRead + usage.cacheWrite)
    | .other => none).getD 0

def evaluate (model : Model) (phase : Phase) (branch : List BranchEntry) : CacheWarmingDecision :=
  let promptTokens := lastPromptTokens branch
  let cacheHitCost := calculateCost model.cost { cacheRead := promptTokens }
  let cacheMissCost := calculateCost model.cost
    (if model.cost.cacheWrite > 0 then { cacheWrite := promptTokens } else { input := promptTokens })
  let warmCost := calculateCost model.cost { cacheRead := promptTokens, output := 1 }
  let missCost := max 0 (cacheMissCost - cacheHitCost)
  let continuationProbability := if phase = .idle then idleContinuationProbability else 1
  let expectedSavings := continuationProbability * missCost - warmCost
  { phase, warmCost, missCost, continuationProbability, expectedSavings
    economicsAvailable := decide (promptTokens > 0 ∧ (cacheHitCost > 0 ∨ cacheMissCost > 0))
    action := if expectedSavings ≥ minimumExpectedSavings then .warm else .stop }

/-! ## The warmer's state -/

/-- What a run is doing: its timer is armed, it waits for the decision hook,
its warm request is in flight, or none of these. -/
inductive Activity where
  | scheduled
  | deciding (asked : CacheWarmingDecision)
  | warming
  | finished

structure ActiveRun extends CacheWarmRequest where
  ttlMs : ℚ
  delayMs : ℤ
  refreshDeadlineAt : ℤ := 0
  startedAt : ℤ
  aborted : Bool := false
  phase : Phase := .streaming
  nextWarmAt : ℤ := 0
  extensionOverride : Bool := false
  activity : Activity := .finished

/-- What the warmer reads when it runs: the clock, the mode, the branch, and
whether the conversation still extends the request. -/
structure Env where
  now : ℤ
  mode : CacheWarmingMode
  branch : List BranchEntry
  isCurrent : Bool

/-- Why nothing is scheduled. -/
structure Inactive where
  reason : String
  decision : Option (CacheWarmingDecision × Bool) := none

/-- A warm request as it was sent: the run, the run that was current and what
the warmer read. -/
structure Sent where
  id : Nat
  run : ActiveRun
  current : Option Nat
  env : Env

structure Warmer where
  runs : List ActiveRun := []
  current : Option Nat := none
  inactive : Inactive := { reason := "waiting for first request" }
  sent : List Sent := []
  /-- The runs whose refreshes were recorded, and whether the hook forced them. -/
  warmed : List (Nat × Bool) := []

/-- The run's timer is cleared and its controller aborted. -/
def ActiveRun.clear (run : ActiveRun) : ActiveRun :=
  { run with
    aborted := true
    activity := match run.activity with
      | .scheduled => .finished
      | activity => activity }

/-- The latest time the run's phase allows. -/
def ActiveRun.safetyDeadline (run : ActiveRun) : ℤ := run.startedAt + maxWarmingAgeMs run.phase

/-- The run with the times of its next refresh. -/
def ActiveRun.planned (run : ActiveRun) (now : ℤ) : ActiveRun :=
  { run with
    extensionOverride := false
    nextWarmAt := now + run.delayMs
    refreshDeadlineAt := now + run.delayMs + ((run.ttlMs - run.delayMs) / 2).floor }

def ActiveRun.evaluate (run : ActiveRun) (branch : List BranchEntry) : CacheWarmingDecision :=
  Caching.evaluate run.model run.phase branch

def getModeStopReason (mode : CacheWarmingMode) (phase : Phase) : Option String :=
  match mode, phase with
  | .off, _ => some "cache warming disabled"
  | .streaming, .idle => some "agent run settled"
  | _, _ => none

/-- What a check of a run comes to: it goes on, it is left alone, or the
warmer is stopped. -/
inductive Check where
  | passed
  | left
  | stopped (reason : String)
  deriving DecidableEq

namespace Warmer

def setRun (w : Warmer) (id : Nat) (run : ActiveRun) : Warmer :=
  { w with runs := w.runs.set id run }

def clearRun (w : Warmer) : Warmer :=
  match w.current with
  | none => w
  | some id => { w with current := none, runs := w.runs.modify id ActiveRun.clear }

def stop (w : Warmer) (reason : String)
    (stopped : Option (CacheWarmingDecision × Bool) := none) : Warmer :=
  { w.clearRun with inactive := { reason, decision := stopped } }

def safetyLimitReason : Phase → String
  | .idle => "30-minute idle safety limit reached"
  | .streaming => "one-hour safety limit reached"

/-- `schedule(run)`, where `run` is the slot `id` as it stands. -/
def schedule (w : Warmer) (id : Nat) (run : ActiveRun) (now : ℤ) : Warmer :=
  let run := run.planned now
  if run.nextWarmAt > run.safetyDeadline ∨ now ≥ run.safetyDeadline then
    (w.setRun id { run with activity := .finished }).stop (safetyLimitReason run.phase)
  else w.setRun id { run with activity := .scheduled }

def validateRun (w : Warmer) (id : Nat) (run : ActiveRun) (env : Env) : Check :=
  if w.current ≠ some id then .left
  else match getModeStopReason env.mode run.phase with
    | some reason => .stopped reason
    | none => if env.isCurrent then .passed else .stopped "conversation context changed"

/-- `!validateRun(run) || refreshDeadlineMissed(run)`. -/
def mayRefresh (w : Warmer) (id : Nat) (run : ActiveRun) (env : Env) : Check :=
  match w.validateRun id run env with
  | .passed =>
    if env.now ≤ run.refreshDeadlineAt then .passed else .stopped "cache refresh deadline missed"
  | refused => refused

/-! ## What happens to the warmer -/

def start (w : Warmer) (request : CacheWarmRequest) (env : Env) : Warmer :=
  let w := w.clearRun
  if env.mode = .off then w.stop "cache warming disabled"
  else if !isReplayable request.model request.options then
    w.stop "request cannot be replayed safely"
  else match getPromptCacheTtlMs request.model request.options with
    | none =>
      w.stop (if request.options.cacheRetention = some .none then
        "request disabled prompt caching" else "cache lifetime unavailable")
    | some ttlMs => match getCacheWarmingDelayMs ttlMs with
      | none => w.stop "cache lifetime unavailable"
      | some delayMs =>
        let run : ActiveRun := { request with ttlMs, delayMs, startedAt := env.now }
        schedule { w with runs := w.runs ++ [run], current := some w.runs.length }
          w.runs.length run env.now

def onAgentSettled (w : Warmer) (env : Env) : Warmer :=
  match w.current with
  | none => w
  | some id => match w.runs[id]? with
    | none => w
    | some run =>
      if env.mode = .streaming then w.stop "agent run settled"
      else
        let run := { run with phase := .idle }
        let w := w.setRun id run
        if run.nextWarmAt > run.safetyDeadline ∨ env.now ≥ run.safetyDeadline then
          w.stop (safetyLimitReason .idle)
        else w

def onModeChanged (w : Warmer) (env : Env) : Warmer :=
  match w.current with
  | none => w
  | some id => match w.runs[id]? with
    | none => w
    | some run => match getModeStopReason env.mode run.phase with
      | none => w
      | some reason => w.stop reason

def cancel (w : Warmer) : Warmer := w.stop "inactive"

/-- `refresh` up to the decision hook, when the timer of the run fires. -/
def timerFires (w : Warmer) (id : Nat) (run : ActiveRun) (env : Env) : Warmer :=
  match w.mayRefresh id run env with
  | .left => w.setRun id { run with activity := .finished }
  | .stopped reason => (w.setRun id { run with activity := .finished }).stop reason
  | .passed => w.setRun id { run with activity := .deciding (run.evaluate env.branch) }

def stopReason (decision : CacheWarmingDecision) (extensionOverride : Bool) : String :=
  if extensionOverride then "stopped by extension"
  else if decision.economicsAvailable then "expected savings below threshold"
  else "cache economics unavailable"

/-- `refresh` from the hook's answer, `none` if the hook failed, up to the
warm request. -/
def hookAnswers (w : Warmer) (id : Nat) (run : ActiveRun) (asked : CacheWarmingDecision)
    (answer : Option CacheWarmingAction) (env : Env) : Warmer :=
  match w.mayRefresh id run env with
  | .left => w.setRun id { run with activity := .finished }
  | .stopped reason => (w.setRun id { run with activity := .finished }).stop reason
  | .passed =>
    let action := answer.getD asked.action
    let extensionOverride := decide (action ≠ asked.action)
    match action with
    | .stop =>
      (w.setRun id { run with activity := .finished }).stop
        (stopReason asked extensionOverride) (some (asked, extensionOverride))
    | .warm =>
      let run := { run with extensionOverride, activity := .warming }
      { w.setRun id run with sent := w.sent ++ [{ id, run, current := w.current, env }] }

/-- How a warm request ends: with a message that is recorded, with an error or
aborted message, or by an exception. -/
inductive Outcome where
  | message
  | errorMessage
  | thrown
  deriving DecidableEq

/-- The end of `refresh`: only the current run is scheduled again. -/
def finishRefresh (w : Warmer) (id : Nat) (run : ActiveRun) (now : ℤ) : Warmer :=
  if w.current = some id then w.schedule id run now
  else w.setRun id { run with activity := .finished }

/-- `refresh` from the end of the warm request on. -/
def warmCompletes (w : Warmer) (id : Nat) (run : ActiveRun) (outcome : Outcome) (env : Env) :
    Warmer :=
  match outcome with
  | .thrown => w.finishRefresh id run env.now
  | outcome => match w.validateRun id run env with
    | .left => w.setRun id { run with activity := .finished }
    | .stopped reason => (w.setRun id { run with activity := .finished }).stop reason
    | .passed =>
      let w := if outcome = .message then
        { w with warmed := w.warmed ++ [(id, run.extensionOverride)] } else w
      w.finishRefresh id run env.now

inductive Event where
  | start (request : CacheWarmRequest)
  | onAgentSettled
  | onModeChanged
  | cancel
  | timerFires (id : Nat)
  | hookAnswers (id : Nat) (answer : Option CacheWarmingAction)
  | warmCompletes (id : Nat) (outcome : Outcome)

/-- What an event does; `none` if it cannot happen: a timer that is not armed,
a hook or request that is not awaited. -/
def step (w : Warmer) : Env × Event → Option Warmer
  | (env, .start request) => some (w.start request env)
  | (env, .onAgentSettled) => some (w.onAgentSettled env)
  | (env, .onModeChanged) => some (w.onModeChanged env)
  | (_, .cancel) => some w.cancel
  | (env, .timerFires id) => match w.runs[id]? with
      | none => none
      | some run => match run.activity with
        | .scheduled => some (w.timerFires id run env)
        | _ => none
  | (env, .hookAnswers id answer) => match w.runs[id]? with
      | none => none
      | some run => match run.activity with
        | .deciding asked => some (w.hookAnswers id run asked answer env)
        | _ => none
  | (env, .warmCompletes id outcome) => match w.runs[id]? with
      | none => none
      | some run => match run.activity with
        | .warming => some (w.warmCompletes id run outcome env)
        | _ => none

end Warmer

end ReflectivePi.Caching
