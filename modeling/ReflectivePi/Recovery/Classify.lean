import ReflectivePi.Agent.ToolDeclarations

/-!
# Recovery — Classify

What a finished response says about the provider: a full context window, a
response cut short, or an error that is worth another try.

The patterns for error texts are regular expressions; they enter as the
predicates they decide.
-/

namespace ReflectivePi.Recovery

open Agent (StopReason)
open Session (ContentBlock Content Usage AgentMessage)

/-- The tables of regular expressions, each as "some pattern matches". -/
structure ErrorPatterns where
  /-- `OVERFLOW_PATTERNS`. -/
  overflow : String → Bool
  /-- `NON_OVERFLOW_PATTERNS`. -/
  nonOverflow : String → Bool
  /-- `CEREBRAS_BODYLESS_OVERFLOW_PATTERN`. -/
  cerebrasBodyless : String → Bool
  /-- `NON_RETRYABLE_PROVIDER_LIMIT_ERROR_PATTERN`. -/
  nonRetryableLimit : String → Bool
  /-- `RETRYABLE_PROVIDER_ERROR_PATTERN`. -/
  retryable : String → Bool

/-- The assistant message a model call ends with. -/
structure Completion where
  stopReason : StopReason
  errorMessage : Option String
  content : List ContentBlock
  provider : String
  model : String
  usage : Usage
  timestamp : Nat
  deriving DecidableEq

namespace Completion

def stopName : StopReason → String
  | .pending => "pending"
  | .stop => "stop"
  | .length => "length"
  | .toolUse => "toolUse"
  | .error => "error"
  | .aborted => "aborted"
  | .deferred => "deferred"

/-- The message as the session stores it. -/
def toMessage (c : Completion) : AgentMessage :=
  .assistant
    { content := some (.blocks c.content)
      provider := c.provider
      model := c.model
      stopReason := stopName c.stopReason
      usage := some c.usage
      timestamp := c.timestamp }

def hasToolCalls (c : Completion) : Bool :=
  !(Content.toolCalls (.blocks c.content)).isEmpty

/-- An error text that is there and not empty. -/
def errorText (c : Completion) : Option String :=
  c.errorMessage.filter fun text => text ≠ ""

end Completion

variable (patterns : ErrorPatterns)

/-- Case 1 of `isContextOverflow`, the only one an error can meet. -/
def isOverflowError (c : Completion) : Bool :=
  match c.errorText with
  | none => false
  | some text =>
    decide (c.stopReason = .error) && !patterns.nonOverflow text && (patterns.overflow text
        || (decide (c.provider = "cerebras") && patterns.cerebrasBodyless text))

/-- `contextWindow` is 0 where the caller passes none. -/
def isContextOverflow (c : Completion) (contextWindow : Nat) : Bool :=
  let inputTokens := c.usage.input + c.usage.cacheRead
  isOverflowError patterns c || (decide (0 < contextWindow) && decide (c.stopReason = .stop)
      && decide (contextWindow < inputTokens))
    || (decide (0 < contextWindow) && decide (c.stopReason = .length) && decide (c.usage.output = 0)
      -- `inputTokens >= contextWindow * 0.99`
      && decide (99 * contextWindow ≤ 100 * inputTokens))

def isRecoverableLength (c : Completion) (desiredMaxOutput : Nat) : Bool :=
  decide (c.stopReason = .length) && decide (0 < desiredMaxOutput)
    && decide (c.usage.output < desiredMaxOutput)

def isRetryableAssistantError (c : Completion) : Bool :=
  match c.errorText with
  | none => false
  | some text =>
    decide (c.stopReason = .error) && !patterns.nonRetryableLimit text && patterns.retryable text

/-- `_isRetryableError`: a full context window is left to compaction. -/
def isRetryableError (c : Completion) (contextWindow : Nat) : Bool :=
  !isContextOverflow patterns c contextWindow && isRetryableAssistantError patterns c

variable {patterns} {c : Completion} {contextWindow : Nat}

theorem stopReason_of_isRetryableError (h : isRetryableError patterns c contextWindow = true) :
    c.stopReason = .error := by
  unfold isRetryableError isRetryableAssistantError at h
  cases htext : c.errorText with
  | none => simp [htext] at h
  | some text =>
    simp only [htext, Bool.and_eq_true, decide_eq_true_eq] at h
    exact h.2.1.1

theorem stopReason_of_isOverflowError (h : isOverflowError patterns c = true) :
    c.stopReason = .error := by
  unfold isOverflowError at h
  cases htext : c.errorText with
  | none => simp [htext] at h
  | some text =>
    simp only [htext, Bool.and_eq_true, decide_eq_true_eq] at h
    exact h.1.1

theorem isContextOverflow_cases (h : isContextOverflow patterns c contextWindow = true) :
    isOverflowError patterns c = true ∨ c.stopReason = .stop ∨ c.stopReason = .length := by
  simp only [isContextOverflow, Bool.or_eq_true, Bool.and_eq_true, decide_eq_true_eq] at h
  obtain (herror | hstop) | hlength := h
  · exact .inl herror
  · exact .inr (.inl hstop.1.2)
  · exact .inr (.inr hlength.1.1.2)

theorem isContextOverflow_of_error (h : c.stopReason = .error) :
    isContextOverflow patterns c contextWindow = isOverflowError patterns c := by
  simp [isContextOverflow, h]

/-- A retryable error is no overflow, whatever model is asked next. -/
theorem isContextOverflow_of_isRetryableError
    (h : isRetryableError patterns c contextWindow = true) (other : Nat) :
    isContextOverflow patterns c other = false := by
  have herror := stopReason_of_isRetryableError h
  rw [isContextOverflow_of_error herror]
  unfold isRetryableError at h
  rw [isContextOverflow_of_error herror] at h
  cases hc : isOverflowError patterns c with
  | false => rfl
  | true => simp [hc] at h

end ReflectivePi.Recovery
